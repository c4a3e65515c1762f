import HealthMonitor.Core.Trust

/-!
# Validity

Until when a provenance verdict is valid, against the copies of the facts it uses.
The deadlines are kept by resource, over all copies of it, so that a copy that is
no fact can extend the deadline of one that is.
-/

namespace HealthMonitor.Evidence

variable {snapshot : Snapshot} {job : Job} {current : CheckResult} {now : Time}

/-! ## Copies -/

/-- An observation, with the result it came from. -/
structure Copy where
  key : String
  result : CheckResult
  obs : Observation

/-- The observations of all results, in the order of the enrichment. -/
def copies (snapshot : Snapshot) (job : Job) (current : CheckResult) : List Copy :=
  (inputs snapshot job current).flatMap fun (key, result) =>
    result.observations.map fun obs => { key, result, obs }

namespace Copy

def resource (copy : Copy) : String := copy.obs.resource

def observedAt (copy : Copy) : Time := copy.obs.observedAt

/-- The freshness limit that enrichment applies to the copy. -/
def limit (snapshot : Snapshot) (job : Job) (copy : Copy) : Nat :=
  sourceLimit snapshot copy.result.target copy.obs (limitOf snapshot job copy.key)

def deadline (snapshot : Snapshot) (job : Job) (copy : Copy) : Time :=
  copy.obs.observedAt + copy.limit snapshot job * nanosPerSecond

/-- The calendar reaches to the deadline. -/
def Representable (snapshot : Snapshot) (job : Job) (copy : Copy) : Prop :=
  copy.deadline snapshot job ≤ Time.last

instance : Decidable (Representable snapshot job copy) :=
  inferInstanceAs (Decidable (_ ≤ _))

/-- Every copy of the resource expires by then. If the calendar reaches to no
deadline of them, the copy itself must have been observed by then. -/
structure ExpiresBy (snapshot : Snapshot) (job : Job) (current : CheckResult) (copy : Copy)
    (time : Time) : Prop where
  copies : ∀ other ∈ copies snapshot job current, other.resource = copy.resource →
    other.Representable snapshot job → other.deadline snapshot job ≤ time
  otherwise : (∀ other ∈ Evidence.copies snapshot job current, other.resource = copy.resource →
    ¬ other.Representable snapshot job) → copy.observedAt ≤ time

end Copy

/-- The copies that are chosen as facts. -/
def factCopies (snapshot : Snapshot) (job : Job) (current : CheckResult) (now : Time) :
    Table Copy :=
  Newest.table Copy.resource Copy.observedAt <|
    (copies snapshot job current).filter fun copy =>
      isFact snapshot (inputs snapshot job current) now (limitOf snapshot job copy.key)
        copy.result copy.obs

/-- The copies that are chosen as images. -/
def imageCopies (snapshot : Snapshot) (job : Job) (current : CheckResult) : Table Copy :=
  Newest.table Copy.resource Copy.observedAt <|
    (copies snapshot job current).filter fun copy => isImage copy.obs.data

theorem gathered_eq : gathered snapshot job current now
    = ((copies snapshot job current).filter fun copy =>
        isFact snapshot (inputs snapshot job current) now (limitOf snapshot job copy.key)
          copy.result copy.obs).map Copy.obs := by
  rw [gathered, copies, List.filter_flatMap, List.map_flatMap]
  refine List.flatMap_congr fun input _ => ?_
  rw [List.filter_map, List.map_map]
  exact (List.map_id _).symm

/-- A fact is chosen with its copy. -/
theorem exists_factCopy {obs : Observation} (h : obs ∈ (new snapshot job current now).facts) :
    ∃ copy, (factCopies snapshot job current now)[obs.resource]? = some copy
      ∧ copy.obs = obs := by
  rw [new_facts, gathered_eq] at h
  obtain ⟨⟨k, fact⟩, hmem, rfl⟩ := List.mem_map.mp h
  have hget := Table.mem_toList.mp hmem
  have hkey := (Newest.mem_of_getElem? hget).2
  rw [Newest.getElem?_table_map] at hget
  obtain ⟨copy, hcopy, hobs⟩ := Option.map_eq_some_iff.mp hget
  exact ⟨copy, hkey ▸ hcopy, hobs⟩

theorem exists_imageCopy {target : Target} {obs : Observation}
    (h : obs ∈ (new snapshot job current now).images target) :
    ∃ copy, (imageCopies snapshot job current)[obs.resource]? = some copy ∧ copy.obs = obs := by
  obtain ⟨⟨k, image⟩, hmem, rfl⟩ := List.mem_map.mp (List.mem_filter.mp h).1
  have himages : ((inputs snapshot job current).flatMap fun (_, result) =>
        result.observations.filter fun obs => isImage obs.data)
      = ((copies snapshot job current).filter fun copy => isImage copy.obs.data).map Copy.obs := by
    rw [copies, List.filter_flatMap, List.map_flatMap]
    refine List.flatMap_congr fun input _ => ?_
    rw [List.filter_map, List.map_map]
    exact (List.map_id _).symm
  have hget := Table.mem_toList.mp hmem
  rw [new_candidates, himages] at hget
  have hkey := (Newest.mem_of_getElem? hget).2
  rw [Newest.getElem?_table_map] at hget
  obtain ⟨copy, hcopy, hobs⟩ := Option.map_eq_some_iff.mp hget
  exact ⟨copy, hkey ▸ hcopy, hobs⟩

/-! ## Deadlines -/

/-- One copy in the table of deadlines. -/
def raise (snapshot : Snapshot) (job : Job) (table : Table Time) (copy : Copy) : Table Time :=
  expiryStep snapshot (limitOf snapshot job copy.key) copy.result.target table copy.obs

theorem new_expiry : (new snapshot job current now).expiry
    = (copies snapshot job current).foldl (raise snapshot job) ∅ := by
  rw [copies, List.foldl_flatMap]
  show List.foldl _ _ _ = List.foldl _ _ _
  congr 1
  funext table input
  rw [List.foldl_map]
  rfl

theorem getElem?_raise (table : Table Time) (copy : Copy) (k : String) :
    (raise snapshot job table copy)[k]?
      = if copy.resource = k ∧ copy.Representable snapshot job then
          some ((table[k]?.map (max · (copy.deadline snapshot job))).getD
            (copy.deadline snapshot job))
        else table[k]? := by
  have hadd : checkedAdd copy.obs.observedAt
        (sourceLimit snapshot copy.result.target copy.obs (limitOf snapshot job copy.key))
      = if copy.Representable snapshot job then some (copy.deadline snapshot job) else none := rfl
  rw [raise, expiryStep, hadd]
  by_cases hrep : copy.Representable snapshot job
  · simp only [hrep, if_true, and_true]
    by_cases hk : copy.resource = k
    · subst hk
      rw [if_pos rfl, Copy.resource]
      cases table[copy.obs.resource]? with
      | none => exact Std.ExtTreeMap.getElem?_insert_self
      | some t => exact Std.ExtTreeMap.getElem?_insert_self
    · rw [if_neg hk]
      split
      · exact Table.getElem?_insert_ne (Ne.symm hk)
      · exact Table.getElem?_insert_ne (Ne.symm hk)
  · simp only [hrep, if_false, and_false]

/-- The latest deadline of a resource, if the calendar reaches to one. -/
structure Latest (snapshot : Snapshot) (job : Job) (l : List Copy) (k : String)
    (latest : Option Time) : Prop where
  upper : ∀ copy ∈ l, copy.resource = k → copy.Representable snapshot job →
    ∃ t, latest = some t ∧ copy.deadline snapshot job ≤ t
  reached : ∀ t, latest = some t → ∃ copy ∈ l, copy.resource = k
    ∧ copy.Representable snapshot job ∧ copy.deadline snapshot job = t

theorem latest_foldl (l : List Copy) (k : String) :
    Latest snapshot job l k (l.foldl (raise snapshot job) ∅)[k]? := by
  induction l using List.reverseRecOn with
  | nil => exact ⟨by simp, by simp⟩
  | append_singleton l copy ih =>
      rw [List.foldl_append]
      show Latest snapshot job (l ++ [copy]) k
        (raise snapshot job (l.foldl (raise snapshot job) ∅) copy)[k]?
      rw [getElem?_raise]
      split
      · rename_i h
        constructor
        · intro other hother hk hrep
          refine ⟨_, rfl, ?_⟩
          rcases List.mem_append.mp hother with hother | hother
          · obtain ⟨t, ht, hle⟩ := ih.upper other hother hk hrep
            rw [ht]
            exact hle.trans (le_max_left _ _)
          · rw [List.mem_singleton.mp hother]
            cases (l.foldl (raise snapshot job) ∅)[k]? with
            | none => exact le_rfl
            | some t => exact le_max_right _ _
        · rintro t ⟨rfl⟩
          cases hl : (l.foldl (raise snapshot job) ∅)[k]? with
          | none => exact ⟨copy, by simp, h.1, h.2, rfl⟩
          | some t =>
              rcases le_total t (copy.deadline snapshot job) with hle | hle
              · exact ⟨copy, by simp, h.1, h.2, (max_eq_right hle).symm⟩
              · obtain ⟨other, hother, hk, hrep, hat⟩ := ih.reached t hl
                exact ⟨other, List.mem_append_left _ hother, hk, hrep,
                  hat.trans (max_eq_left hle).symm⟩
      · rename_i h
        constructor
        · intro other hother hk hrep
          rcases List.mem_append.mp hother with hother | hother
          · exact ih.upper other hother hk hrep
          · rw [List.mem_singleton.mp hother] at hk hrep
            exact absurd ⟨hk, hrep⟩ h
        · intro t ht
          obtain ⟨other, hother, hrest⟩ := ih.reached t ht
          exact ⟨other, List.mem_append_left _ hother, hrest⟩

/-- What the evidence says about the end of a copy. -/
theorem expires_le (copy : Copy) (time : Time) :
    (new snapshot job current now).expires copy.obs ≤ time
      ↔ copy.ExpiresBy snapshot job current time := by
  have hlatest := @latest_foldl snapshot job (copies snapshot job current) copy.resource
  have hexpires : (new snapshot job current now).expires copy.obs
      = (((copies snapshot job current).foldl (raise snapshot job) ∅)[copy.resource]?).getD
          copy.observedAt := by
    rw [expires, new_expiry]
    rfl
  rw [hexpires]
  cases htable : ((copies snapshot job current).foldl (raise snapshot job) ∅)[copy.resource]? with
  | none =>
      rw [htable] at hlatest
      have hnone : ∀ other ∈ copies snapshot job current, other.resource = copy.resource →
          ¬ other.Representable snapshot job := by
        intro other hother hk hrep
        obtain ⟨t, ht, _⟩ := hlatest.upper other hother hk hrep
        cases ht
      exact ⟨fun h => ⟨fun other ho hk hrep => absurd hrep (hnone other ho hk), fun _ => h⟩,
        fun h => h.otherwise hnone⟩
  | some t =>
      rw [htable] at hlatest
      obtain ⟨last, hlast, hk, hrep, rfl⟩ := hlatest.reached t rfl
      constructor
      · intro h
        refine ⟨fun other ho hko hro => ?_, fun hnone => absurd hrep (hnone last hlast hk)⟩
        obtain ⟨t, ht, hle⟩ := hlatest.upper other ho hko hro
        cases ht
        exact hle.trans h
      · exact fun h => h.copies last hlast hk hrep

end HealthMonitor.Evidence

namespace HealthMonitor.Releases

open Evidence (Copy)

variable {snapshot : Snapshot} {job : Job} {current : CheckResult} {now : Time}

/-! ## What a verdict uses -/

/-- The facts beside the runtime images: registry entries, builds, pipelines and
commits. -/
def references (evidence : Evidence) (job : Job) (desired canonical : String)
    (revision : Option String) (running : List Observation) : List Observation :=
  let digests := runningDigests running
  let registries := registries evidence canonical
  let wanted := single (expectedDigests desired registries)
  let children := childDigests wanted registries
  let builds := builds evidence canonical digests children wanted
  let mapped := mapped evidence job canonical revision
  let built := single <| textSet <| builds.filterMap (fun (_, a) => a.revision)
    ++ mapped.map fun (_, b) => b.revision
  let commits := matchingCommits evidence built (repositories job builds mapped)
  registries.map Prod.fst ++ builds.map Prod.fst ++ mapped.map Prod.fst ++ commits.map Prod.fst

/-- The copies that the verdict on an image uses: the image itself if it is fresh and
says what runs, else the running images of its controller, and the references. -/
def used (snapshot : Snapshot) (job : Job) (current : CheckResult) (now : Time)
    (image : Observation) : List Copy :=
  let evidence := Evidence.new snapshot job current now
  let facts := Evidence.factCopies snapshot job current now
  let images := Evidence.imageCopies snapshot job current
  match image.data with
  | .image desired observedDigest revision =>
      match Images.canonical desired with
      | none => []
      | some canonical =>
          let running := runtime evidence image canonical observedDigest
          let chosen := if observedDigest.isSome && evidence.fresh image then images else facts
          running.filterMap (fun obs => chosen[obs.resource]?)
            ++ (references evidence job desired canonical revision running).filterMap
              fun obs => facts[obs.resource]?
  | _ => []

/-- What is paired with an observation is selected by it. -/
theorem mem_of_mem_pairs {α : Type} {g : Observation → Option (Observation × α)}
    {l : List Observation} {obs : Observation} (hg : ∀ o pair, g o = some pair → pair.1 = o)
    (h : obs ∈ (l.filterMap g).map Prod.fst) : obs ∈ l := by
  obtain ⟨pair, hpair, rfl⟩ := List.mem_map.mp h
  obtain ⟨source, hsource, heq⟩ := List.mem_filterMap.mp hpair
  rw [hg source pair heq]
  exact hsource

theorem mem_of_registries {evidence : Evidence} {canonical : String} {obs : Observation}
    (h : obs ∈ (registries evidence canonical).map Prod.fst) : obs ∈ evidence.facts := by
  refine (List.mem_filter.mp (mem_of_mem_pairs (fun o pair heq => ?_) h)).1
  cases hdata : o.data <;> simp only [hdata, reduceCtorEq] at heq
  split at heq <;> cases heq
  rfl

theorem mem_of_builds {evidence : Evidence} {canonical : String} {digests children : List String}
    {wanted : Option String} {obs : Observation}
    (h : obs ∈ (builds evidence canonical digests children wanted).map Prod.fst) :
    obs ∈ evidence.facts := by
  refine (List.mem_filter.mp (mem_of_mem_pairs (fun o pair heq => ?_) h)).1
  cases hdata : o.data <;> simp only [hdata, reduceCtorEq] at heq
  split at heq <;> cases heq
  rfl

theorem mem_of_mapped {evidence : Evidence} {canonical : String} {revision : Option String}
    {obs : Observation} (h : obs ∈ (mapped evidence job canonical revision).map Prod.fst) :
    obs ∈ evidence.facts := by
  refine mem_of_mem_pairs (fun o pair heq => ?_) h
  cases hdata : o.data <;> simp only [hdata, reduceCtorEq] at heq
  split at heq <;> cases heq
  rfl

theorem mem_of_commits {evidence : Evidence} {built : Option String} {repositories : List String}
    {obs : Observation} (h : obs ∈ (matchingCommits evidence built repositories).map Prod.fst) :
    obs ∈ evidence.facts := by
  have hcommits : obs ∈ (built.map evidence.commits).getD [] := by
    refine mem_of_mem_pairs (fun o pair heq => ?_) h
    cases hdata : o.data <;> simp only [hdata, reduceCtorEq] at heq
    split at heq <;> cases heq
    rfl
  cases built with
  | none => cases hcommits
  | some revision => exact (List.mem_filter.mp hcommits).1

theorem mem_of_references {evidence : Evidence} {desired canonical : String}
    {revision : Option String} {running : List Observation} {obs : Observation}
    (h : obs ∈ references evidence job desired canonical revision running) :
    obs ∈ evidence.facts := by
  rcases List.mem_append.mp h with h | h
  · rcases List.mem_append.mp h with h | h
    · rcases List.mem_append.mp h with h | h
      · exact mem_of_registries h
      · exact mem_of_builds h
    · exact mem_of_mapped h
  · exact mem_of_commits h

/-- Observations that are all in a table of copies are found there. -/
theorem map_obs_filterMap {table : Table Copy} {l : List Observation}
    (h : ∀ obs ∈ l, ∃ copy, table[obs.resource]? = some copy ∧ copy.obs = obs) :
    (l.filterMap fun obs => table[obs.resource]?).map Copy.obs = l := by
  induction l with
  | nil => rfl
  | cons obs l ih =>
      obtain ⟨copy, hcopy, hobs⟩ := h obs List.mem_cons_self
      have hrest := ih fun o ho => h o (List.mem_cons_of_mem _ ho)
      rw [List.filterMap_cons, hcopy]
      dsimp only
      rw [List.map_cons, hobs, hrest]

theorem map_obs_used {image : Observation} {desired canonical : String}
    {observedDigest revision : Option String}
    (himage : image ∈ (Evidence.new snapshot job current now).images job.target)
    (hdata : image.data = .image desired observedDigest revision)
    (hcanonical : Images.canonical desired = some canonical) :
    (used snapshot job current now image).map Copy.obs
      = runtime (Evidence.new snapshot job current now) image canonical observedDigest
        ++ references (Evidence.new snapshot job current now) job desired canonical revision
          (runtime (Evidence.new snapshot job current now) image canonical observedDigest) := by
  have hreferences := map_obs_filterMap (fun obs hobs => @Evidence.exists_factCopy snapshot job
    current now obs (@mem_of_references job _ desired canonical revision
      (runtime (Evidence.new snapshot job current now) image canonical observedDigest) obs hobs))
  have hrunning := @map_obs_filterMap
    (if observedDigest.isSome && (Evidence.new snapshot job current now).fresh image then
      Evidence.imageCopies snapshot job current
    else Evidence.factCopies snapshot job current now)
    (runtime (Evidence.new snapshot job current now) image canonical observedDigest) ?_
  · rw [used, hdata]
    dsimp only
    rw [hcanonical]
    dsimp only
    rw [List.map_append, hreferences, hrunning]
  · intro obs hobs
    have hmem := (List.mem_filter.mp hobs).1
    by_cases hfresh : (observedDigest.isSome
        && (Evidence.new snapshot job current now).fresh image) = true
    · rw [if_pos hfresh] at hmem
      rw [if_pos hfresh, List.mem_singleton.mp hmem]
      exact Evidence.exists_imageCopy himage
    · rw [if_neg hfresh] at hmem
      rw [if_neg hfresh]
      refine Evidence.exists_factCopy ?_
      unfold Evidence.runtimeImages at hmem
      dsimp only at hmem
      split at hmem
      · cases hmem
      · exact (List.mem_filter.mp hmem).1

theorem enrichTracked_validUntil (evidence : Evidence) (image : Observation)
    (desired canonical : String) (observedDigest revision : Option String) {obs : Observation}
    {p : Provenance}
    (h : (enrichTracked evidence job image desired canonical observedDigest revision now).2
      = some obs) (hp : obs.data = .provenance p) :
    p.validUntil
      = (((runtime evidence image canonical observedDigest
          ++ references evidence job desired canonical revision
            (runtime evidence image canonical observedDigest)).map evidence.expires).min?).getD
        (evidence.expires image) := by
  cases h
  cases hp
  unfold references
  dsimp only
  simp only [List.append_assoc]

/-- A verdict is valid until the first of its sources expires. -/
theorem validUntil_eq {image obs : Observation} {op : Operation} {p : Provenance}
    (himage : image ∈ (Evidence.new snapshot job current now).images job.target)
    (h : enrichImage (Evidence.new snapshot job current now) job now image = some (op, some obs))
    (hp : obs.data = .provenance p) :
    p.validUntil
      = ((((used snapshot job current now image).map Copy.obs).map
          (Evidence.new snapshot job current now).expires).min?).getD
        ((Evidence.new snapshot job current now).expires image) := by
  unfold enrichImage at h
  cases hdata : image.data with
  | image desired observedDigest revision =>
      rw [hdata] at h
      dsimp only at h
      cases hcanonical : Images.canonical desired with
      | none =>
          rw [hcanonical] at h
          cases h
      | some canonical =>
          rw [hcanonical] at h
          dsimp only at h
          split at h
          · cases h
          · rw [map_obs_used himage hdata hcanonical]
            have hsecond := congrArg Prod.snd (Option.some.inj h)
            exact enrichTracked_validUntil _ image desired canonical observedDigest revision
              hsecond hp
  | _ =>
      rw [hdata] at h
      cases h

/-- The first of some instants comes no later than all of them, or there is none. -/
theorem min?_le_iff {α : Type} {l : List α} {f : α → Time} {d : Time} {g : α → Time} :
    (∀ a ∈ l, ((l.map f).min?).getD d ≤ g a) ↔ l = [] ∨ ∃ b ∈ l, ∀ a ∈ l, f b ≤ g a := by
  cases hmin : (l.map f).min? with
  | none =>
      rw [List.min?_eq_none_iff, List.map_eq_nil_iff] at hmin
      subst hmin
      exact ⟨fun _ => .inl rfl, fun _ a ha => by cases ha⟩
  | some m =>
      obtain ⟨hmem, hle⟩ := List.min?_eq_some_iff.mp hmin
      obtain ⟨b, hb, rfl⟩ := List.mem_map.mp hmem
      constructor
      · exact fun h => .inr ⟨b, hb, h⟩
      · rintro (rfl | ⟨b', hb', h⟩) a ha
        · cases ha
        · exact (hle _ (List.mem_map_of_mem hb')).trans (h a ha)

/-- A provenance verdict ends with the first of the facts it uses if, and only if,
one of them has no copy that expires later than that. -/
theorem verdict_ends (snapshot : Snapshot) (job : Job) (current : CheckResult) (now : Time)
    {obs : Observation} {p : Provenance}
    (hobs : obs ∈ (enrich snapshot job current now).observations)
    (hp : obs.data = .provenance p) :
    ∃ image ∈ (Evidence.new snapshot job (strip current) now).images job.target,
      obs.resource = image.resource ++ "/provenance"
        ∧ ((∀ copy ∈ used snapshot job (strip current) now image,
              p.validUntil ≤ copy.deadline snapshot job)
          ↔ used snapshot job (strip current) now image = []
            ∨ ∃ copy ∈ used snapshot job (strip current) now image,
              ∀ fact ∈ used snapshot job (strip current) now image,
                copy.ExpiresBy snapshot job (strip current) (fact.deadline snapshot job)) := by
  rw [enrich_observations] at hobs
  rcases List.mem_append.mp hobs with hold | hnew
  · have hkept := (List.mem_filter.mp hold).2
    rw [hp] at hkept
    cases hkept
  · obtain ⟨⟨op, added⟩, hadded, rfl⟩ := List.mem_filterMap.mp hnew
    obtain ⟨image, himage, henrich⟩ := List.mem_filterMap.mp hadded
    have himage := List.mem_of_mem_take himage
    refine ⟨image, himage, enrichImage_resource henrich, ?_⟩
    rw [validUntil_eq himage henrich hp, List.map_map, min?_le_iff]
    simp only [Function.comp_apply, Evidence.expires_le]

end HealthMonitor.Releases

namespace HealthMonitor.Sample

/-- A registry entry at 60 seconds, and a newer copy of an operation that failed. -/
def extended : Snapshot :=
  reported
    [operation "images" (sec 90), operation "artifacts" (sec 60),
      operation "mirror" (sec 90) .denied]
    [image 90 'a', artifact "artifacts" 60 'a', artifact "mirror" 90 'b']

end HealthMonitor.Sample

namespace HealthMonitor.Releases

open HealthMonitor.Sample in
/-- The image and its registry entry, both observed at 60 seconds. -/
theorem verdict_ends_released : ∃ obs ∈ (enrich (released []) (job .releases) release
      (sec 60)).observations, ∃ p, obs.data = .provenance p
    ∧ ∃ image ∈ (Evidence.new (released []) (job .releases) (strip release)
        (sec 60)).images target,
      obs.resource = image.resource ++ "/provenance"
        ∧ ((∀ copy ∈ used (released []) (job .releases) (strip release) (sec 60) image,
              p.validUntil ≤ copy.deadline (released []) (job .releases))
          ↔ used (released []) (job .releases) (strip release) (sec 60) image = []
            ∨ ∃ copy ∈ used (released []) (job .releases) (strip release) (sec 60) image,
              ∀ fact ∈ used (released []) (job .releases) (strip release) (sec 60) image,
                copy.ExpiresBy (released []) (job .releases) (strip release)
                  (fact.deadline (released []) (job .releases))) := by
  have hany : (enrich (released []) (job .releases) release (sec 60)).observations.any
      (fun obs => isProvenance obs.data) = true := by decide +kernel
  obtain ⟨obs, hobs, hisProvenance⟩ := List.any_eq_true.mp hany
  cases hp : obs.data with
  | provenance p => exact ⟨obs, hobs, p, hp, verdict_ends _ _ _ _ hobs hp⟩
  | _ =>
      rw [hp] at hisProvenance
      cases hisProvenance

open HealthMonitor.Sample in
/-- The observation is a verdict that ends after the deadline of a copy it is made from. -/
def outlived (obs : Observation) : Bool :=
  match obs.data with
  | .provenance p =>
      ((Evidence.new extended (job .releases) (strip release) (sec 100)).images target).any
        fun image => obs.resource == image.resource ++ "/provenance"
          && (used extended (job .releases) (strip release) (sec 100) image).any fun copy =>
            decide (copy.deadline extended (job .releases) < p.validUntil)
  | _ => false

open HealthMonitor.Sample in
/-- A newer copy of the registry entry, from an operation that failed, puts off the end
of the verdict beyond the deadline of the entry that is used. -/
theorem verdict_outlives_evidence :
    ∃ obs ∈ (enrich extended (job .releases) release (sec 100)).observations, ∃ p,
      obs.data = .provenance p
        ∧ ∃ image ∈ (Evidence.new extended (job .releases) (strip release)
            (sec 100)).images target,
          obs.resource = image.resource ++ "/provenance"
            ∧ ∃ copy ∈ used extended (job .releases) (strip release) (sec 100) image,
              copy.deadline extended (job .releases) < p.validUntil := by
  have hany : (enrich extended (job .releases) release (sec 100)).observations.any outlived
      = true := by decide +kernel
  obtain ⟨obs, hobs, hverdict⟩ := List.any_eq_true.mp hany
  rw [outlived] at hverdict
  cases hp : obs.data with
  | provenance p =>
      rw [hp] at hverdict
      obtain ⟨image, himage, hboth⟩ := List.any_eq_true.mp hverdict
      rw [Bool.and_eq_true, beq_iff_eq] at hboth
      obtain ⟨copy, hcopy, hdeadline⟩ := List.any_eq_true.mp hboth.2
      exact ⟨obs, hobs, p, hp, image, himage, hboth.1, copy, hcopy, decide_eq_true_eq.mp hdeadline⟩
  | _ =>
      rw [hp] at hverdict
      cases hverdict

end HealthMonitor.Releases
