import HealthMonitor.Core.Releases
import HealthMonitor.Core.Runs
import HealthMonitor.Library.Groups
import HealthMonitor.Library.Newest
import Mathlib.Data.List.Forall2

/-!
# Trust

Enrichment looks at fresh, complete facts of the latest run only, and at the newest
of each resource. Two snapshots that differ in nothing else than other observations,
images apart, lead to the same verdicts.
-/

namespace HealthMonitor.Evidence

variable {snapshot s t : Snapshot} {job : Job} {current : CheckResult} {now : Time}

/-! ## Facts -/

/-- The current, complete observations of the stored results, before the newest of
each resource is chosen. -/
def gathered (snapshot : Snapshot) (job : Job) (current : CheckResult) (now : Time) :
    List Observation :=
  (inputs snapshot job current).flatMap fun (key, result) =>
    result.observations.filter
      (isFact snapshot (inputs snapshot job current) now (limitOf snapshot job key) result)

theorem latest_eq : latest = Newest.keep Observation.resource Observation.observedAt := by
  funext table obs
  rw [latest, Newest.keep]
  cases table[obs.resource]? with
  | none => rfl
  | some old => rfl

theorem new_facts : (new snapshot job current now).facts
    = (Newest.table Observation.resource Observation.observedAt
        (gathered snapshot job current now)).toList.map Prod.snd := by
  rw [Newest.table, ← latest_eq]
  rfl

theorem new_candidates : (new snapshot job current now).candidates
    = Newest.table Observation.resource Observation.observedAt
        ((inputs snapshot job current).flatMap fun (_, result) =>
          result.observations.filter fun obs => isImage obs.data) := by
  rw [Newest.table, ← latest_eq]
  rfl

/-- A strictly newer copy of the resource is a fact as well. -/
def superseded (snapshot : Snapshot) (job : Job) (current : CheckResult) (now : Time)
    (obs : Observation) : Bool :=
  (gathered snapshot job current now).any fun fact =>
    fact.resource == obs.resource && obs.observedAt < fact.observedAt

/-- What enrichment may go by: images, and the facts that no newer fact supersedes. -/
def trusted (snapshot : Snapshot) (job : Job) (current : CheckResult) (now : Time)
    (key : String) (result : CheckResult) (obs : Observation) : Bool :=
  isImage obs.data
    || (isFact snapshot (inputs snapshot job current) now (limitOf snapshot job key) result obs
      && !superseded snapshot job current now obs)

/-- Results of another job that differ in untrusted observations only. -/
structure SameTrusted (job : Job) (current : CheckResult) (now : Time) (s t : Snapshot)
    (key : String) (r r' : CheckResult) : Prop where
  target : r.target = r'.target
  operations : r.operations = r'.operations
  observations : r.observations.filter (trusted s job current now key r)
    = r'.observations.filter (trusted t job current now key r')

/-- Snapshots whose results of other jobs differ in untrusted observations only. -/
structure Agree (job : Job) (current : CheckResult) (now : Time) (s t : Snapshot) : Prop where
  freshness : s.freshness = t.freshness
  results : ∀ key, key ≠ job.key →
    Option.Rel (SameTrusted job current now s t key) s.results[key]? t.results[key]?

theorem superseded_eq_true {obs : Observation} : superseded snapshot job current now obs = true
    ↔ ∃ fact ∈ gathered snapshot job current now,
      fact.resource = obs.resource ∧ obs.observedAt < fact.observedAt := by
  simp [superseded]

/-- A superseded observation is superseded by a fact that is not. -/
theorem exists_newest_fact {obs : Observation}
    (h : superseded snapshot job current now obs = true) :
    ∃ fact ∈ gathered snapshot job current now, fact.resource = obs.resource
      ∧ obs.observedAt < fact.observedAt ∧ superseded snapshot job current now fact = false := by
  obtain ⟨fact, hfact, hresource, hlt⟩ := superseded_eq_true.mp h
  obtain ⟨top, htop, hle⟩ := @Newest.exists_getElem? _ Observation.resource
    Observation.observedAt _ fact hfact
  obtain ⟨hmem, hkey⟩ := Newest.mem_of_getElem? htop
  refine ⟨top, hmem, hkey.trans hresource, lt_of_lt_of_le hlt hle, ?_⟩
  rw [← Bool.not_eq_true, superseded_eq_true]
  rintro ⟨newer, hnewer, hsame, hnewest⟩
  obtain ⟨other, hother, hge⟩ := @Newest.exists_getElem? _ Observation.resource
    Observation.observedAt _ newer hnewer
  rw [hsame, hkey, htop] at hother
  cases hother
  exact absurd hnewest (not_lt.mpr hge)

/-! ## Two snapshots -/

theorem SameTrusted.symm {key : String} {r r' : CheckResult}
    (h : SameTrusted job current now s t key r r') : SameTrusted job current now t s key r' r :=
  ⟨h.target.symm, h.operations.symm, h.observations.symm⟩

theorem Agree.symm (h : Agree job current now s t) : Agree job current now t s where
  freshness := h.freshness.symm
  results key hkey := by
    have hrel := h.results key hkey
    cases hs : s.results[key]? with
    | none =>
        cases ht : t.results[key]? with
        | none => exact .none
        | some r' =>
            rw [hs, ht] at hrel
            cases hrel
    | some r =>
        cases ht : t.results[key]? with
        | none =>
            rw [hs, ht] at hrel
            cases hrel
        | some r' =>
            rw [hs, ht] at hrel
            cases hrel with
            | some hsame => exact .some hsame.symm

/-- The inputs of the enrichment, side by side. -/
def SameInput (job : Job) (current : CheckResult) (now : Time) (s t : Snapshot)
    (a b : String × CheckResult) : Prop :=
  a.1 = b.1 ∧ a.2.target = b.2.target ∧ a.2.operations = b.2.operations
    ∧ (a.2 = b.2 ∨ SameTrusted job current now s t a.1 a.2 b.2)

theorem Agree.inputs (h : Agree job current now s t) :
    List.Forall₂ (SameInput job current now s t) (inputs s job current)
      (inputs t job current) := by
  have hothers := @Table.forall₂_toList _ _ (SameTrusted job current now s t) s.results t.results
    (· != job.key) fun key hkey => h.results key (bne_iff_ne.mp hkey)
  refine List.rel_append (hothers.imp fun a b hab => ?_) (.cons ⟨rfl, rfl, rfl, .inl rfl⟩ .nil)
  exact ⟨hab.1, hab.2.target, hab.2.operations, .inr hab.2⟩

theorem flatMap_eq_of_forall₂ {α β γ : Type} {R : α → β → Prop} {l : List α} {l' : List β}
    {f : α → List γ} {g : β → List γ} (h : List.Forall₂ R l l')
    (hfg : ∀ a b, R a b → f a = g b) : l.flatMap f = l'.flatMap g := by
  induction h with
  | nil => rfl
  | cons hab _ ih => rw [List.flatMap_cons, List.flatMap_cons, hfg _ _ hab, ih]

/-- The latest runs are the same. -/
theorem Agree.latestOperation (h : Agree job current now s t) (target id : String) :
    latestOperation (Evidence.inputs s job current) target id
      = latestOperation (Evidence.inputs t job current) target id := by
  unfold Evidence.latestOperation
  rw [flatMap_eq_of_forall₂ h.inputs fun a b hab => by rw [hab.2.1, hab.2.2.1]]

/-- An observation is a fact in both or in none. -/
theorem Agree.isFact (h : Agree job current now s t) {a b : String × CheckResult}
    (hab : SameInput job current now s t a b) (obs : Observation) :
    isFact s (Evidence.inputs s job current) now (limitOf s job a.1) a.2 obs
      = isFact t (Evidence.inputs t job current) now (limitOf t job b.1) b.2 obs := by
  unfold Evidence.isFact sourceLimit limitOf
  rw [h.freshness, hab.1, hab.2.1, hab.2.2.1]
  simp only [h.latestOperation]

/-- The images are all trusted. -/
theorem SameTrusted.images {key : String} {r r' : CheckResult}
    (h : SameTrusted job current now s t key r r') :
    (r.observations.filter fun obs => isImage obs.data)
      = r'.observations.filter fun obs => isImage obs.data := by
  have hkeep : ∀ (u : Snapshot) (result : CheckResult) (obs : Observation),
      (isImage obs.data && trusted u job current now key result obs) = isImage obs.data := by
    intro u result obs
    cases himage : isImage obs.data <;> simp [trusted, himage]
  have hboth := congrArg (List.filter fun obs => isImage obs.data) h.observations
  rw [List.filter_filter, List.filter_filter] at hboth
  simpa only [hkeep] using hboth

theorem Agree.candidates (h : Agree job current now s t) :
    (new s job current now).candidates = (new t job current now).candidates := by
  rw [new_candidates, new_candidates]
  refine congrArg _ (flatMap_eq_of_forall₂ h.inputs ?_)
  rintro ⟨key, r⟩ ⟨key', r'⟩ ⟨_, _, _, hsame | htrusted⟩
  · rw [show r = r' from hsame]
  · exact htrusted.images

/-- A fact of one snapshot that no newer one supersedes is a fact of the other. -/
theorem Agree.mem_gathered (h : Agree job current now s t) {fact : Observation}
    (hfact : fact ∈ gathered s job current now)
    (htop : superseded s job current now fact = false) :
    fact ∈ gathered t job current now := by
  obtain ⟨a, ha, hmem⟩ := List.mem_flatMap.mp hfact
  obtain ⟨hobs, hisFact⟩ := List.mem_filter.mp hmem
  obtain ⟨b, hb, hab⟩ := Groups.exists_of_forall₂ h.inputs.flip a ha
  refine List.mem_flatMap.mpr ⟨b, hb, List.mem_filter.mpr ⟨?_, (h.isFact hab fact) ▸ hisFact⟩⟩
  rcases hab.2.2.2 with hsame | htrusted
  · exact hsame ▸ hobs
  · have hkept : fact ∈ a.2.observations.filter (trusted s job current now a.1 a.2) := by
      refine List.mem_filter.mpr ⟨hobs, ?_⟩
      simp [trusted, hisFact, htop]
    rw [htrusted.observations] at hkept
    exact (List.mem_filter.mp hkept).1

theorem Agree.superseded (h : Agree job current now s t) (obs : Observation) :
    superseded s job current now obs = superseded t job current now obs := by
  have hforth : ∀ {u v : Snapshot}, Agree job current now u v →
      Evidence.superseded u job current now obs = true →
      Evidence.superseded v job current now obs = true := by
    intro u v huv hu
    obtain ⟨fact, hfact, hresource, hlt, htop⟩ := exists_newest_fact hu
    exact superseded_eq_true.mpr ⟨fact, huv.mem_gathered hfact htop, hresource, hlt⟩
  rw [Bool.eq_iff_iff]
  exact ⟨hforth h, hforth h.symm⟩

/-- Apart from what is superseded, the same facts are gathered. -/
theorem Agree.gathered (h : Agree job current now s t) :
    (gathered s job current now).filter (fun obs =>
        isImage obs.data || !Evidence.superseded s job current now obs)
      = (gathered t job current now).filter (fun obs =>
        isImage obs.data || !Evidence.superseded t job current now obs) := by
  unfold Evidence.gathered
  rw [List.filter_flatMap, List.filter_flatMap]
  refine flatMap_eq_of_forall₂ h.inputs ?_
  rintro ⟨key, r⟩ ⟨key', r'⟩ hab
  have hisFact := h.isFact hab
  obtain ⟨rfl, _, _, hsame | htrusted⟩ := hab
  · obtain rfl : r = r' := hsame
    rw [List.filter_filter, List.filter_filter]
    refine List.filter_congr fun obs _ => ?_
    rw [h.superseded obs, show _ = _ from hisFact obs]
  · -- what is a fact and not superseded is what is a fact and trusted
    have hboth : ∀ (u : Snapshot) (result : CheckResult),
        (result.observations.filter (Evidence.isFact u (Evidence.inputs u job current) now
            (limitOf u job key) result)).filter
          (fun obs => isImage obs.data || !Evidence.superseded u job current now obs)
        = (result.observations.filter (trusted u job current now key result)).filter
          (Evidence.isFact u (Evidence.inputs u job current) now (limitOf u job key) result) := by
      intro u result
      rw [List.filter_filter, List.filter_filter]
      refine List.filter_congr fun obs _ => ?_
      unfold trusted
      cases isImage obs.data <;> cases Evidence.isFact u (Evidence.inputs u job current) now
        (limitOf u job key) result obs <;> simp
    have hfilter : List.filter (Evidence.isFact s (Evidence.inputs s job current) now
        (limitOf s job key) r) = List.filter (Evidence.isFact t (Evidence.inputs t job current) now
        (limitOf t job key) r') := congrArg List.filter (funext hisFact)
    show List.filter _ (List.filter _ _) = List.filter _ (List.filter _ _)
    rw [hboth, hboth, htrusted.observations, hfilter]

/-- The newest facts are the same. -/
theorem Agree.facts (h : Agree job current now s t) :
    (new s job current now).facts = (new t job current now).facts := by
  have hdrop : ∀ u : Snapshot,
      Newest.table Observation.resource Observation.observedAt
        ((Evidence.gathered u job current now).filter fun obs =>
          isImage obs.data || !Evidence.superseded u job current now obs)
      = Newest.table Observation.resource Observation.observedAt
        (Evidence.gathered u job current now) := by
    intro u
    refine Newest.table_filter fun obs hobs hp => ?_
    rw [Bool.or_eq_false_iff, Bool.not_eq_false'] at hp
    exact superseded_eq_true.mp hp.2
  rw [new_facts, new_facts, ← hdrop s, ← hdrop t, h.gathered]

end HealthMonitor.Evidence

namespace HealthMonitor.Releases

open Evidence (Agree)

variable {s t : Snapshot} {job : Job} {current : CheckResult} {now : Time}

/-- A provenance observation without the instant at which it ends. -/
def undated (obs : Observation) : Observation :=
  match obs.data with
  | .provenance p => { obs with data := .provenance { p with validUntil := 0 } }
  | _ => obs

/-- What one image adds, without the instant at which it ends. -/
def undatedAddition (added : Operation × Option Observation) : Operation × Option Observation :=
  (added.1, added.2.map undated)

theorem ownedBy_expiry (e : Evidence) (expiry : Table Time) (target uid : String) (fuel : Nat) :
    ∀ owner, Evidence.ownedBy { e with expiry } target uid fuel owner
      = e.ownedBy target uid fuel owner := by
  induction fuel with
  | zero => exact fun _ => rfl
  | succ fuel ih =>
      intro owner
      cases owner with
      | none => rfl
      | some parent =>
          rw [Evidence.ownedBy, Evidence.ownedBy, ih]
          rfl

theorem runtimeImages_expiry (e : Evidence) (expiry : Table Time) (image : Observation) :
    Evidence.runtimeImages { e with expiry } image = e.runtimeImages image := by
  unfold Evidence.runtimeImages
  simp only [ownedBy_expiry]

/-- The deadlines show in no verdict. -/
theorem enrichTracked_expiry (e : Evidence) (expiry : Table Time) (image : Observation)
    (desired canonical : String) (observedDigest revision : Option String) :
    undatedAddition (enrichTracked { e with expiry } job image desired canonical observedDigest
        revision now)
      = undatedAddition (enrichTracked e job image desired canonical observedDigest
        revision now) := by
  have hinactive : Evidence.inactive { e with expiry } image = e.inactive image := rfl
  have hruntime : runtime { e with expiry } image canonical observedDigest
      = runtime e image canonical observedDigest := by
    unfold runtime
    rw [runtimeImages_expiry]
    rfl
  have hregistries : registries { e with expiry } canonical = registries e canonical := rfl
  have hpending : pending { e with expiry } image job = pending e image job := rfl
  have hbuilds : builds { e with expiry } canonical = builds e canonical := rfl
  have hmapped : mapped { e with expiry } job canonical revision
      = mapped e job canonical revision := rfl
  have hcommits : matchingCommits { e with expiry } = matchingCommits e := rfl
  unfold enrichTracked
  simp only [hinactive, hruntime, hregistries, hpending, hbuilds, hmapped, hcommits]
  rfl

theorem enrichImage_expiry (e : Evidence) (expiry : Table Time) (image : Observation) :
    (enrichImage { e with expiry } job now image).map undatedAddition
      = (enrichImage e job now image).map undatedAddition := by
  unfold enrichImage
  cases image.data with
  | image desired observedDigest revision =>
      dsimp only
      cases Images.canonical desired with
      | none => rfl
      | some canonical =>
          dsimp only
          have htracked : tracked { e with expiry } job canonical revision
              = tracked e job canonical revision := rfl
          have hinactive : Evidence.inactive { e with expiry } image = e.inactive image := rfl
          rw [htracked, hinactive]
          split
          · rfl
          · exact congrArg some (enrichTracked_expiry e expiry image desired canonical
              observedDigest revision)
  | _ => rfl

theorem enrichImage_congr {e e' : Evidence} (hcandidates : e.candidates = e'.candidates)
    (hfacts : e.facts = e'.facts) (howners : e.owners = e'.owners) (image : Observation) :
    (enrichImage e job now image).map undatedAddition
      = (enrichImage e' job now image).map undatedAddition := by
  obtain ⟨candidates, expiry, facts, owners⟩ := e
  obtain ⟨candidates', expiry', facts', owners'⟩ := e'
  cases hcandidates
  cases hfacts
  cases howners
  exact enrichImage_expiry ⟨candidates, expiry', facts, owners⟩ expiry image

/-- The images and what each of them adds. -/
def additions (snapshot : Snapshot) (job : Job) (current : CheckResult) (now : Time) :
    List (Operation × Option Observation) :=
  (((Evidence.new snapshot job (strip current) now).images job.target).take
    (job.settings.maxAssets - (strip current).observations.length)).filterMap
    (enrichImage (Evidence.new snapshot job (strip current) now) job now)

theorem enrich_operations (snapshot : Snapshot) : (enrich snapshot job current now).operations
    = (strip current).operations ++ (additions snapshot job current now).map Prod.fst := rfl

theorem enrich_observations (snapshot : Snapshot) :
    (enrich snapshot job current now).observations
      = (strip current).observations
        ++ (additions snapshot job current now).filterMap Prod.snd := rfl

theorem additions_agree (h : Agree job (strip current) now s t) :
    (additions s job current now).map undatedAddition
      = (additions t job current now).map undatedAddition := by
  have howners : (Evidence.new s job (strip current) now).owners
      = (Evidence.new t job (strip current) now).owners := congrArg Evidence.ownersOf h.facts
  have himages : (Evidence.new t job (strip current) now).images job.target
      = (Evidence.new s job (strip current) now).images job.target := by
    unfold Evidence.images
    rw [h.candidates]
  unfold additions
  rw [List.map_filterMap, List.map_filterMap, himages]
  refine List.filterMap_congr fun image _ => ?_
  exact enrichImage_congr h.candidates h.facts howners image

/-- Enrichment says the same of every image, up to the instant at which it ends,
whatever untrusted observations the other results hold. -/
theorem enrich_agree (h : Agree job (strip current) now s t) :
    (enrich s job current now).operations = (enrich t job current now).operations
      ∧ (enrich s job current now).observations.map undated
        = (enrich t job current now).observations.map undated := by
  have hadditions := additions_agree h
  constructor
  · have hfst : ∀ l : List (Operation × Option Observation),
        l.map Prod.fst = (l.map undatedAddition).map Prod.fst := by
      intro l
      rw [List.map_map]
      rfl
    rw [enrich_operations, enrich_operations, hfst, hadditions, ← hfst]
  · have hsnd : ∀ l : List (Operation × Option Observation),
        (l.filterMap Prod.snd).map undated = (l.map undatedAddition).filterMap Prod.snd := by
      intro l
      rw [List.map_filterMap, List.filterMap_map]
      rfl
    rw [enrich_observations, enrich_observations, List.map_append, List.map_append, hsnd,
      hadditions, ← hsnd]

end HealthMonitor.Releases

/-! ## An image and its registry entry -/

namespace HealthMonitor.Sample

def digest (letter : Char) : String := "sha256:" ++ String.ofList (List.replicate 64 letter)

def image (second : Nat) (letter : Char) : Observation where
  resource := "app/web/image/main"
  operation := "images"
  observedAt := sec second
  data := .image "prod/web:1" (some (digest letter)) none

def artifact (op : String) (second : Nat) (letter : Char) : Observation where
  resource := "app/registry/web"
  operation := op
  observedAt := sec second
  data := .artifact
    { manifest := .image, children := [], image := "docker.io/prod/web", digest := digest letter
      tags := ["1"], revision := none, repository := none, built := false, createdAt := none }

/-- A state in which the inventory reported at 60 seconds. -/
def reported (operations : List Operation) (observations : List Observation) : Snapshot :=
  { start with
    results := (∅ : Table CheckResult).insert "app/Kubernetes"
      (result .kubernetes (sec 60) operations observations) }

/-- The image and its registry entry, with more observations beside them. -/
def released (more : List Observation) : Snapshot :=
  reported
    [operation "images" (sec 60), operation "artifacts" (sec 60),
      operation "mirror" (sec 60) .denied]
    ([image 60 'a', artifact "artifacts" 60 'a'] ++ more)

/-- An older copy, one that is ahead of the clock, and one of an operation that failed. -/
def untrusted : List Observation :=
  [artifact "artifacts" 30 'b', artifact "artifacts" 90 'c', artifact "mirror" 60 'd']

def release : CheckResult := result .releases (sec 60) [] []

theorem agree_released : Evidence.Agree (job .releases) (Releases.strip release) (sec 60)
    (released []) (released untrusted) where
  freshness := rfl
  results key _ := by
    by_cases hkey : "app/Kubernetes" = key
    · subst hkey
      simp only [released, reported, Std.ExtTreeMap.getElem?_insert_self]
      exact .some ⟨rfl, rfl, by decide +kernel⟩
    · simp only [released, reported, Table.getElem?_insert_ne (Ne.symm hkey)]
      exact .none

end HealthMonitor.Sample

namespace HealthMonitor.Releases

open HealthMonitor.Sample in
/-- The registry entry verifies the image, with untrusted copies of it or without. -/
theorem enrich_agree_copies :
    (enrich (released []) (job .releases) release (sec 60)).observations.map undated
      = (enrich (released untrusted) (job .releases) release (sec 60)).observations.map
        undated :=
  (enrich_agree agree_released).2

end HealthMonitor.Releases
