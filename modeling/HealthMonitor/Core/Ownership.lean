import HealthMonitor.Core.ReleaseEvidence
import HealthMonitor.Core.Runs

/-!
# Ownership

Which running images belong to a controller. The owner facts of the evidence are links
between objects of a target: they may be missing, or form cycles. The walk over them
follows 64 links at most, and finds what is within that distance.
-/

namespace HealthMonitor

namespace Evidence

variable {evidence : Evidence} {target uid resource : String}

/-- An owner fact says that the object has this uid, and who owns it. -/
def Object (evidence : Evidence) (resource uid : String) (owner : Option String) : Prop :=
  ∃ fact ∈ evidence.facts,
    fact.resource = resource ++ "/owner" ∧ fact.data = .owner uid owner

/-- From the object, so many owner links within the target lead to a uid. -/
inductive Reaches (evidence : Evidence) (target : String) : Nat → String → String → Prop where
  | owner {resource uid parent : String} (h : evidence.Object resource uid (some parent)) :
      Reaches evidence target 1 resource parent
  | link {n : Nat} {resource uid parent next last : String} {owner : Option String}
      (h : evidence.Object resource uid (some parent))
      (hnext : evidence.Object next parent owner) (htarget : Text.head next '/' = target)
      (hrest : Reaches evidence target n next last) :
      Reaches evidence target (n + 1) resource last

/-- A uid belongs to one object of a target at most. -/
def UniqueUids (evidence : Evidence) : Prop :=
  ∀ {a b uid : String} {owner owner' : Option String}, evidence.Object a uid owner →
    evidence.Object b uid owner' → Text.head a '/' = Text.head b '/' → a = b

/-! ## The owner table -/

/-- The table has the owner facts, and no others, when no two facts are of one resource. -/
theorem getElem?_ownersOf {facts : List Observation}
    (hdistinct : ∀ a ∈ facts, ∀ b ∈ facts, a.resource = b.resource → a = b)
    {entry : String × Option String} :
    (ownersOf facts)[resource]? = some entry
      ↔ ∃ fact ∈ facts, fact.resource = resource ++ "/owner"
        ∧ fact.data = .owner entry.1 entry.2 := by
  induction facts using List.reverseRecOn with
  | nil => simp [ownersOf]
  | append_singleton facts fact ih =>
      have hold := ih fun a ha b hb => hdistinct a (by simp [ha]) b (by simp [hb])
      have hsnoc : (∃ f ∈ facts ++ [fact], f.resource = resource ++ "/owner"
            ∧ f.data = .owner entry.1 entry.2)
          ↔ (∃ f ∈ facts, f.resource = resource ++ "/owner"
              ∧ f.data = .owner entry.1 entry.2)
            ∨ fact.resource = resource ++ "/owner" ∧ fact.data = .owner entry.1 entry.2 := by
        simp [or_and_right, exists_or]
      rw [hsnoc, ← hold, ownersOf, List.foldl_append, ← ownersOf]
      simp only [List.foldl_cons, List.foldl_nil]
      have hother : fact.resource ≠ resource ++ "/owner" ∨ (∀ u o, fact.data ≠ .owner u o) →
          ¬(fact.resource = resource ++ "/owner" ∧ fact.data = .owner entry.1 entry.2) := by
        intro h hboth
        rcases h with h | h
        · exact h hboth.1
        · exact h _ _ hboth.2
      cases hdata : fact.data with
      | owner fuid fowner =>
          cases hname : Text.stripSuffix fact.resource "/owner" with
          | none =>
              have hne : fact.resource ≠ resource ++ "/owner" := by
                intro heq
                rw [Text.stripSuffix_eq_some.mpr heq] at hname
                cases hname
              simp [hne]
          | some name =>
              have hfact := Text.stripSuffix_eq_some.mp hname
              dsimp only
              by_cases hr : name = resource
              · subst hr
                rw [Std.ExtTreeMap.getElem?_insert_self, Option.some.injEq]
                constructor
                · rintro rfl
                  exact .inr ⟨hfact, rfl⟩
                · rintro (h | ⟨-, h⟩)
                  · obtain ⟨f, hf, hres, howner⟩ := hold.mp h
                    have hsame := hdistinct f (by simp [hf]) fact (by simp) (hres.trans hfact.symm)
                    rw [hsame, hdata] at howner
                    cases howner
                    rfl
                  · cases h
                    rfl
              · have hne : fact.resource ≠ resource ++ "/owner" := by
                  rw [hfact]
                  intro heq
                  exact hr (String.append_left_inj _ |>.mp heq)
                rw [Table.getElem?_insert_ne (Ne.symm hr)]
                simp [hne]
      | _ => simp

/-- The facts of one snapshot are of distinct resources. -/
theorem new_distinct {snapshot : Snapshot} {job : Job} {current : CheckResult} {now : Time}
    {a b : Observation} (ha : a ∈ (new snapshot job current now).facts)
    (hb : b ∈ (new snapshot job current now).facts) (h : a.resource = b.resource) : a = b := by
  obtain ⟨⟨j, x⟩, hj, rfl⟩ := List.mem_map.mp ha
  obtain ⟨⟨k, y⟩, hk, rfl⟩ := List.mem_map.mp hb
  have hx := Table.mem_toList.mp hj
  have hy := Table.mem_toList.mp hk
  have hjk : j = k := by
    rw [← (mem_foldl_latest hx).2, ← (mem_foldl_latest hy).2]
    exact h
  subst hjk
  exact Option.some.inj (hx.symm.trans hy)

theorem getElem?_owners {snapshot : Snapshot} {job : Job} {current : CheckResult} {now : Time}
    {owner : Option String} :
    (new snapshot job current now).owners[resource]? = some (uid, owner)
      ↔ (new snapshot job current now).Object resource uid owner :=
  getElem?_ownersOf fun _ ha _ hb => new_distinct ha hb

/-! ## The walk -/

section

variable {snapshot : Snapshot} {job : Job} {current : CheckResult} {now : Time}

/-- The parent of a uid is the owner of the one object that has it. -/
theorem parent_eq (hunique : (new snapshot job current now).UniqueUids) {owner : Option String}
    (h : (new snapshot job current now).Object resource uid owner) :
    (new snapshot job current now).parent (Text.head resource '/') uid = owner := by
  rw [parent]
  cases hfind : (new snapshot job current now).owners.toList.reverse.find? fun entry =>
      Text.head entry.1 '/' == Text.head resource '/' && entry.2.1 == uid with
  | none =>
      rw [List.find?_eq_none] at hfind
      have hmem := Table.mem_toList.mpr (getElem?_owners.mpr h)
      exact absurd (by simp) (hfind _ (List.mem_reverse.mpr hmem))
  | some entry =>
      obtain ⟨name, fuid, fowner⟩ := entry
      have hsame := List.find?_some hfind
      rw [Bool.and_eq_true, beq_iff_eq, beq_iff_eq] at hsame
      obtain ⟨htarget, rfl⟩ := hsame
      have hmem := getElem?_owners.mp
        (Table.mem_toList.mp (List.mem_reverse.mp (List.mem_of_find?_eq_some hfind)))
      have hname := hunique hmem h htarget
      subst hname
      have := (getElem?_owners.mpr hmem).symm.trans (getElem?_owners.mpr h)
      exact congrArg Prod.snd (Option.some.inj this)

/-- A uid that no object of the target has is no parent of anything. -/
theorem parent_dangling (h : ∀ resource owner,
      (new snapshot job current now).Object resource uid owner →
        Text.head resource '/' ≠ target) :
    (new snapshot job current now).parent target uid = none := by
  rw [parent, Option.bind_eq_none_iff]
  intro entry hentry
  have hsame := List.find?_some hentry
  rw [Bool.and_eq_true, beq_iff_eq, beq_iff_eq] at hsame
  have hmem := Table.mem_toList.mp (List.mem_reverse.mp (List.mem_of_find?_eq_some hentry))
  refine absurd hsame.1 (h entry.1 entry.2.2 (getElem?_owners.mp ?_))
  rw [hmem, ← hsame.2]

/-- An object has one uid and one owner. -/
theorem Object.unique {uid' : String} {owner owner' : Option String}
    (h : (new snapshot job current now).Object resource uid owner)
    (h' : (new snapshot job current now).Object resource uid' owner') :
    uid = uid' ∧ owner = owner' := by
  have := (getElem?_owners.mpr h).symm.trans (getElem?_owners.mpr h')
  exact Prod.mk.inj (Option.some.inj this)

theorem Reaches.object {n : Nat} {last : String} (h : evidence.Reaches target n resource last) :
    ∃ uid owner, evidence.Object resource uid owner := by
  cases h with
  | owner h => exact ⟨_, _, h⟩
  | link h => exact ⟨_, _, h⟩

/-- The walk finds what is within so many links. -/
theorem ownedBy_iff (hunique : (new snapshot job current now).UniqueUids) {last : String}
    (fuel : Nat) {owner : Option String}
    (h : (new snapshot job current now).Object resource uid owner) :
    (new snapshot job current now).ownedBy target last fuel owner = true
      ↔ ∃ n, 1 ≤ n ∧ n ≤ fuel
        ∧ (new snapshot job current now).Reaches target n resource last := by
  induction fuel generalizing resource uid owner with
  | zero =>
      constructor
      · intro h
        cases h
      · intro ⟨n, hpos, hle, _⟩
        omega
  | succ fuel ih =>
      cases owner with
      | none =>
          constructor
          · intro h
            cases h
          · intro ⟨n, _, _, hreaches⟩
            cases hreaches with
            | owner h' => cases (h.unique h').2
            | link h' => cases (h.unique h').2
      | some parent =>
          rw [ownedBy, Bool.or_eq_true, beq_iff_eq]
          constructor
          · rintro (rfl | hrest)
            · exact ⟨1, le_rfl, by omega, .owner h⟩
            · by_cases hnext : ∃ next owner,
                  (new snapshot job current now).Object next parent owner
                    ∧ Text.head next '/' = target
              · obtain ⟨next, owner, hobject, rfl⟩ := hnext
                rw [parent_eq hunique hobject, ih hobject] at hrest
                obtain ⟨n, _, hle, hreaches⟩ := hrest
                exact ⟨n + 1, by omega, by omega, .link h hobject rfl hreaches⟩
              · rw [parent_dangling fun r o hobject ht => hnext ⟨r, o, hobject, ht⟩] at hrest
                cases fuel <;> cases hrest
          · intro ⟨n, _, hle, hreaches⟩
            cases hreaches with
            | owner h' => exact .inl (Option.some.inj (h.unique h').2)
            | link h' hobject htarget hrest =>
                cases (h.unique h').2
                subst htarget
                rw [parent_eq hunique hobject, ih hobject]
                refine .inr ⟨_, ?_, by omega, hrest⟩
                cases hrest <;> omega

end

/-! ## Attribution -/

/-- The image fact says what runs. -/
def HasDigest (obs : Observation) : Prop :=
  ∃ desired digest revision, obs.data = .image desired (some digest) revision

/-- The fact lies in the target of the image. -/
def SameTarget (image obs : Observation) : Prop :=
  ∃ rest, obs.resource = Text.head image.resource '/' ++ "/" ++ rest

/-- What runs for an image is what its object owns, over 64 links at most. -/
theorem mem_runtimeImages {snapshot : Snapshot} {job : Job} {current : CheckResult}
    {now : Time} {image : Observation} {uid : String} {owner : Option String}
    (hunique : (new snapshot job current now).UniqueUids)
    (himage : (new snapshot job current now).Object (imageBase image.resource).1 uid owner)
    (candidate : Observation) :
    candidate ∈ (new snapshot job current now).runtimeImages image
      ↔ candidate ∈ (new snapshot job current now).facts ∧ HasDigest candidate
        ∧ SameTarget image candidate
        ∧ (imageBase candidate.resource).2 = (imageBase image.resource).2
        ∧ ∃ n, 1 ≤ n ∧ n ≤ 64
          ∧ (new snapshot job current now).Reaches (Text.head image.resource '/') n
              (imageBase candidate.resource).1 uid := by
  have hwalk : (∃ n, 1 ≤ n ∧ n ≤ 64
        ∧ (new snapshot job current now).Reaches (Text.head image.resource '/') n
            (imageBase candidate.resource).1 uid)
      ↔ ∃ entry, (new snapshot job current now).owners[(imageBase candidate.resource).1]?
            = some entry
          ∧ (new snapshot job current now).ownedBy (Text.head image.resource '/') uid 64 entry.2
            = true := by
    constructor
    · intro ⟨n, hpos, hle, hreaches⟩
      obtain ⟨u, o, hobject⟩ := hreaches.object
      exact ⟨(u, o), getElem?_owners.mpr hobject,
        (ownedBy_iff hunique 64 hobject).mpr ⟨n, hpos, hle, hreaches⟩⟩
    · intro ⟨entry, hentry, howned⟩
      exact (ownedBy_iff hunique 64 (getElem?_owners.mp hentry)).mp howned
  rw [hwalk, runtimeImages]
  dsimp only
  rw [getElem?_owners.mpr himage]
  dsimp only
  rw [List.mem_filter, Bool.and_eq_true, Bool.and_eq_true, Bool.and_eq_true, Text.startsWith_iff,
    beq_iff_eq]
  refine and_congr_right fun _ => ?_
  cases howner : (new snapshot job current now).owners[(imageBase candidate.resource).1]? with
  | none => simp
  | some entry =>
      cases hdata : candidate.data with
      | image desired digest revision =>
          cases digest with
          | none => simp [HasDigest, hdata]
          | some digest => simp [HasDigest, hdata, SameTarget, and_assoc]
      | _ => simp [HasDigest, hdata]

end Evidence

/-! ## A deployment and its pod -/

namespace Sample

def owned (resource uid : String) (owner : Option String) : Observation where
  resource := resource ++ "/owner"
  operation := "owners"
  observedAt := sec 60
  data := .owner uid owner

def running (resource : String) : Observation where
  resource := resource ++ "/image/main"
  operation := "owners"
  observedAt := sec 60
  data := .image "app:1" (some "sha256:a") none

def deployment : CheckResult :=
  result .releases (sec 60) [operation "owners" (sec 60)]
    [owned "app/deployment" "1" none, owned "app/pod" "2" (some "1"), running "app/deployment",
      running "app/pod"]

def links : Evidence := .new start (job .releases) deployment (sec 60)

theorem facts_links : links.facts = [running "app/deployment", owned "app/deployment" "1" none,
    running "app/pod", owned "app/pod" "2" (some "1")] := by decide +kernel

theorem object_links {resource uid : String} {owner : Option String}
    (h : links.Object resource uid owner) :
    resource = "app/deployment" ∧ uid = "1" ∧ owner = none
      ∨ resource = "app/pod" ∧ uid = "2" ∧ owner = some "1" := by
  obtain ⟨fact, hfact, hresource, hdata⟩ := h
  have hname : ∀ name, name ++ "/owner" = resource ++ "/owner" → resource = name :=
    fun name h => (String.append_left_inj _ |>.mp h).symm
  rw [facts_links] at hfact
  simp only [List.mem_cons, List.not_mem_nil, or_false] at hfact
  rcases hfact with rfl | rfl | rfl | rfl
  · cases hdata
  · cases hdata
    exact .inl ⟨hname _ hresource, rfl, rfl⟩
  · cases hdata
  · cases hdata
    exact .inr ⟨hname _ hresource, rfl, rfl⟩

end Sample

namespace Evidence

open Sample

/-- The pod runs for the image of the deployment that owns it. -/
theorem mem_runtimeImages_pod :
    links.UniqueUids ∧ running "app/pod" ∈ links.runtimeImages (running "app/deployment") := by
  have hunique : links.UniqueUids := by
    intro a b uid owner owner' ha hb _
    rcases object_links ha with ⟨rfl, rfl, -⟩ | ⟨rfl, rfl, -⟩ <;>
      rcases object_links hb with ⟨rfl, h, -⟩ | ⟨rfl, h, -⟩
    · rfl
    · exact absurd h (by decide)
    · exact absurd h (by decide)
    · rfl
  have hdeployment : links.Object (imageBase (running "app/deployment").resource).1 "1" none := by
    refine ⟨owned "app/deployment" "1" none, ?_, by decide +kernel, rfl⟩
    rw [facts_links]
    exact List.mem_cons_of_mem _ List.mem_cons_self
  have hpod : links.Object (imageBase (running "app/pod").resource).1 "2" (some "1") := by
    refine ⟨owned "app/pod" "2" (some "1"), ?_, by decide +kernel, rfl⟩
    rw [facts_links]
    simp
  refine ⟨hunique, (mem_runtimeImages hunique hdeployment _).mpr
    ⟨?_, ⟨_, _, _, rfl⟩, ⟨"pod/image/main", by decide +kernel⟩, by decide +kernel, 1, le_rfl,
      by decide, .owner hpod⟩⟩
  show _ ∈ links.facts
  rw [facts_links]
  simp

end Evidence

end HealthMonitor
