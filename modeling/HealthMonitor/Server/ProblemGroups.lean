import HealthMonitor.Server.View
import Mathlib.Data.List.Dedup
import Mathlib.Data.List.Induction
import Mathlib.Data.Prod.Lex
import Mathlib.Data.String.Basic
import Mathlib.Order.OrderDual

/-!
# ProblemGroups

The problem previews of the overview: the findings of a view in groups of one target and one
rule, of which the five worst are shown. The time is read once.
-/

namespace HealthMonitor.Server.ProblemGroups

open View

structure Group where
  target : String
  rule : String
  check : Option Check
  severity : Severity
  resources : Nat
  findings : Nat
  firstDetectedAt : Option Time
  lastDetectedAt : Time
  stale : Bool
  exampleResource : String
  deriving DecidableEq, Repr

def priority : Severity → Nat
  | .error => 0
  | .warning => 1
  | .info => 2

def firstOf (f : FindingView) : Option Time := f.diagnostic.bind fun d => d.firstDetectedAt

def lastOf (f : FindingView) : Time :=
  (f.diagnostic.map fun d => d.lastDetectedAt).getD f.observedAt

/-- The finding is stale by now. -/
def staleAt (now : Time) (f : FindingView) : Bool := f.stale || f.validUntil.any (· < now)

/-- A group under way, with the resources it has seen. -/
structure Entry where
  group : Group
  seen : List String

namespace Entry

def key (e : Entry) : String × String := (e.group.target, e.group.rule)

/-- The entry that is made for the first finding, which is then added to it. -/
def new (f : FindingView) : Entry where
  group :=
    { target := f.target
      rule := f.rule
      check := f.check
      severity := f.severity
      resources := 0
      findings := 0
      firstDetectedAt := firstOf f
      lastDetectedAt := lastOf f
      stale := false
      exampleResource := f.resource }
  seen := []

def add (now : Time) (e : Entry) (f : FindingView) : Entry :=
  let seen := if e.seen.contains f.resource then e.seen else f.resource :: e.seen
  { group :=
      { e.group with
        findings := e.group.findings + 1
        resources := seen.length
        severity :=
          if priority f.severity < priority e.group.severity then f.severity else e.group.severity
        firstDetectedAt :=
          match e.group.firstDetectedAt, firstOf f with
          | some a, some b => some (min a b)
          | _, _ => none
        lastDetectedAt := max e.group.lastDetectedAt (lastOf f)
        stale := e.group.stale || staleAt now f }
    seen }

end Entry

def keyOf (f : FindingView) : String × String := (f.target, f.rule)

/-- The entry of the finding's target and rule, or a new one. -/
def insert (now : Time) (f : FindingView) : List Entry → List Entry
  | [] => [(Entry.new f).add now f]
  | e :: rest => if e.key = keyOf f then e.add now f :: rest else e :: insert now f rest

def entries (now : Time) (findings : List FindingView) : List Entry :=
  findings.foldl (fun entries f => insert now f entries) []

/-- What the groups are sorted by. -/
def Group.rank (g : Group) : ℕ ×ₗ ℕᵒᵈ ×ₗ String ×ₗ String :=
  toLex (priority g.severity, toLex (OrderDual.toDual g.resources, toLex (g.target, g.rule)))

def selected (findings : List FindingView) (target : Option String) : List FindingView :=
  findings.filter fun f => target.all (· == f.target)

def groups (now : Time) (findings : List FindingView) (target : Option String) :
    Nat × List Group :=
  let values := (entries now (selected findings target)).map fun e => e.group
  (values.length, (values.mergeSort fun a b => decide (a.rank ≤ b.rank)).take 5)

/-! ## What a group says -/

/-- The group says what these findings have in common. -/
structure Group.Sums (now : Time) (g : Group) (members : List FindingView) : Prop where
  findings : g.findings = members.length
  resources : g.resources = (members.map fun f => f.resource).dedup.length
  severity : ∃ f ∈ members, f.severity = g.severity
  worst : ∀ f ∈ members, priority g.severity ≤ priority f.severity
  first : ∀ time, g.firstDetectedAt = some time →
    (∃ f ∈ members, firstOf f = some time) ∧ ∀ f ∈ members, ∃ t ∈ firstOf f, time ≤ t
  unknown : g.firstDetectedAt = none → ∃ f ∈ members, firstOf f = none
  last : ∃ f ∈ members, lastOf f = g.lastDetectedAt
  latest : ∀ f ∈ members, lastOf f ≤ g.lastDetectedAt
  stale : g.stale = members.any (staleAt now)
  exampleResource : ∃ f ∈ members, f.resource = g.exampleResource

/-- The same of an entry, whose resources are those of the findings. -/
structure Entry.Sums (now : Time) (e : Entry) (members : List FindingView) : Prop where
  group : e.group.Sums now members
  nodup : e.seen.Nodup
  seen : ∀ resource, resource ∈ e.seen ↔ ∃ f ∈ members, f.resource = resource

section

variable {now : Time} {e : Entry} {f : FindingView} {members : List FindingView}

theorem length_dedup {seen : List String} (hnodup : seen.Nodup)
    (hseen : ∀ resource, resource ∈ seen ↔ ∃ f ∈ members, f.resource = resource) :
    seen.length = (members.map fun f => f.resource).dedup.length := by
  apply List.Perm.length_eq
  rw [List.perm_ext_iff_of_nodup hnodup (List.nodup_dedup _)]
  intro resource
  rw [hseen, List.mem_dedup, List.mem_map]

theorem Entry.sums_new : ((Entry.new f).add now f).Sums now [f] := by
  have hseen : ((Entry.new f).add now f).seen = [f.resource] := rfl
  have hfirst : ((Entry.new f).add now f).group.firstDetectedAt = firstOf f := by
    show (match firstOf f, firstOf f with
      | some a, some b => some (min a b)
      | _, _ => none) = firstOf f
    cases firstOf f with
    | none => rfl
    | some time => exact congrArg some (Int.min_self time)
  have hlast : ((Entry.new f).add now f).group.lastDetectedAt = lastOf f := Int.max_self _
  have hseverity : ((Entry.new f).add now f).group.severity = f.severity := if_neg (Nat.lt_irrefl _)
  constructor
  · constructor
    · rfl
    · rfl
    · exact ⟨f, List.mem_singleton_self f, hseverity.symm⟩
    · intro g hg
      rw [List.mem_singleton.mp hg, hseverity]
    · intro time htime
      rw [hfirst] at htime
      refine ⟨⟨f, List.mem_singleton_self f, htime⟩, fun g hg => ?_⟩
      rw [List.mem_singleton.mp hg]
      exact ⟨time, htime, Int.le_refl time⟩
    · intro hnone
      rw [hfirst] at hnone
      exact ⟨f, List.mem_singleton_self f, hnone⟩
    · exact ⟨f, List.mem_singleton_self f, hlast.symm⟩
    · intro g hg
      rw [List.mem_singleton.mp hg, hlast]
    · show (false || staleAt now f) = [f].any (staleAt now)
      simp
    · exact ⟨f, List.mem_singleton_self f, rfl⟩
  · rw [hseen]
    exact List.nodup_singleton _
  · intro resource
    rw [hseen]
    simp [eq_comm]

theorem Entry.Sums.add (h : e.Sums now members) : (e.add now f).Sums now (members ++ [f]) := by
  have hseen : ∀ resource, resource ∈ (e.add now f).seen ↔
      ∃ g ∈ members ++ [f], g.resource = resource := by
    intro resource
    simp only [List.mem_append, List.mem_singleton, or_and_right, exists_or, exists_eq_left]
    rw [← h.seen]
    show resource ∈ (if e.seen.contains f.resource then e.seen else f.resource :: e.seen) ↔ _
    split
    · next hold =>
        rw [List.contains_iff_mem] at hold
        refine ⟨.inl, fun hmem => hmem.elim (fun h => h) ?_⟩
        rintro rfl
        exact hold
    · rw [List.mem_cons, or_comm, eq_comm]
  have hnodup : (e.add now f).seen.Nodup := by
    show (if e.seen.contains f.resource then e.seen else f.resource :: e.seen).Nodup
    split
    · exact h.nodup
    · next hnew =>
        rw [List.contains_iff_mem] at hnew
        exact List.nodup_cons.mpr ⟨hnew, h.nodup⟩
  refine ⟨?_, hnodup, hseen⟩
  have hall : ∀ {p : FindingView → Prop}, (∀ g ∈ members, p g) → p f →
      ∀ g ∈ members ++ [f], p g := by
    intro p hmembers hf g hg
    rcases List.mem_append.mp hg with hg | hg
    · exact hmembers g hg
    · rw [List.mem_singleton.mp hg]
      exact hf
  have hkept : ∀ {p : FindingView → Prop}, (∃ g ∈ members, p g) → ∃ g ∈ members ++ [f], p g := by
    rintro p ⟨g, hg, hp⟩
    exact ⟨g, List.mem_append_left _ hg, hp⟩
  have hf : f ∈ members ++ [f] := List.mem_append_right _ (List.mem_singleton_self f)
  obtain ⟨hfindings, -, ⟨g, hg, hgseverity⟩, hworst, hfirst, hunknown, hlast, hlatest, hstale,
    hexample⟩ := h.group
  have hseverity : (e.add now f).group.severity
      = if priority f.severity < priority e.group.severity then f.severity
        else e.group.severity := rfl
  constructor
  · rw [List.length_append, ← hfindings]
    rfl
  · exact length_dedup hnodup hseen
  · rw [hseverity]
    split
    · exact ⟨f, hf, rfl⟩
    · exact hkept ⟨g, hg, hgseverity⟩
  · rw [hseverity]
    split
    · next hless =>
        exact hall (fun g hg => (Nat.le_of_lt hless).trans (hworst g hg)) (Nat.le_refl _)
    · next hless => exact hall hworst (Nat.not_lt.mp hless)
  · intro time htime
    change (match e.group.firstDetectedAt, firstOf f with
      | some a, some b => some (min a b)
      | _, _ => none) = some time at htime
    split at htime
    · next a b ha hb =>
        obtain ⟨hsome, hleast⟩ := hfirst a ha
        cases htime
        constructor
        · rcases Int.le_total a b with hle | hle
          · rw [Int.min_eq_left hle]
            exact hkept hsome
          · rw [Int.min_eq_right hle]
            exact ⟨f, hf, hb⟩
        · apply hall
          · intro g hg
            obtain ⟨t, ht, hle⟩ := hleast g hg
            exact ⟨t, ht, Int.le_trans (Int.min_le_left a b) hle⟩
          · exact ⟨b, hb, Int.min_le_right a b⟩
    · cases htime
  · intro hnone
    change (match e.group.firstDetectedAt, firstOf f with
      | some a, some b => some (min a b)
      | _, _ => none) = none at hnone
    cases ha : e.group.firstDetectedAt with
    | none => exact hkept (hunknown ha)
    | some a =>
        cases hb : firstOf f with
        | none => exact ⟨f, hf, hb⟩
        | some b =>
            rw [ha, hb] at hnone
            cases hnone
  · show ∃ g ∈ members ++ [f], lastOf g = max e.group.lastDetectedAt (lastOf f)
    rcases Int.le_total e.group.lastDetectedAt (lastOf f) with hle | hle
    · rw [Int.max_eq_right hle]
      exact ⟨f, hf, rfl⟩
    · rw [Int.max_eq_left hle]
      exact hkept hlast
  · show ∀ g ∈ members ++ [f], lastOf g ≤ max e.group.lastDetectedAt (lastOf f)
    apply hall
    · exact fun g hg => Int.le_trans (hlatest g hg) (Int.le_max_left _ _)
    · exact Int.le_max_right _ _
  · show (e.group.stale || staleAt now f) = (members ++ [f]).any (staleAt now)
    rw [hstale, List.any_append]
    simp
  · exact hkept hexample

end

/-! ## All groups -/

/-- The entries of some findings: one for each target and rule, over the findings with it. -/
structure Grouped (now : Time) (entries : List Entry) (findings : List FindingView) : Prop where
  nodup : (entries.map Entry.key).Nodup
  sums : ∀ e ∈ entries, e.Sums now (findings.filter fun f => decide (keyOf f = e.key))
  covers : ∀ f ∈ findings, keyOf f ∈ entries.map Entry.key
  only : ∀ e ∈ entries, ∃ f ∈ findings, keyOf f = e.key

section

variable {now : Time} {e : Entry} {f : FindingView} {rest : List Entry}
  {findings : List FindingView}

theorem key_add : (e.add now f).key = e.key := rfl

/-- Where the finding goes. -/
theorem insert_cases (now : Time) (f : FindingView) (entries : List Entry) :
    (∃ before e after, entries = before ++ e :: after ∧ e.key = keyOf f
        ∧ insert now f entries = before ++ e.add now f :: after)
      ∨ keyOf f ∉ entries.map Entry.key
        ∧ insert now f entries = entries ++ [(Entry.new f).add now f] := by
  induction entries with
  | nil => exact .inr ⟨List.not_mem_nil, rfl⟩
  | cons e rest ih =>
      rw [insert]
      by_cases hkey : e.key = keyOf f
      · rw [if_pos hkey]
        exact .inl ⟨[], e, rest, rfl, hkey, rfl⟩
      · rw [if_neg hkey]
        rcases ih with ⟨before, found, after, rfl, hfound, heq⟩ | ⟨hnone, heq⟩
        · exact .inl ⟨e :: before, found, after, rfl, hfound, by rw [heq]; rfl⟩
        · refine .inr ⟨?_, by rw [heq]; rfl⟩
          rw [List.map_cons, List.mem_cons, not_or]
          exact ⟨fun h => hkey h.symm, hnone⟩

theorem filter_concat (key : String × String) :
    (findings ++ [f]).filter (fun g => decide (keyOf g = key))
      = findings.filter (fun g => decide (keyOf g = key)) ++ if keyOf f = key then [f] else [] := by
  rw [List.filter_append, List.filter_singleton]
  congr 1
  by_cases h : keyOf f = key <;> simp [h]

/-- An entry of another target or rule does not change. -/
theorem Entry.Sums.other (h : e.Sums now (findings.filter fun g => decide (keyOf g = e.key)))
    (hkey : keyOf f ≠ e.key) :
    e.Sums now ((findings ++ [f]).filter fun g => decide (keyOf g = e.key)) := by
  rw [filter_concat, if_neg hkey, List.append_nil]
  exact h

theorem Grouped.insert {entries : List Entry} (h : Grouped now entries findings) (f : FindingView) :
    Grouped now (ProblemGroups.insert now f entries) (findings ++ [f]) := by
  rcases insert_cases now f entries with ⟨before, e, after, rfl, hkey, heq⟩ | ⟨hnone, heq⟩
  · have hkeys : (before ++ e.add now f :: after).map Entry.key
        = (before ++ e :: after).map Entry.key := by
      rw [List.map_append, List.map_append, List.map_cons, List.map_cons, key_add]
    have hdistinct := h.nodup
    rw [List.map_append, List.map_cons, List.nodup_append, List.nodup_cons] at hdistinct
    have hother : ∀ other ∈ before ++ after, keyOf f ≠ other.key := by
      intro other hother heq
      rw [← hkey] at heq
      rcases List.mem_append.mp hother with hbefore | hafter
      · exact hdistinct.2.2 _ (List.mem_map_of_mem hbefore) _ List.mem_cons_self heq.symm
      · exact hdistinct.2.1.1 (heq ▸ List.mem_map_of_mem hafter)
    rw [heq]
    refine ⟨hkeys ▸ h.nodup, ?_, ?_, ?_⟩
    · intro other hmem
      rcases List.mem_append.mp hmem with hbefore | hrest
      · exact (h.sums other (List.mem_append_left _ hbefore)).other
          (hother other (List.mem_append_left _ hbefore))
      · rcases List.mem_cons.mp hrest with rfl | hafter
        · rw [key_add, filter_concat, if_pos hkey.symm]
          exact (h.sums e (List.mem_append_right _ List.mem_cons_self)).add
        · exact (h.sums other (List.mem_append_right _ (List.mem_cons_of_mem _ hafter))).other
            (hother other (List.mem_append_right _ hafter))
    · intro g hg
      rw [hkeys]
      rcases List.mem_append.mp hg with hg | hg
      · exact h.covers g hg
      · rw [List.mem_singleton.mp hg, ← hkey]
        exact List.mem_map_of_mem (List.mem_append_right _ List.mem_cons_self)
    · intro other hmem
      have hlisted : other.key ∈ (before ++ e :: after).map Entry.key :=
        hkeys ▸ List.mem_map_of_mem hmem
      obtain ⟨old, hold, hsame⟩ := List.mem_map.mp hlisted
      obtain ⟨g, hg, hgkey⟩ := h.only old hold
      exact ⟨g, List.mem_append_left _ hg, hgkey.trans hsame⟩
  · have hempty : findings.filter (fun g => decide (keyOf g = keyOf f)) = [] := by
      rw [List.filter_eq_nil_iff]
      intro g hg hsame
      rw [decide_eq_true_eq] at hsame
      exact hnone (hsame ▸ h.covers g hg)
    have hnew : ((Entry.new f).add now f).key = keyOf f := rfl
    rw [heq]
    refine ⟨?_, ?_, ?_, ?_⟩
    · rw [List.map_append, List.map_singleton, hnew]
      exact List.nodup_append.mpr ⟨h.nodup, List.nodup_singleton _, by
        intro key hkey other hother hsame
        rw [List.mem_singleton.mp hother] at hsame
        exact hnone (hsame ▸ hkey)⟩
    · intro other hmem
      rcases List.mem_append.mp hmem with hold | hlast
      · refine (h.sums other hold).other fun hsame => hnone ?_
        rw [hsame]
        exact List.mem_map_of_mem hold
      · rw [List.mem_singleton.mp hlast, hnew, filter_concat, if_pos rfl, hempty]
        exact Entry.sums_new
    · intro g hg
      rw [List.map_append, List.mem_append]
      rcases List.mem_append.mp hg with hg | hg
      · exact .inl (h.covers g hg)
      · rw [List.mem_singleton.mp hg]
        exact .inr (List.mem_singleton_self _)
    · intro other hmem
      rcases List.mem_append.mp hmem with hold | hlast
      · obtain ⟨g, hg, hgkey⟩ := h.only other hold
        exact ⟨g, List.mem_append_left _ hg, hgkey⟩
      · rw [List.mem_singleton.mp hlast]
        exact ⟨f, List.mem_append_right _ (List.mem_singleton_self f), hnew.symm⟩

theorem grouped (now : Time) (findings : List FindingView) :
    Grouped now (entries now findings) findings := by
  induction findings using List.reverseRecOn with
  | nil =>
      refine ⟨List.nodup_nil, ?_, ?_, ?_⟩
      · intro e he
        cases he
      · intro f hf
        cases hf
      · intro e he
        cases he
  | append_singleton findings f ih =>
      rw [entries, List.foldl_append]
      exact ih.insert f

end

/-! ## The previews -/

theorem rank_injective {g g' : Group} (h : g.rank = g'.rank) :
    (g.target, g.rule) = (g'.target, g'.rule) := by
  have hrank := congrArg (fun r => (ofLex (ofLex (ofLex r).2).2)) h
  exact hrank

/-- A group that comes first is at least as bad. -/
theorem priority_le {g g' : Group} (h : g.rank ≤ g'.rank) :
    priority g.severity ≤ priority g'.severity := by
  rcases Prod.Lex.le_iff.mp h with hless | ⟨heq, -⟩
  · exact Nat.le_of_lt hless
  · exact Nat.le_of_eq heq

/-- The groups of different entries have different ranks, so their order is strict. -/
theorem pairwise_sorted {entries : List Entry} (h : (entries.map Entry.key).Nodup) :
    ((entries.map fun e => e.group).mergeSort fun a b => decide (a.rank ≤ b.rank)).Pairwise
      fun a b => a.rank < b.rank := by
  have hdistinct : (entries.map fun e => e.group).Pairwise fun a b => a.rank ≠ b.rank := by
    rw [List.Nodup, List.pairwise_map] at h
    rw [List.pairwise_map]
    exact h.imp fun hne heq => hne (rank_injective heq)
  have hne := (List.mergeSort_perm (entries.map fun e => e.group)
    fun a b => decide (a.rank ≤ b.rank)).pairwise_iff (R := fun a b => a.rank ≠ b.rank)
    (fun hne => hne.symm) |>.mpr hdistinct
  have hle := @List.pairwise_mergeSort Group (fun a b => decide (a.rank ≤ b.rank))
    (fun a b c hab hbc => decide_eq_true (le_trans (of_decide_eq_true hab) (of_decide_eq_true hbc)))
    (fun a b => by simpa using le_total a.rank b.rank) (entries.map fun e => e.group)
  exact hle.imp₂ (fun a b hle hne => lt_of_le_of_ne (of_decide_eq_true hle) hne) hne

/-- What is left out of the first five comes after all of them. -/
theorem rank_lt_of_dropped {sorted : List Group}
    (h : sorted.Pairwise fun a b => a.rank < b.rank) {g g' : Group} (hg : g ∈ sorted.take 5)
    (hg' : g' ∈ sorted.drop 5) : g.rank < g'.rank := by
  rw [← List.take_append_drop 5 sorted, List.pairwise_append] at h
  exact h.2.2 g hg g' hg'

/-- **The previews account for every finding.** The number of groups is that of the pairs of
target and rule among the selected findings, up to five groups are shown in the order of
their ranks, none twice, and each is about exactly the selected findings with its target and
rule. A finding is left out of them only if five groups are shown whose ranks come before
that of the group of its target and rule; they are at least as severe. -/
theorem groups_account (now : Time) (findings : List FindingView) (target : Option String) :
    let found := selected findings target
    let shown := (groups now findings target).2
    (groups now findings target).1 = (found.map keyOf).dedup.length
      ∧ shown.length = min 5 (groups now findings target).1
      ∧ shown.Pairwise (fun a b => a.rank < b.rank)
      ∧ (∀ g ∈ shown, g.Sums now (found.filter fun f => decide (keyOf f = (g.target, g.rule))))
      ∧ ∀ f ∈ found, (∃ g ∈ shown, keyOf f = (g.target, g.rule))
        ∨ shown.length = 5 ∧ ∃ left : Group, keyOf f = (left.target, left.rule)
          ∧ left.Sums now (found.filter fun f' => decide (keyOf f' = keyOf f))
          ∧ ∀ g ∈ shown, g.rank < left.rank ∧ priority g.severity ≤ priority f.severity := by
  intro found shown
  have hgrouped : Grouped now (entries now found) found := grouped now found
  have hsorted := pairwise_sorted hgrouped.nodup
  have hperm := List.mergeSort_perm ((entries now found).map fun e => e.group)
    fun a b => decide (a.rank ≤ b.rank)
  have hshown : shown = (((entries now found).map fun e => e.group).mergeSort
    fun a b => decide (a.rank ≤ b.rank)).take 5 := rfl
  have htotal : (groups now findings target).1
      = ((entries now found).map fun e => e.group).length := rfl
  rw [hshown, htotal]
  refine ⟨?_, ?_, hsorted.sublist (List.take_sublist _ _), ?_, ?_⟩
  · rw [List.length_map, ← List.length_map Entry.key]
    apply List.Perm.length_eq
    rw [List.perm_ext_iff_of_nodup hgrouped.nodup (List.nodup_dedup _)]
    intro key
    rw [List.mem_dedup, List.mem_map, List.mem_map]
    constructor
    · rintro ⟨e, he, rfl⟩
      exact hgrouped.only e he
    · rintro ⟨f, hf, rfl⟩
      exact List.mem_map.mp (hgrouped.covers f hf)
  · rw [List.length_take, hperm.length_eq]
  · intro g hg
    obtain ⟨e, he, rfl⟩ := List.mem_map.mp (hperm.mem_iff.mp (List.mem_of_mem_take hg))
    exact (hgrouped.sums e he).group
  · intro f hf
    obtain ⟨e, he, hkey⟩ := List.mem_map.mp (hgrouped.covers f hf)
    have hmem := hperm.mem_iff.mpr (List.mem_map_of_mem (f := fun e : Entry => e.group) he)
    rw [← List.take_append_drop 5 (List.mergeSort _ _), List.mem_append] at hmem
    rcases hmem with htaken | hdropped
    · exact .inl ⟨e.group, htaken, hkey.symm⟩
    · have hsums := (hgrouped.sums e he).group
      rw [hkey] at hsums
      refine .inr ⟨?_, e.group, hkey.symm, hsums, fun g hg => ?_⟩
      · have hlong := List.length_pos_of_mem hdropped
        rw [List.length_drop] at hlong
        rw [List.length_take]
        omega
      · have hless := rank_lt_of_dropped hsorted hg hdropped
        have hworst := hsums.worst f (List.mem_filter.mpr ⟨hf, decide_eq_true rfl⟩)
        exact ⟨hless, (priority_le hless.le).trans hworst⟩

end HealthMonitor.Server.ProblemGroups
