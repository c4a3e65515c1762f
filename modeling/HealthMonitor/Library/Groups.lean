import Mathlib.Algebra.BigOperators.Group.List.Basic
import Mathlib.Data.List.Induction
import Mathlib.Data.List.Nodup
import Mathlib.Data.List.Sort
import Mathlib.Order.Basic

/-!
# Groups

Rows grouped under their keys, in an ordered map that is the list of its entries in key
order. A step may fail; where a run succeeds, the entry of a key is the run of the step
over the rows with that key alone (`groups_spec`).
-/

namespace Groups

variable {κ α β ρ ε : Type} [LinearOrder κ]

theorem bind_eq_ok {x : Except ε α} {f : α → Except ε β} {b : β} (h : x >>= f = .ok b) :
    ∃ a, x = .ok a ∧ f a = .ok b := by
  cases x with
  | error e => cases h
  | ok a => exact ⟨a, rfl, h⟩

/-! ## One entry -/

/-- Rewrite the entry of a key, or make one in its place in the order. -/
def alter (k : κ) (f : Option α → Except ε α) : List (κ × α) → Except ε (List (κ × α))
  | [] => do
      let a ← f none
      return [(k, a)]
  | (j, b) :: rest =>
      if k < j then do
        let a ← f none
        return (k, a) :: (j, b) :: rest
      else if k = j then do
        let a ← f (some b)
        return (j, a) :: rest
      else do
        let rest ← alter k f rest
        return (j, b) :: rest

/-- The keys are in increasing order. -/
def Sorted (g : List (κ × α)) : Prop := (g.map Prod.fst).Pairwise (· < ·)

theorem lookup_eq_none_iff {g : List (κ × α)} {k : κ} :
    g.lookup k = none ↔ k ∉ g.map Prod.fst := by
  rw [List.lookup_eq_none_iff]
  simp only [List.mem_map, not_exists, not_and, bne_iff_ne]
  exact ⟨fun h e he heq => h e he heq.symm, fun h e he heq => h e he heq.symm⟩

theorem lookup_of_lt {g : List (κ × α)} {k : κ} (h : ∀ j ∈ g.map Prod.fst, k < j) :
    g.lookup k = none :=
  lookup_eq_none_iff.mpr fun hk => lt_irrefl k (h k hk)

theorem lookup_of_mem {g : List (κ × α)} (hg : Sorted g) {k : κ} {a : α} (h : (k, a) ∈ g) :
    g.lookup k = some a := by
  induction g with
  | nil => cases h
  | cons e g ih =>
      rw [Sorted, List.map_cons, List.pairwise_cons] at hg
      obtain rfl | h := List.mem_cons.mp h
      · rw [List.lookup_cons_self]
      · have hlt : e.1 < k := hg.1 k (List.mem_map_of_mem (f := Prod.fst) h)
        rw [List.lookup_cons, beq_false_of_ne hlt.ne']
        exact ih hg.2 h

theorem mem_of_lookup {g : List (κ × α)} {k : κ} {a : α} (h : g.lookup k = some a) :
    (k, a) ∈ g := by
  induction g with
  | nil => cases h
  | cons e g ih =>
      rw [List.lookup_cons] at h
      by_cases hk : k = e.1
      · rw [hk, beq_self_eq_true] at h
        cases h
        rw [hk]
        exact List.mem_cons_self
      · rw [beq_false_of_ne hk] at h
        exact List.mem_cons_of_mem _ (ih h)

/-- Taking out one entry leaves the others. -/
theorem lookup_filter_ne {g : List (κ × α)} {j k : κ} (h : j ≠ k) :
    (g.filter (·.1 ≠ k)).lookup j = g.lookup j := by
  induction g with
  | nil => rfl
  | cons e g ih =>
      by_cases he : e.1 = k
      · rw [List.filter_cons_of_neg (by simp [he]), List.lookup_cons, ih, he, beq_false_of_ne h]
      · rw [List.filter_cons_of_pos (by simp [he]), List.lookup_cons, List.lookup_cons, ih]

/-- What altering an entry does: the other entries stay. -/
structure Altered (k : κ) (a : α) (g g' : List (κ × α)) : Prop where
  sorted : Sorted g'
  keys : ∀ j ∈ g'.map Prod.fst, j = k ∨ j ∈ g.map Prod.fst
  self : g'.lookup k = some a
  other : ∀ j ≠ k, g'.lookup j = g.lookup j

theorem altered_front {k : κ} {a : α} {g : List (κ × α)} (hg : Sorted g)
    (hk : ∀ j ∈ g.map Prod.fst, k < j) : Altered k a g ((k, a) :: g) where
  sorted := List.pairwise_cons.mpr ⟨hk, hg⟩
  keys j hj := by simpa using hj
  self := List.lookup_cons_self
  other j hj := by rw [List.lookup_cons, beq_false_of_ne hj]

theorem altered_head {k : κ} {a b : α} {g : List (κ × α)} (hg : Sorted ((k, b) :: g)) :
    Altered k a ((k, b) :: g) ((k, a) :: g) where
  sorted := hg
  keys j hj := Or.inr hj
  self := List.lookup_cons_self
  other j hj := by rw [List.lookup_cons, List.lookup_cons, beq_false_of_ne hj]

theorem Altered.cons {k j : κ} {a b : α} {g g' : List (κ × α)} (h : Altered k a g g')
    (hg : Sorted ((j, b) :: g)) (hjk : j < k) : Altered k a ((j, b) :: g) ((j, b) :: g') where
  sorted := by
    refine List.pairwise_cons.mpr ⟨fun i hi => ?_, h.sorted⟩
    obtain rfl | hi := h.keys i hi
    · exact hjk
    · exact (List.pairwise_cons.mp hg).1 i hi
  keys i hi := by
    rw [List.map_cons, List.mem_cons] at hi ⊢
    obtain rfl | hi := hi
    · exact Or.inr (Or.inl rfl)
    · exact (h.keys i hi).imp_right Or.inr
  self := by
    rw [List.lookup_cons, beq_false_of_ne hjk.ne']
    exact h.self
  other i hi := by rw [List.lookup_cons, List.lookup_cons, h.other i hi]

theorem alter_spec {k : κ} {f : Option α → Except ε α} {g g' : List (κ × α)} (hg : Sorted g)
    (h : alter k f g = .ok g') : ∃ a, f (g.lookup k) = .ok a ∧ Altered k a g g' := by
  induction g generalizing g' with
  | nil =>
      obtain ⟨a, ha, h⟩ := bind_eq_ok h
      cases h
      exact ⟨a, ha, altered_front hg nofun⟩
  | cons e g ih =>
      obtain ⟨j, b⟩ := e
      have hj := (List.pairwise_cons.mp hg).1
      rw [alter] at h
      by_cases hlt : k < j
      · have hk : ∀ i ∈ ((j, b) :: g).map Prod.fst, k < i := by
          intro i hi
          obtain rfl | hi := List.mem_cons.mp hi
          · exact hlt
          · exact hlt.trans (hj i hi)
        rw [if_pos hlt] at h
        obtain ⟨a, ha, h⟩ := bind_eq_ok h
        cases h
        exact ⟨a, by rwa [lookup_of_lt hk], altered_front hg hk⟩
      · rw [if_neg hlt] at h
        by_cases heq : k = j
        · subst heq
          rw [if_pos rfl] at h
          obtain ⟨a, ha, h⟩ := bind_eq_ok h
          cases h
          exact ⟨a, by rwa [List.lookup_cons_self], altered_head hg⟩
        · rw [if_neg heq] at h
          have hjk : j < k := lt_of_le_of_ne (not_lt.mp hlt) (Ne.symm heq)
          obtain ⟨rest, hrest, h⟩ := bind_eq_ok h
          cases h
          obtain ⟨a, ha, haltered⟩ := ih (List.pairwise_cons.mp hg).2 hrest
          refine ⟨a, ?_, haltered.cons hg hjk⟩
          rwa [List.lookup_cons, beq_false_of_ne heq]

/-- Altering an entry fails only where its step does. -/
theorem alter_ok {k : κ} {f : Option α → Except ε α} {g : List (κ × α)} (hg : Sorted g) {a : α}
    (h : f (g.lookup k) = .ok a) : ∃ g', alter k f g = .ok g' := by
  induction g with
  | nil =>
      rw [List.lookup_nil] at h
      exact ⟨[(k, a)], by rw [alter, h]; rfl⟩
  | cons e g ih =>
      obtain ⟨j, b⟩ := e
      have hj := (List.pairwise_cons.mp hg).1
      rw [alter]
      by_cases hlt : k < j
      · have hk : ∀ i ∈ ((j, b) :: g).map Prod.fst, k < i := by
          intro i hi
          obtain rfl | hi := List.mem_cons.mp hi
          · exact hlt
          · exact hlt.trans (hj i hi)
        rw [lookup_of_lt hk] at h
        rw [if_pos hlt, h]
        exact ⟨_, rfl⟩
      · rw [if_neg hlt]
        by_cases heq : k = j
        · subst heq
          rw [List.lookup_cons_self] at h
          rw [if_pos rfl, h]
          exact ⟨_, rfl⟩
        · rw [List.lookup_cons, beq_false_of_ne heq] at h
          obtain ⟨rest, hrest⟩ := ih (List.pairwise_cons.mp hg).2 h
          rw [if_neg heq, hrest]
          exact ⟨_, rfl⟩

/-! ## A list of rows -/

section

variable (key : ρ → κ) (step : Option α → ρ → Except ε α)

/-- Every row takes its step at the entry of its key. -/
def groups (rows : List ρ) : Except ε (List (κ × α)) :=
  rows.foldlM (fun g row => alter (key row) (step · row) g) []

/-- The steps of one entry. -/
def run (rows : List ρ) : Except ε (Option α) :=
  rows.foldlM (fun entry row => (step entry row).map some) none

variable {key step}

theorem groups_from {rows : List ρ} {g g' : List (κ × α)} (hg : Sorted g)
    (h : rows.foldlM (fun g row => alter (key row) (step · row) g) g = .ok g') :
    Sorted g' ∧ ∀ k, (rows.filter (key · = k)).foldlM
      (fun entry row => (step entry row).map some) (g.lookup k) = .ok (g'.lookup k) := by
  induction rows generalizing g with
  | nil =>
      cases h
      exact ⟨hg, fun k => rfl⟩
  | cons row rows ih =>
      rw [List.foldlM_cons] at h
      obtain ⟨next, hnext, h⟩ := bind_eq_ok h
      obtain ⟨a, ha, haltered⟩ := alter_spec hg hnext
      obtain ⟨hsorted, hrun⟩ := ih haltered.sorted h
      refine ⟨hsorted, fun k => ?_⟩
      by_cases hk : key row = k
      · subst hk
        rw [List.filter_cons_of_pos (by simp), List.foldlM_cons, ha]
        rw [← hrun (key row), haltered.self]
        rfl
      · rw [List.filter_cons_of_neg (by simpa using hk), ← hrun k,
          haltered.other k (Ne.symm hk)]

/-- The entry of a key is the run over the rows with that key. -/
theorem groups_spec {rows : List ρ} {g : List (κ × α)} (h : groups key step rows = .ok g) :
    Sorted g ∧ ∀ k, run step (rows.filter (key · = k)) = .ok (g.lookup k) :=
  groups_from (g := []) List.Pairwise.nil h

theorem run_concat {rows : List ρ} {row : ρ} {entry : Option α}
    (h : run step (rows ++ [row]) = .ok entry) :
    ∃ before a, run step rows = .ok before ∧ step before row = .ok a ∧ entry = some a := by
  rw [run, List.foldlM_append] at h
  obtain ⟨before, hbefore, h⟩ := bind_eq_ok h
  rw [List.foldlM_cons] at h
  obtain ⟨entry', hentry, h⟩ := bind_eq_ok h
  cases ha : step before row with
  | error e =>
      rw [ha] at hentry
      cases hentry
  | ok a =>
      rw [ha] at hentry
      cases hentry
      cases h
      exact ⟨before, a, hbefore, ha, rfl⟩

theorem groups_ok_from {rows : List ρ} {g : List (κ × α)} (hg : Sorted g)
    (h : ∀ k, ∃ entry, (rows.filter (key · = k)).foldlM
      (fun entry row => (step entry row).map some) (g.lookup k) = .ok entry) :
    ∃ g', rows.foldlM (fun g row => alter (key row) (step · row) g) g = .ok g' := by
  induction rows generalizing g with
  | nil => exact ⟨g, rfl⟩
  | cons row rows ih =>
      obtain ⟨entry, hentry⟩ := h (key row)
      rw [List.filter_cons_of_pos (by simp), List.foldlM_cons] at hentry
      obtain ⟨first, hfirst, -⟩ := bind_eq_ok hentry
      cases ha : step (g.lookup (key row)) row with
      | error e =>
          rw [ha] at hfirst
          cases hfirst
      | ok a =>
          obtain ⟨next, hnext⟩ := @alter_ok _ _ _ _ (key row) (step · row) g hg a ha
          obtain ⟨a', ha', haltered⟩ := alter_spec hg hnext
          obtain rfl : a = a' := Except.ok.inj (ha.symm.trans ha')
          obtain ⟨g', hg'⟩ := ih haltered.sorted fun k => by
            obtain ⟨entry, hentry⟩ := h k
            by_cases hk : key row = k
            · subst hk
              rw [List.filter_cons_of_pos (by simp), List.foldlM_cons, ha] at hentry
              exact ⟨entry, by rw [haltered.self]; exact hentry⟩
            · rw [List.filter_cons_of_neg (by simpa using hk)] at hentry
              exact ⟨entry, by rw [haltered.other k (Ne.symm hk)]; exact hentry⟩
          exact ⟨g', by rw [List.foldlM_cons, hnext]; exact hg'⟩

/-- The rows are grouped where the run of every key succeeds. -/
theorem groups_ok {rows : List ρ}
    (h : ∀ k, ∃ entry, run step (rows.filter (key · = k)) = .ok entry) :
    ∃ g, groups key step rows = .ok g :=
  groups_ok_from (g := []) List.Pairwise.nil h

/-- A run succeeds where each of its steps does. -/
theorem run_ok {rows : List ρ}
    (h : ∀ before row, before ++ [row] <+: rows → ∀ entry, run step before = .ok entry →
      ∃ a, step entry row = .ok a) : ∃ entry, run step rows = .ok entry := by
  induction rows using List.reverseRecOn with
  | nil => exact ⟨none, rfl⟩
  | append_singleton rows row ih =>
      obtain ⟨entry, hentry⟩ := ih fun before r hbefore =>
        h before r (hbefore.trans (List.prefix_append rows [row]))
      obtain ⟨a, ha⟩ := h rows row List.prefix_rfl entry hentry
      refine ⟨some a, ?_⟩
      rw [run] at hentry ⊢
      rw [List.foldlM_append, hentry]
      simp only [List.foldlM_cons, List.foldlM_nil, bind_pure]
      show (step entry row).map some = .ok (some a)
      rw [ha]
      rfl

/-- Only an empty list of rows has no entry. -/
theorem run_eq_none_iff {rows : List ρ} {entry : Option α} (h : run step rows = .ok entry) :
    entry = none ↔ rows = [] := by
  induction rows using List.reverseRecOn with
  | nil =>
      cases h
      exact ⟨fun _ => rfl, fun _ => rfl⟩
  | append_singleton rows row ih =>
      obtain ⟨before, a, -, -, rfl⟩ := run_concat h
      simp

/-- Steps into a nested map are the steps of that map. -/
theorem groups_of_run {ι : Type} [LinearOrder ι] {inner : ρ → ι} {step : Option α → ρ → Except ε α}
    {rows : List ρ} {entry : Option (List (ι × α))}
    (h : run (fun entry row => alter (inner row) (step · row) (entry.getD [])) rows = .ok entry) :
    groups inner step rows = .ok (entry.getD []) := by
  induction rows using List.reverseRecOn generalizing entry with
  | nil =>
      cases h
      rfl
  | append_singleton rows row ih =>
      obtain ⟨before, a, hbefore, ha, rfl⟩ := run_concat h
      have hgroups := ih hbefore
      rw [groups] at hgroups ⊢
      rw [List.foldlM_append, hgroups]
      simp only [List.foldlM_cons, List.foldlM_nil, bind_pure]
      exact ha

theorem run_of_groups {ι : Type} [LinearOrder ι] {inner : ρ → ι} {step : Option α → ρ → Except ε α}
    {rows : List ρ} {g : List (ι × α)} (h : groups inner step rows = .ok g) :
    ∃ entry, run (fun entry row => alter (inner row) (step · row) (entry.getD [])) rows
      = .ok entry := by
  refine run_ok fun before row hbefore entry hentry => ?_
  obtain ⟨after, rfl⟩ := hbefore
  rw [groups, List.foldlM_append] at h
  obtain ⟨next, hnext, -⟩ := bind_eq_ok h
  rw [List.foldlM_append] at hnext
  obtain ⟨g', hg', hrow⟩ := bind_eq_ok hnext
  have hsame := groups_of_run hentry
  rw [groups, hg', Except.ok.injEq] at hsame
  rw [List.foldlM_cons] at hrow
  obtain ⟨a, ha, -⟩ := bind_eq_ok hrow
  exact ⟨a, hsame ▸ ha⟩

/-- The keys of the map are the keys of the rows. -/
theorem mem_keys_groups {rows : List ρ} {g : List (κ × α)} (h : groups key step rows = .ok g)
    {k : κ} : k ∈ g.map Prod.fst ↔ ∃ row ∈ rows, key row = k := by
  have hnone := run_eq_none_iff ((groups_spec h).2 k)
  rw [lookup_eq_none_iff, List.filter_eq_nil_iff] at hnone
  constructor
  · intro hk
    by_contra hno
    refine hnone.mpr (fun row hrow hkey => hno ⟨row, hrow, by simpa using hkey⟩) hk
  · rintro ⟨row, hrow, hkey⟩
    by_contra hk
    exact hnone.mp hk row hrow (by simpa using hkey)

/-- A measure that every step adds to is the sum over the rows. -/
theorem run_measure {M : Type} [AddCommMonoid M] {measure : α → M} {weight : ρ → M}
    (hfirst : ∀ row a, step none row = .ok a → measure a = weight row)
    (hnext : ∀ b row a, step (some b) row = .ok a → measure a = measure b + weight row)
    {rows : List ρ} {entry : Option α} (h : run step rows = .ok entry) :
    entry.elim 0 measure = (rows.map weight).sum := by
  induction rows using List.reverseRecOn generalizing entry with
  | nil =>
      cases h
      rfl
  | append_singleton rows row ih =>
      obtain ⟨before, a, hbefore, ha, rfl⟩ := run_concat h
      rw [List.map_append, List.sum_append, ← ih hbefore, List.map_singleton, List.sum_singleton]
      cases before with
      | none => rw [Option.elim_none, zero_add, Option.elim_some, hfirst row a ha]
      | some b => rw [Option.elim_some, Option.elim_some, hnext b row a ha]

end

/-! ## Sums over keys -/

theorem sum_filter_or {M : Type} [AddCommMonoid M] (f : ρ → M) {p q : ρ → Bool} (rows : List ρ)
    (h : ∀ row ∈ rows, p row = true → q row = false) :
    ((rows.filter p).map f).sum + ((rows.filter q).map f).sum
      = ((rows.filter fun row => p row || q row).map f).sum := by
  induction rows with
  | nil => simp
  | cons row rows ih =>
      have ih := ih fun r hr => h r (List.mem_cons_of_mem _ hr)
      have hrow := h row List.mem_cons_self
      cases hp : p row with
      | true =>
          rw [List.filter_cons_of_pos hp, List.filter_cons_of_neg (by simp [hrow hp]),
            List.filter_cons_of_pos (by simp [hp]), List.map_cons, List.map_cons, List.sum_cons,
            List.sum_cons, add_assoc, ih]
      | false =>
          rw [List.filter_cons_of_neg (by simp [hp])]
          cases hq : q row with
          | true =>
              rw [List.filter_cons_of_pos hq, List.filter_cons_of_pos (by simp [hq]),
                List.map_cons, List.map_cons, List.sum_cons, List.sum_cons, ← ih, add_left_comm]
          | false =>
              rw [List.filter_cons_of_neg (by simp [hq]),
                List.filter_cons_of_neg (by simp [hp, hq]), ih]

theorem sum_filter_not {M : Type} [AddCommMonoid M] (f : ρ → M) (p : ρ → Bool) (rows : List ρ) :
    ((rows.filter p).map f).sum + ((rows.filter (!p ·)).map f).sum = (rows.map f).sum := by
  rw [sum_filter_or f rows fun row _ hp => by rw [hp]; rfl]
  simp

/-- The sums of the keys add up to the sum of the rows that have one of the keys. -/
theorem sum_keys {M : Type} [AddCommMonoid M] (f : ρ → M) (key : ρ → κ) (rows : List ρ)
    {keys : List κ} (hkeys : keys.Nodup) :
    (keys.map fun k => ((rows.filter (key · = k)).map f).sum).sum
      = ((rows.filter (key · ∈ keys)).map f).sum := by
  induction keys with
  | nil => simp
  | cons k keys ih =>
      rw [List.nodup_cons] at hkeys
      rw [List.map_cons, List.sum_cons, ih hkeys.2, sum_filter_or f rows]
      · simp
      · intro row _ hk
        simp only [decide_eq_true_eq] at hk
        simpa [hk] using hkeys.1

/-- Where every row has one of the keys, the sums of the keys add up to the sum. -/
theorem sum_all_keys {M : Type} [AddCommMonoid M] (f : ρ → M) (key : ρ → κ) {rows : List ρ}
    {keys : List κ} (hkeys : keys.Nodup) (h : ∀ row ∈ rows, key row ∈ keys) :
    (keys.map fun k => ((rows.filter (key · = k)).map f).sum).sum = (rows.map f).sum := by
  rw [sum_keys f key rows hkeys, List.filter_eq_self.mpr fun row hrow => by simpa using h row hrow]

theorem exists_of_forall₂ {R : α → β → Prop} {l : List α} {m : List β} (h : List.Forall₂ R l m) :
    ∀ b ∈ m, ∃ a ∈ l, R a b := by
  induction h with
  | nil => nofun
  | cons hab _ ih =>
      intro b hb
      obtain rfl | hb := List.mem_cons.mp hb
      · exact ⟨_, List.mem_cons_self, hab⟩
      · obtain ⟨a, ha, hR⟩ := ih b hb
        exact ⟨a, List.mem_cons_of_mem _ ha, hR⟩

theorem map_eq_of_forall₂ {γ : Type} {R : α → β → Prop} {f : α → γ} {g : β → γ} {l : List α}
    {m : List β} (h : List.Forall₂ R l m) (hR : ∀ a b, R a b → g b = f a) : m.map g = l.map f := by
  induction h with
  | nil => rfl
  | cons hab _ ih => rw [List.map_cons, List.map_cons, hR _ _ hab, ih]

theorem forall₂_of_map_eq {γ : Type} {R : α → β → Prop} {f : α → γ} {g : β → γ} {l : List α}
    {m : List β} (h : l.map f = m.map g) (hR : ∀ a ∈ l, ∀ b ∈ m, f a = g b → R a b) :
    List.Forall₂ R l m := by
  induction l generalizing m with
  | nil =>
      have hm : m = [] := List.map_eq_nil_iff.mp h.symm
      subst hm
      exact List.Forall₂.nil
  | cons a l ih =>
      cases m with
      | nil => cases h
      | cons b m =>
          rw [List.map_cons, List.map_cons, List.cons.injEq] at h
          refine List.Forall₂.cons (hR a List.mem_cons_self b List.mem_cons_self h.1)
            (ih h.2 fun c hc d hd => ?_)
          exact hR c (List.mem_cons_of_mem _ hc) d (List.mem_cons_of_mem _ hd)

/-- Increasing lists with the same members are the same. -/
theorem eq_of_mem_iff {l m : List κ} (hl : l.Pairwise (· < ·)) (hm : m.Pairwise (· < ·))
    (h : ∀ k, k ∈ l ↔ k ∈ m) : l = m := by
  have hperm : l.Perm m :=
    (List.perm_ext_iff_of_nodup (hl.imp fun hlt => hlt.ne) (hm.imp fun hlt => hlt.ne)).mpr h
  exact hperm.eq_of_pairwise (fun a b _ _ hab hba => absurd hab hba.asymm) hl hm

end Groups
