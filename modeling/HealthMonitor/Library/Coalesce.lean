import Mathlib.Data.List.Perm.Basic
import Mathlib.Data.List.Induction

/-!
# Coalesce

Items with keys, merged in place: an item of a key goes into the first item of that
key, and items without a key pass through. What is left of a key is the fold of the
merge over its items, so a pass over a list is known from each key on its own.
-/

namespace HealthMonitor.Coalesce

section

variable {α κ : Type} [DecidableEq κ] (key : α → Option κ) (merge : α → α → α)

/-- Merge an item into the first one of its key, or append it. -/
def mergeInto (item : α) (k : κ) : List α → List α
  | [] => [item]
  | old :: rest =>
      if key old = some k then merge old item :: rest else old :: mergeInto item k rest

def step (output : List α) (item : α) : List α :=
  match key item with
  | some k => mergeInto key merge item k output
  | none => output ++ [item]

def coalesce (items : List α) : List α := items.foldl (step key merge) []

/-- The items of one key. -/
def ofKey (k : κ) (items : List α) : List α := items.filter (key · = some k)

/-- The items without a key. -/
def unkeyed (items : List α) : List α := items.filter (key · = none)

/-- What is left of the items of one key. -/
def merged : List α → List α
  | [] => []
  | item :: rest => [rest.foldl merge item]

variable {key merge}

theorem mem_ofKey {k : κ} {items : List α} {item : α} :
    item ∈ ofKey key k items ↔ item ∈ items ∧ key item = some k := by
  rw [ofKey, List.mem_filter, decide_eq_true_eq]

theorem merged_concat (items : List α) (item : α) :
    merged merge (items ++ [item]) =
      match merged merge items with
      | [] => [item]
      | old :: rest => merge old item :: rest := by
  cases items with
  | nil => rfl
  | cons first rest =>
      simp only [merged, List.cons_append, List.foldl_append, List.foldl_cons, List.foldl_nil]

theorem merged_length_le (items : List α) : (merged merge items).length ≤ 1 := by
  cases items <;> simp [merged]

/-! ## One step -/

variable (hkey : ∀ {k old item}, key old = some k → key item = some k →
  key (merge old item) = some k)

include hkey

theorem unkeyed_mergeInto {item : α} {k : κ} (hitem : key item = some k) (output : List α) :
    unkeyed key (mergeInto key merge item k output) = unkeyed key output := by
  induction output with
  | nil => simp [mergeInto, unkeyed, hitem]
  | cons old rest ih =>
      rw [mergeInto]
      split
      · rename_i hold
        simp [unkeyed, hold, hkey hold hitem]
      · simp only [unkeyed, List.filter_cons] at ih ⊢
        rw [ih]

theorem ofKey_mergeInto_self {item : α} {k : κ} (hitem : key item = some k) (output : List α) :
    ofKey key k (mergeInto key merge item k output) =
      match ofKey key k output with
      | [] => [item]
      | old :: rest => merge old item :: rest := by
  induction output with
  | nil => simp [mergeInto, ofKey, hitem]
  | cons old rest ih =>
      rw [mergeInto]
      split
      · rename_i hold
        simp [ofKey, hold, hkey hold hitem]
      · rename_i hold
        simp only [ofKey, List.filter_cons, hold, decide_false, Bool.false_eq_true,
          if_false] at ih ⊢
        exact ih

theorem ofKey_mergeInto_other {item : α} {k j : κ} (hitem : key item = some k) (hne : j ≠ k)
    (output : List α) : ofKey key j (mergeInto key merge item k output) = ofKey key j output := by
  have hother : ∀ {a : α}, key a = some k → ¬ key a = some j := by
    intro a ha hj
    exact hne (Option.some.inj (hj.symm.trans ha))
  induction output with
  | nil => simp [mergeInto, ofKey, hother hitem]
  | cons old rest ih =>
      rw [mergeInto]
      split
      · rename_i hold
        simp [ofKey, hother hold, hother (hkey hold hitem)]
      · simp only [ofKey, List.filter_cons] at ih ⊢
        rw [ih]

/-! ## A whole list -/

omit hkey in
theorem coalesce_concat (items : List α) (item : α) :
    coalesce key merge (items ++ [item]) = step key merge (coalesce key merge items) item := by
  rw [coalesce, List.foldl_append]
  rfl

/-- Items without a key pass through in their order. -/
theorem unkeyed_coalesce (items : List α) :
    unkeyed key (coalesce key merge items) = unkeyed key items := by
  induction items using List.reverseRecOn with
  | nil => rfl
  | append_singleton items item ih =>
      rw [coalesce_concat, step]
      cases hitem : key item with
      | some k =>
          dsimp only
          rw [unkeyed_mergeInto hkey hitem, ih]
          simp [unkeyed, hitem]
      | none =>
          dsimp only
          rw [unkeyed, List.filter_append, unkeyed, List.filter_append]
          exact congrArg (· ++ _) ih

/-- What is left of a key is the merge of its items. -/
theorem ofKey_coalesce (k : κ) (items : List α) :
    ofKey key k (coalesce key merge items) = merged merge (ofKey key k items) := by
  induction items using List.reverseRecOn with
  | nil => rfl
  | append_singleton items item ih =>
      rw [coalesce_concat, step]
      cases hitem : key item with
      | none =>
          have hnone : ofKey key k [item] = [] := by simp [ofKey, hitem]
          dsimp only
          rw [ofKey, List.filter_append, ← ofKey, ← ofKey, hnone, List.append_nil, ih]
          conv_rhs => rw [ofKey, List.filter_append, ← ofKey, ← ofKey, hnone, List.append_nil]
      | some j =>
          dsimp only
          by_cases hjk : j = k
          · subst hjk
            have hone : ofKey key j [item] = [item] := by simp [ofKey, hitem]
            rw [ofKey_mergeInto_self hkey hitem, ih]
            conv_rhs => rw [ofKey, List.filter_append, ← ofKey, ← ofKey, hone, merged_concat]
          · have hnone : ofKey key k [item] = [] := by simp [ofKey, hitem, hjk]
            rw [ofKey_mergeInto_other hkey hitem (fun h => hjk h.symm), ih]
            conv_rhs => rw [ofKey, List.filter_append, ← ofKey, ← ofKey, hnone, List.append_nil]

omit hkey in
theorem mergeInto_of_new {item : α} {k : κ} {output : List α} (h : ofKey key k output = []) :
    mergeInto key merge item k output = output ++ [item] := by
  induction output with
  | nil => rfl
  | cons old rest ih =>
      have hold : ¬ key old = some k := by
        intro hold
        simp [ofKey, hold] at h
      rw [mergeInto, if_neg hold, ih (by simpa [ofKey, hold] using h), List.cons_append]

omit hkey in
/-- Without two items of one key there is nothing to merge. -/
theorem coalesce_eq_self {items : List α} (h : ∀ k, (ofKey key k items).length ≤ 1) :
    coalesce key merge items = items := by
  induction items using List.reverseRecOn with
  | nil => rfl
  | append_singleton items item ih =>
      have hparts : ∀ k, (ofKey key k items).length + (ofKey key k [item]).length ≤ 1 := by
        intro k
        have := h k
        rwa [ofKey, List.filter_append, List.length_append] at this
      rw [coalesce_concat, ih fun k => by have := hparts k; omega, step]
      cases hitem : key item with
      | none => rfl
      | some k =>
          have hone : (ofKey key k [item]).length = 1 := by simp [ofKey, hitem]
          have hnew : ofKey key k items = [] := by
            rw [← List.length_eq_zero_iff]
            have := hparts k
            omega
          exact mergeInto_of_new hnew

/-- Merging twice is merging once. -/
theorem coalesce_coalesce (items : List α) :
    coalesce key merge (coalesce key merge items) = coalesce key merge items := by
  apply coalesce_eq_self
  intro k
  rw [ofKey_coalesce hkey]
  exact merged_length_le _

omit hkey in
/-- Two lists with the same items of each key have the same keyed items. -/
theorem keyed_perm [DecidableEq α] {items other : List α}
    (h : ∀ k, ofKey key k items = ofKey key k other) :
    (items.filter (key · ≠ none)).Perm (other.filter (key · ≠ none)) := by
  rw [List.perm_iff_count]
  intro item
  cases hitem : key item with
  | none =>
      rw [List.count_eq_zero.mpr (by simp [hitem]), List.count_eq_zero.mpr (by simp [hitem])]
  | some k =>
      have hcount : ∀ l : List α, (l.filter (key · ≠ none)).count item =
          (ofKey key k l).count item := by
        intro l
        rw [List.count_filter (by simp [hitem]), ofKey, List.count_filter (by simp [hitem])]
      rw [hcount, hcount, h]

end

end HealthMonitor.Coalesce
