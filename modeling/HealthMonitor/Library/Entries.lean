import Mathlib.Data.List.Perm.Basic
import Mathlib.Algebra.BigOperators.Group.List.Basic
import Mathlib.Algebra.GroupWithZero.Nat

/-!
# Entries

Sums of a measure over a list of which one entry changes: replaced by another, removed,
or added at the end.
-/

namespace Entries

variable {α : Type*}

/-- The sum of a measure over the entries. -/
def total (f : α → Nat) (l : List α) : Nat :=
  (l.map f).sum

@[simp] theorem total_nil (f : α → Nat) : total f [] = 0 := rfl

@[simp] theorem total_cons (f : α → Nat) (a : α) (l : List α) :
    total f (a :: l) = f a + total f l := by
  simp [total]

@[simp] theorem total_append (f : α → Nat) (l m : List α) :
    total f (l ++ m) = total f l + total f m := by
  simp [total]

theorem total_perm {f : α → Nat} {l m : List α} (h : l.Perm m) : total f l = total f m :=
  (h.map f).sum_eq

/-- Replacing an entry trades its measure for that of the new one. -/
theorem total_set (f : α → Nat) {l : List α} {i : Nat} {a : α} (h : l[i]? = some a) (b : α) :
    total f (l.set i b) + f a = total f l + f b := by
  obtain ⟨hi, rfl⟩ := List.getElem?_eq_some_iff.mp h
  have hset := total_perm (f := f) (List.set_perm_cons_eraseIdx hi b)
  have hself := total_perm (f := f) (List.getElem_cons_eraseIdx_perm hi)
  rw [total_cons] at hset hself
  omega

/-- Removing an entry takes its measure away. -/
theorem total_eraseIdx (f : α → Nat) {l : List α} {i : Nat} {a : α} (h : l[i]? = some a) :
    total f (l.eraseIdx i) + f a = total f l := by
  obtain ⟨hi, rfl⟩ := List.getElem?_eq_some_iff.mp h
  have hself := total_perm (f := f) (List.getElem_cons_eraseIdx_perm hi)
  rw [total_cons] at hself
  omega

theorem total_eq_zero {f : α → Nat} {l : List α} (h : ∀ a ∈ l, f a = 0) : total f l = 0 := by
  rw [total, List.sum_eq_zero]
  intro n hn
  obtain ⟨a, ha, rfl⟩ := List.mem_map.mp hn
  exact h a ha

theorem total_le_total {f g : α → Nat} {l : List α} (h : ∀ a ∈ l, f a ≤ g a) :
    total f l ≤ total g l := by
  induction l with
  | nil => exact Nat.le_refl 0
  | cons a l ih =>
      rw [total_cons, total_cons]
      exact Nat.add_le_add (h a (by simp)) (ih fun b hb => h b (by simp [hb]))

theorem countP_le_total {p : α → Bool} {f : α → Nat} {l : List α}
    (h : ∀ a ∈ l, p a = true → 1 ≤ f a) : l.countP p ≤ total f l := by
  induction l with
  | nil => exact Nat.le_refl 0
  | cons a l ih =>
      rw [total_cons, List.countP_cons, Nat.add_comm]
      refine Nat.add_le_add ?_ (ih fun b hb => h b (by simp [hb]))
      split
      · exact h a (by simp) ‹_›
      · exact Nat.zero_le _

/-- Putting an entry where it is changes nothing. -/
theorem set_same {l : List α} {i : Nat} {a : α} (h : l[i]? = some a) : l.set i a = l := by
  obtain ⟨hi, rfl⟩ := List.getElem?_eq_some_iff.mp h
  exact List.set_getElem_self hi

end Entries
