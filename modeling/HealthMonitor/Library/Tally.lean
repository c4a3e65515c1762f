import HealthMonitor.Library.Table

/-!
# Tally

Counters that follow a list: for each key, the number of members of the list
that have it. A key that no member has is not in the table.
-/

namespace Tally

variable {α : Type} {key : α → String} {counts : Table Nat} {members : List α} {a : α}

/-- `*counts.entry(k).or_default() += 1` -/
def increment (counts : Table Nat) (k : String) : Table Nat :=
  counts.insert k (counts[k]?.getD 0 + 1)

/-- The counter of the key less one, if there is one; a counter at zero is
dropped. -/
def decrement (counts : Table Nat) (k : String) : Table Nat :=
  match counts[k]? with
  | none => counts
  | some count => if count - 1 = 0 then counts.erase k else counts.insert k (count - 1)

/-- The counters count the members of the list. -/
def Counts (counts : Table Nat) (key : α → String) (members : List α) : Prop :=
  ∀ k, counts[k]?.getD 0 = members.countP fun a => key a = k

theorem counts_empty (key : α → String) : Counts ∅ key [] := fun k => by simp

theorem getD_increment (counts : Table Nat) (k j : String) :
    (increment counts k)[j]?.getD 0 = counts[j]?.getD 0 + if k = j then 1 else 0 := by
  rw [increment, Std.ExtTreeMap.getElem?_insert]
  by_cases h : k = j
  · subst h
    simp
  · simp [h]

theorem getD_decrement (counts : Table Nat) (k j : String) :
    (decrement counts k)[j]?.getD 0 = counts[j]?.getD 0 - if k = j then 1 else 0 := by
  unfold decrement
  cases hk : counts[k]? with
  | none =>
      by_cases h : k = j
      · subst h
        simp [hk]
      · simp [h]
  | some count =>
      dsimp only
      by_cases h : k = j
      · subst h
        split
        · rename_i hzero
          simp [hk, hzero]
        · simp [hk]
      · split
        · simp [Table.getElem?_erase_ne (Ne.symm h)]
        · simp [Table.getElem?_insert_ne (Ne.symm h)]

/-- One more member. -/
theorem Counts.increment (h : Counts counts key members) (a : α) :
    Counts (increment counts (key a)) key (members ++ [a]) := by
  intro k
  rw [getD_increment, h k, List.countP_append, List.countP_singleton]
  simp only [decide_eq_true_eq]

/-- One member less. -/
theorem Counts.decrement {before after : List α}
    (h : Counts counts key (before ++ a :: after)) :
    Counts (decrement counts (key a)) key (before ++ after) := by
  intro k
  rw [getD_decrement, h k, List.countP_append, List.countP_cons, List.countP_append]
  simp only [decide_eq_true_eq]
  split <;> omega

end Tally
