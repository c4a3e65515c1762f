import Mathlib.Data.List.Basic
import Mathlib.Data.List.Nodup

/-!
# Recency

Keys in the order of their last use. The age of a key is the number of uses since its
last one, so a use makes one key new and all others one use older.
-/

namespace HealthMonitor.Recency

section

variable {κ : Type} [DecidableEq κ] {uses keys : List κ}

/-- The uses since the last one of the key; all of them if there is none. -/
def age (uses : List κ) (k : κ) : Nat := uses.reverse.idxOf k

theorem age_concat (uses : List κ) (k j : κ) :
    age (uses ++ [k]) j = if k = j then 0 else age uses j + 1 := by
  rw [age, List.reverse_append, List.reverse_singleton, List.singleton_append]
  by_cases hk : k = j
  · rw [if_pos hk, hk, List.idxOf_cons_self]
  · rw [if_neg hk, List.idxOf_cons_ne _ hk, age]

/-- From the least recently to the most recently used. -/
def Ordered (uses keys : List κ) : Prop := keys.Pairwise fun a b => age uses b < age uses a

theorem Ordered.nodup (h : Ordered uses keys) : keys.Nodup :=
  List.Pairwise.imp (fun {a b} (hlt : age uses b < age uses a) (heq : a = b) =>
    Nat.lt_irrefl _ (heq ▸ hlt)) h

theorem Ordered.sublist {part : List κ} (h : Ordered uses keys) (hpart : part.Sublist keys) :
    Ordered uses part := List.Pairwise.sublist hpart h

theorem Ordered.nil : Ordered uses [] := List.Pairwise.nil

variable {k : κ}

/-- A use of another key makes all keys one use older. -/
theorem Ordered.use (h : Ordered uses keys) (hk : k ∉ keys) : Ordered (uses ++ [k]) keys := by
  refine List.Pairwise.imp_of_mem ?_ h
  intro a b ha hb hlt
  have hne : ∀ {j}, j ∈ keys → k ≠ j := fun hj heq => hk (heq ▸ hj)
  rw [age_concat, age_concat, if_neg (hne ha), if_neg (hne hb)]
  omega

/-- The key used last goes to the end. -/
theorem Ordered.push (h : Ordered uses keys) (hk : k ∉ keys) :
    Ordered (uses ++ [k]) (keys ++ [k]) := by
  refine List.pairwise_append.mpr ⟨h.use hk, List.pairwise_singleton _ _, ?_⟩
  intro a ha b hb
  have hne : k ≠ a := fun heq => hk (heq ▸ ha)
  rw [List.mem_singleton.mp hb, age_concat, age_concat, if_pos rfl, if_neg hne]
  exact Nat.succ_pos _

end

end HealthMonitor.Recency
