import Mathlib.Data.List.Nodup
import Mathlib.Data.Option.Basic

/-!
# Upsert

Batches of keyed values written to a keyed store. Of the values of one key in a batch
the last one counts (`last`); a batch without the others (`distinct`) has every key
once, and is written by inserting the values of new keys and letting the others
refresh what the store holds (`write`).
-/

namespace Upsert

variable {κ α ρ : Type*} [DecidableEq κ] (key : α → κ)

/-! ## The last value of a key -/

/-- The last value of the key in the batch. -/
def last (batch : List α) (k : κ) : Option α :=
  batch.findRev? fun a => key a = k

variable {key}

@[simp] theorem last_nil (k : κ) : last key ([] : List α) k = none := rfl

theorem last_cons (a : α) (batch : List α) (k : κ) :
    last key (a :: batch) k = (last key batch k).or (if key a = k then some a else none) := by
  unfold last
  rw [List.findRev?]
  cases batch.findRev? fun a => key a = k with
  | some b => rfl
  | none => by_cases h : key a = k <;> simp [h]

theorem last_append (xs ys : List α) (k : κ) :
    last key (xs ++ ys) k = (last key ys k).or (last key xs k) := by
  induction xs with
  | nil => simp
  | cons a xs ih =>
      rw [List.cons_append, last_cons, last_cons, ih, Option.or_assoc]

theorem last_spec {batch : List α} {k : κ} {a : α} (h : last key batch k = some a) :
    a ∈ batch ∧ key a = k := by
  unfold last at h
  rw [List.findRev?_eq_find?_reverse] at h
  exact ⟨List.mem_reverse.mp (List.mem_of_find?_eq_some h), by simpa using List.find?_some h⟩

theorem last_eq_none_iff {batch : List α} {k : κ} :
    last key batch k = none ↔ k ∉ batch.map key := by
  unfold last
  rw [List.findRev?_eq_find?_reverse, List.find?_eq_none]
  simp

theorem exists_last {batch : List α} {k : κ} (h : k ∈ batch.map key) :
    ∃ a, last key batch k = some a :=
  Option.ne_none_iff_exists'.mp (mt last_eq_none_iff.mp (not_not_intro h))

/-- Values of other keys do not matter. -/
theorem last_filter {batch : List α} {k : κ} {p : α → Bool}
    (h : ∀ a ∈ batch, key a = k → p a = true) :
    last key (batch.filter p) k = last key batch k := by
  induction batch with
  | nil => rfl
  | cons a batch ih =>
      have hrest := ih fun b hb => h b (List.mem_cons_of_mem a hb)
      by_cases hp : p a = true
      · rw [List.filter_cons_of_pos hp, last_cons, last_cons, hrest]
      · have hk : key a ≠ k := fun hk => hp (h a (by simp) hk)
        rw [List.filter_cons_of_neg hp, last_cons, hrest, if_neg hk, Option.or_none]

/-! ## Each key once -/

variable (key)

/-- The batch without the values that a later value of the same key replaces. -/
def distinct : List α → List α
  | [] => []
  | a :: batch => if key a ∈ batch.map key then distinct batch else a :: distinct batch

variable {key}

theorem mem_keys_distinct {batch : List α} {k : κ} :
    k ∈ (distinct key batch).map key ↔ k ∈ batch.map key := by
  induction batch with
  | nil => rfl
  | cons a batch ih =>
      unfold distinct
      split
      · next hmem =>
          rw [ih, List.map_cons, List.mem_cons]
          constructor
          · exact .inr
          · rintro (rfl | h)
            · exact hmem
            · exact h
      · rw [List.map_cons, List.map_cons, List.mem_cons, List.mem_cons, ih]

theorem nodup_distinct (batch : List α) : ((distinct key batch).map key).Nodup := by
  induction batch with
  | nil => exact List.nodup_nil
  | cons a batch ih =>
      unfold distinct
      split
      · exact ih
      · next hmem =>
          rw [List.map_cons, List.nodup_cons, mem_keys_distinct]
          exact ⟨hmem, ih⟩

theorem last_distinct (batch : List α) (k : κ) :
    last key (distinct key batch) k = last key batch k := by
  induction batch with
  | nil => rfl
  | cons a batch ih =>
      unfold distinct
      split
      · next hmem =>
          rw [ih, last_cons]
          by_cases hk : key a = k
          · obtain ⟨b, hb⟩ := exists_last (hk ▸ hmem)
            rw [hb, Option.some_or]
          · rw [if_neg hk, Option.or_none]
      · rw [last_cons, last_cons, ih]

/-- What remains of a batch is the last value of each key. -/
theorem mem_distinct {batch : List α} {a : α} :
    a ∈ distinct key batch ↔ last key batch (key a) = some a := by
  constructor
  · intro h
    have hkey : key a ∈ batch.map key := mem_keys_distinct.mp (List.mem_map_of_mem h)
    obtain ⟨b, hb⟩ := exists_last hkey
    obtain ⟨hmem, hbk⟩ := last_spec ((last_distinct batch (key a)).trans hb)
    rw [hb, List.inj_on_of_nodup_map (nodup_distinct batch) hmem h hbk]
  · intro h
    exact (last_spec ((last_distinct batch (key a)).trans h)).1

/-! ## Writing a batch -/

section Write

variable (key) (insert : α → ρ) (refresh : ρ → α → ρ)

/-- What a key holds once the value was written. -/
def merged (held : Option ρ) (a : α) : ρ :=
  held.elim (insert a) (refresh · a)

def put (store : κ → Option ρ) (a : α) : κ → Option ρ :=
  fun k => if key a = k then some (merged insert refresh (store k) a) else store k

/-- Every value in turn. -/
def write (store : κ → Option ρ) (batch : List α) : κ → Option ρ :=
  batch.foldl (put key insert refresh) store

variable {key insert refresh}

theorem write_of_notMem {batch : List α} {store : κ → Option ρ} {k : κ}
    (h : k ∉ batch.map key) : write key insert refresh store batch k = store k := by
  induction batch generalizing store with
  | nil => rfl
  | cons a batch ih =>
      rw [List.map_cons, List.mem_cons, not_or] at h
      have hrest := @ih (put key insert refresh store a) h.2
      rw [write, List.foldl_cons]
      exact hrest.trans (if_neg (Ne.symm h.1))

/-- A batch with every key once writes each of its values to what the store held. -/
theorem write_eq {batch : List α} (hnodup : (batch.map key).Nodup) (store : κ → Option ρ)
    (k : κ) :
    write key insert refresh store batch k
      = ((last key batch k).map (merged insert refresh (store k))).or (store k) := by
  induction batch generalizing store with
  | nil => rfl
  | cons a batch ih =>
      rw [List.map_cons, List.nodup_cons] at hnodup
      have hstep : write key insert refresh store (a :: batch) k
          = write key insert refresh (put key insert refresh store a) batch k := rfl
      rw [hstep, last_cons]
      by_cases hk : key a = k
      · subst hk
        have hnone : last key batch (key a) = none := last_eq_none_iff.mpr hnodup.1
        rw [write_of_notMem hnodup.1, hnone, if_pos rfl]
        simp [put]
      · rw [ih hnodup.2, if_neg hk, Option.or_none]
        simp [put, hk]

end Write

end Upsert
