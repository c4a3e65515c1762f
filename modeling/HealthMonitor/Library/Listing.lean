import HealthMonitor.Library.Entries
import Mathlib.Data.List.Nodup

/-!
# Listing

A directory: named entries in the order they are listed, no name twice. The
place an entry is put at is free, so every order can arise.
-/

/-- Named entries, in the order they are listed. -/
structure Listing (α : Type) where
  entries : List (String × α)
  nodup : (entries.map Prod.fst).Nodup

namespace Listing

variable {α : Type}

/-- The entry of a name. -/
def get (d : Listing α) (name : String) : Option α :=
  (d.entries.find? (·.1 == name)).map Prod.snd

/-- The listing without a name. -/
def erase (d : Listing α) (name : String) : Listing α where
  entries := d.entries.filter (·.1 != name)
  nodup := (List.filter_sublist.map Prod.fst).nodup d.nodup

/-- Write an entry, listed at `place`. -/
def put (d : Listing α) (place : Nat) (name : String) (value : α) : Listing α where
  entries := (d.erase name).entries.take place ++
    (name, value) :: (d.erase name).entries.drop place
  nodup := by
    have hperm : ((d.erase name).entries.take place ++
        (name, value) :: (d.erase name).entries.drop place).Perm
        ((name, value) :: ((d.erase name).entries.take place ++
          (d.erase name).entries.drop place)) :=
      List.perm_middle
    rw [List.take_append_drop] at hperm
    rw [(hperm.map Prod.fst).nodup_iff, List.map_cons, List.nodup_cons]
    refine ⟨?_, (d.erase name).nodup⟩
    simp [erase]

/-! ## Looking up -/

theorem get_eq_some_iff {d : Listing α} {name : String} {value : α} :
    d.get name = some value ↔ (name, value) ∈ d.entries := by
  unfold get
  constructor
  · intro h
    obtain ⟨e, he, rfl⟩ := Option.map_eq_some_iff.mp h
    have hname : e.1 = name := by simpa using List.find?_some he
    rw [← hname]
    exact List.mem_of_find?_eq_some he
  · intro h
    cases hf : d.entries.find? (·.1 == name) with
    | none => simpa using List.find?_eq_none.mp hf _ h
    | some e =>
        have hname : e.1 = name := by simpa using List.find?_some hf
        have := List.inj_on_of_nodup_map d.nodup (List.mem_of_find?_eq_some hf) h hname
        rw [Option.map_some, this]

theorem get_congr {d d' : Listing α} {name : String}
    (h : ∀ value, (name, value) ∈ d.entries ↔ (name, value) ∈ d'.entries) :
    d.get name = d'.get name := by
  apply Option.ext
  intro value
  rw [get_eq_some_iff, get_eq_some_iff, h]

@[simp] theorem get_erase_self (d : Listing α) (name : String) :
    (d.erase name).get name = none := by
  rw [Option.eq_none_iff_forall_ne_some]
  intro value h
  have := get_eq_some_iff.mp h
  simp [erase] at this

theorem get_erase_of_ne (d : Listing α) {name other : String} (h : other ≠ name) :
    (d.erase name).get other = d.get other :=
  get_congr fun value => by simp [erase, h]

@[simp] theorem get_put_self (d : Listing α) (place : Nat) (name : String) (value : α) :
    (d.put place name value).get name = some value :=
  get_eq_some_iff.mpr (by simp [put])

theorem mem_put_iff {d : Listing α} {place : Nat} {name : String} {value : α}
    {e : String × α} :
    e ∈ (d.put place name value).entries ↔ e = (name, value) ∨ e ∈ (d.erase name).entries := by
  have hsplit := List.take_append_drop place (d.erase name).entries
  simp only [put, List.mem_append, List.mem_cons]
  rw [← hsplit, List.mem_append, hsplit]
  tauto

theorem get_put_of_ne (d : Listing α) (place : Nat) {name other : String} (value : α)
    (h : other ≠ name) : (d.put place name value).get other = d.get other :=
  get_congr fun v => by simp [mem_put_iff, erase, h]

/-! ## Sums over the entries -/

/-- Taking an entry out takes its measure away. -/
theorem total_erase (f : String × α → Nat) {d : Listing α} {name : String} {value : α}
    (h : d.get name = some value) :
    Entries.total f (d.erase name).entries + f (name, value) = Entries.total f d.entries := by
  have hmem := get_eq_some_iff.mp h
  obtain ⟨before, after, hsplit⟩ := List.append_of_mem hmem
  have hnodup := d.nodup
  rw [hsplit, List.map_append, List.map_cons, List.nodup_append] at hnodup
  obtain ⟨-, hafter, hdisjoint⟩ := hnodup
  have hb : before.filter (·.1 != name) = before := by
    rw [List.filter_eq_self]
    intro e he
    have := hdisjoint e.1 (List.mem_map_of_mem he) name (by simp)
    simpa using this
  have ha : after.filter (·.1 != name) = after := by
    rw [List.filter_eq_self]
    intro e he
    have : name ∉ after.map Prod.fst := (List.nodup_cons.mp hafter).1
    have hne : e.1 ≠ name := fun heq => this (heq ▸ List.mem_map_of_mem he)
    simpa using hne
  simp only [erase]
  rw [hsplit, List.filter_append, List.filter_cons_of_neg (by simp), hb, ha,
    Entries.total_append, Entries.total_append, Entries.total_cons]
  omega

theorem erase_of_get_eq_none {d : Listing α} {name : String} (h : d.get name = none) :
    (d.erase name).entries = d.entries := by
  rw [erase, List.filter_eq_self]
  intro e he
  have hne : e.1 ≠ name := by
    rintro rfl
    rw [get_eq_some_iff.mpr (show (e.1, e.2) ∈ d.entries from he)] at h
    simp at h
  simpa using hne

/-- After a write, the measure of the name is that of what was written. -/
theorem total_put (f : String × α → Nat) (d : Listing α) (place : Nat) (name : String)
    (value : α) :
    Entries.total f (d.put place name value).entries =
      Entries.total f (d.erase name).entries + f (name, value) := by
  have hsplit := List.take_append_drop place (d.erase name).entries
  simp only [put]
  rw [Entries.total_append, Entries.total_cons]
  conv_rhs => rw [← hsplit, Entries.total_append]
  omega

theorem total_erase_le (f : String × α → Nat) (d : Listing α) (name : String) :
    Entries.total f (d.erase name).entries ≤ Entries.total f d.entries := by
  cases hget : d.get name with
  | none => exact Nat.le_of_eq (by rw [erase_of_get_eq_none hget])
  | some value =>
      have := total_erase f hget
      omega

end Listing
