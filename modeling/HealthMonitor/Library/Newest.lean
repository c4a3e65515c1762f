import HealthMonitor.Library.Table
import Mathlib.Data.Int.Order.Basic
import Mathlib.Data.List.Induction

/-!
# Newest

The newest record of each key in a list. A record replaces an earlier one of its
key unless it is older, so of records that are equally new the last one stays.
What is strictly older than another record of its key has no influence.
-/

namespace Newest

variable {α β : Type} {key : α → String} {time : α → Int} {l : List α}

/-! ## One key -/

/-- The new record, unless the old one is newer. -/
def pick (time : α → Int) (old : Option α) (a : α) : Option α :=
  match old with
  | some b => if time b ≤ time a then some a else some b
  | none => some a

/-- The last of the newest records. -/
def newest (time : α → Int) (l : List α) : Option α := l.foldl (pick time) none

theorem newest_concat (l : List α) (a : α) :
    newest time (l ++ [a]) = pick time (newest time l) a := by
  rw [newest, List.foldl_append]
  rfl

theorem pick_isSome (old : Option α) (a : α) : (pick time old a).isSome = true := by
  cases old with
  | none => rfl
  | some b =>
      rw [pick]
      split <;> rfl

theorem newest_eq_none : newest time l = none ↔ l = [] := by
  induction l using List.reverseRecOn with
  | nil => exact ⟨fun _ => rfl, fun _ => rfl⟩
  | append_singleton l a _ =>
      rw [newest_concat, ← Option.not_isSome_iff_eq_none, pick_isSome]
      simp

/-- No record before it is newer, and each one after it is older. -/
def Leads (time : α → Int) (a : α) (l : List α) : Prop :=
  ∃ before after, l = before ++ a :: after
    ∧ (∀ b ∈ before, time b ≤ time a) ∧ ∀ b ∈ after, time b < time a

theorem Leads.mem {a : α} (h : Leads time a l) : a ∈ l := by
  obtain ⟨before, after, rfl, _, _⟩ := h
  exact List.mem_append_right _ List.mem_cons_self

theorem Leads.le {a b : α} (h : Leads time a l) (hb : b ∈ l) : time b ≤ time a := by
  obtain ⟨before, after, rfl, hbefore, hafter⟩ := h
  rcases List.mem_append.mp hb with hb | hb
  · exact hbefore b hb
  · rcases List.mem_cons.mp hb with rfl | hb
    · exact le_rfl
    · exact le_of_lt (hafter b hb)

theorem Leads.of_newest {a : α} (h : newest time l = some a) : Leads time a l := by
  induction l using List.reverseRecOn generalizing a with
  | nil => cases h
  | append_singleton l x ih =>
      rw [newest_concat] at h
      cases hl : newest time l with
      | none =>
          rw [hl] at h
          cases h
          exact ⟨[], [], by rw [newest_eq_none.mp hl], by simp, by simp⟩
      | some b =>
          have hb := ih hl
          rw [hl, pick] at h
          by_cases hle : time b ≤ time x
          · rw [if_pos hle] at h
            cases h
            exact ⟨l, [], rfl, fun y hy => (hb.le hy).trans hle, by simp⟩
          · rw [if_neg hle] at h
            cases h
            obtain ⟨before, after, rfl, hbefore, hafter⟩ := hb
            refine ⟨before, after ++ [x], by simp, hbefore, fun y hy => ?_⟩
            rcases List.mem_append.mp hy with hy | hy
            · exact hafter y hy
            · rw [List.mem_singleton.mp hy]
              exact not_le.mp hle

theorem Leads.newest_eq {a : α} (h : Leads time a l) : newest time l = some a := by
  obtain ⟨before, after, rfl, hbefore, hafter⟩ := h
  have hreach : newest time (before ++ [a]) = some a := by
    rw [newest_concat]
    cases hn : newest time before with
    | none => rfl
    | some b => exact if_pos (hbefore b (Leads.of_newest hn).mem)
  have hstay : ∀ rest : List α, (∀ b ∈ rest, time b < time a) →
      rest.foldl (pick time) (some a) = some a := by
    intro rest hrest
    induction rest with
    | nil => rfl
    | cons b rest ih =>
        have hb : pick time (some a) b = some a :=
          if_neg (not_le.mpr (hrest b List.mem_cons_self))
        rw [List.foldl_cons, hb]
        exact ih fun c hc => hrest c (List.mem_cons_of_mem _ hc)
  rw [List.append_cons, newest, List.foldl_append, ← newest, hreach]
  exact hstay after hafter

theorem newest_eq_some {a : α} : newest time l = some a ↔ Leads time a l :=
  ⟨Leads.of_newest, Leads.newest_eq⟩

/-- A record in front gives way to one that is as new. -/
theorem newest_cons (a : α) (l : List α) :
    newest time (a :: l)
      = (newest time l).elim (some a) fun b => if time a ≤ time b then some b else some a := by
  induction l using List.reverseRecOn with
  | nil => rfl
  | append_singleton l x ih =>
      rw [← List.cons_append, newest_concat, newest_concat, ih]
      cases newest time l with
      | none => rfl
      | some b =>
          by_cases hab : time a ≤ time b
          · by_cases hbx : time b ≤ time x
            · simp [pick, hab, hbx, hab.trans hbx]
            · simp [pick, hab, hbx]
          · have hba : time b ≤ time a := (not_le.mp hab).le
            by_cases hax : time a ≤ time x
            · simp [pick, hab, hax, hba.trans hax]
            · by_cases hbx : time b ≤ time x
              · simp [pick, hab, hax, hbx]
              · simp [pick, hab, hax, hbx]

/-- What is strictly older than another record has no influence. -/
theorem newest_filter {p : α → Bool}
    (h : ∀ a ∈ l, p a = false → ∃ b ∈ l, time a < time b) :
    newest time (l.filter p) = newest time l := by
  cases hl : newest time l with
  | none =>
      rw [newest_eq_none.mp hl]
      rfl
  | some a =>
      have ha := Leads.of_newest hl
      have hp : p a = true := by
        rw [← Bool.not_eq_false]
        intro hp
        obtain ⟨b, hb, hlt⟩ := h a ha.mem hp
        exact absurd (ha.le hb) (not_le.mpr hlt)
      obtain ⟨before, after, rfl, hbefore, hafter⟩ := ha
      refine Leads.newest_eq ⟨before.filter p, after.filter p, ?_, ?_, ?_⟩
      · rw [List.filter_append, List.filter_cons_of_pos hp]
      · exact fun b hb => hbefore b (List.mem_filter.mp hb).1
      · exact fun b hb => hafter b (List.mem_filter.mp hb).1

theorem newest_map {f : β → α} (l : List β) :
    newest time (l.map f) = (newest (time ∘ f) l).map f := by
  induction l using List.reverseRecOn with
  | nil => rfl
  | append_singleton l b ih =>
      rw [List.map_append, List.map_singleton, newest_concat, newest_concat, ih]
      cases newest (time ∘ f) l with
      | none => rfl
      | some a =>
          by_cases hle : time (f a) ≤ time (f b)
          · simp [pick, hle]
          · simp [pick, hle]

/-! ## All keys -/

/-- Put the record under its key, unless a newer one is there. -/
def keep (key : α → String) (time : α → Int) (table : Table α) (a : α) : Table α :=
  match table[key a]? with
  | some old => if time old ≤ time a then table.insert (key a) a else table
  | none => table.insert (key a) a

/-- The newest record of each key. -/
def table (key : α → String) (time : α → Int) (l : List α) : Table α :=
  l.foldl (keep key time) ∅

theorem getElem?_keep (m : Table α) (a : α) (k : String) :
    (keep key time m a)[k]? = if key a = k then pick time m[k]? a else m[k]? := by
  by_cases hk : key a = k
  · subst hk
    rw [if_pos rfl, keep]
    cases hm : m[key a]? with
    | none => simp [pick]
    | some old =>
        by_cases hle : time old ≤ time a
        · simp [pick, hle]
        · simp [pick, hle, hm]
  · rw [if_neg hk, keep]
    split
    · split
      · exact Table.getElem?_insert_ne (Ne.symm hk)
      · rfl
    · exact Table.getElem?_insert_ne (Ne.symm hk)

theorem getElem?_table (l : List α) (k : String) :
    (table key time l)[k]? = newest time (l.filter fun a => key a = k) := by
  induction l using List.reverseRecOn with
  | nil => simp [table, newest]
  | append_singleton l a ih =>
      rw [table, List.foldl_append, ← table]
      show (keep key time (table key time l) a)[k]? = _
      rw [getElem?_keep, ih, List.filter_append]
      by_cases hk : key a = k
      · simp [hk, newest_concat]
      · simp [hk]

theorem mem_of_getElem? {k : String} {a : α} (h : (table key time l)[k]? = some a) :
    a ∈ l ∧ key a = k := by
  rw [getElem?_table, newest_eq_some] at h
  simpa using h.mem

/-- A record in the list has one in the table that is no older. -/
theorem exists_getElem? {a : α} (ha : a ∈ l) :
    ∃ b, (table key time l)[key a]? = some b ∧ time a ≤ time b := by
  have hmem : a ∈ l.filter fun b => key b = key a := by simpa using ha
  rw [getElem?_table]
  cases hn : newest time (l.filter fun b => key b = key a) with
  | none =>
      rw [newest_eq_none.mp hn] at hmem
      cases hmem
  | some b => exact ⟨b, rfl, (Leads.of_newest hn).le hmem⟩

/-- What is strictly older than another record of its key has no influence. -/
theorem table_filter {p : α → Bool}
    (h : ∀ a ∈ l, p a = false → ∃ b ∈ l, key b = key a ∧ time a < time b) :
    table key time (l.filter p) = table key time l := by
  refine Std.ExtTreeMap.ext_getElem? fun k => ?_
  rw [getElem?_table, getElem?_table, List.filter_comm]
  refine newest_filter fun a ha hp => ?_
  rw [List.mem_filter, decide_eq_true_eq] at ha
  obtain ⟨b, hb, hkey, hlt⟩ := h a ha.1 hp
  exact ⟨b, List.mem_filter.mpr ⟨hb, decide_eq_true (hkey.trans ha.2)⟩, hlt⟩

theorem getElem?_table_map {f : β → α} (l : List β) (k : String) :
    (table key time (l.map f))[k]? = ((table (key ∘ f) (time ∘ f) l)[k]?).map f := by
  rw [getElem?_table, getElem?_table, List.filter_map, newest_map]
  rfl

end Newest
