import Std.Data.ExtTreeMap
import Mathlib.Data.List.Perm.Basic
import Mathlib.Data.List.Nodup
import Mathlib.Algebra.BigOperators.Group.List.Basic
import Mathlib.Algebra.GroupWithZero.Nat

/-!
# Table

Ordered maps keyed by text, iterated in key order. The map itself is the
standard library's extensional tree map; this module adds the three loops a
program writes over one: `retain` filters in place, `total` sums a measure of
the values, and `sweep` visits every entry in key order, rewriting it together
with the one slot of a second table that belongs to it.
-/

/-- An ordered map from text. -/
abbrev Table (α : Type) := Std.ExtTreeMap String α

namespace Table

variable {α β γ ε : Type}

/-! ## Entries in key order -/

theorem mem_toList {m : Table α} {k : String} {v : α} :
    (k, v) ∈ m.toList ↔ m[k]? = some v :=
  Std.ExtTreeMap.mem_toList_iff_getElem?_eq_some

theorem nodup_keys (m : Table α) : (m.toList.map Prod.fst).Nodup := by
  have h := Std.ExtTreeMap.distinct_keys_toList (t := m)
  rw [List.nodup_iff_pairwise_ne, List.pairwise_map]
  exact h.imp fun hab => by simpa using hab

theorem nodup_toList (m : Table α) : m.toList.Nodup :=
  (nodup_keys m).of_map _

theorem mem_iff_getElem? {m : Table α} {k : String} :
    k ∈ m ↔ ∃ v, m[k]? = some v := by
  rw [← Option.isSome_iff_exists, Std.ExtTreeMap.mem_iff_isSome_getElem?]

/-- Looking an entry up in the listing is looking its key up. -/
theorem find?_toList (m : Table α) (k : String) :
    m.toList.find? (·.1 == k) = (m[k]?).map (k, ·) := by
  cases hf : m.toList.find? (·.1 == k) with
  | some e =>
      have hk : e.1 = k := by simpa using List.find?_some hf
      have hm : m[e.1]? = some e.2 := mem_toList.mp (List.mem_of_find?_eq_some hf)
      rw [← hk, hm]
      rfl
  | none =>
      cases hv : m[k]? with
      | none => rfl
      | some v =>
          have := List.find?_eq_none.mp hf (k, v) (mem_toList.mpr hv)
          simp at this

/-- A listing that only the entry of one key contributes to. -/
theorem flatMap_toList (m : Table α) (k : String) (g : String × α → List β)
    (hg : ∀ e, e.1 ≠ k → g e = []) :
    m.toList.flatMap g = ((m[k]?).map fun v => g (k, v)).getD [] := by
  have key : ∀ l : List (String × α), (l.map Prod.fst).Nodup →
      l.flatMap g = ((l.find? (·.1 == k)).map g).getD [] := by
    intro l
    induction l with
    | nil => intro _; rfl
    | cons e l ih =>
        intro hnd
        rw [List.map_cons, List.nodup_cons] at hnd
        rw [List.flatMap_cons, List.find?_cons]
        by_cases he : e.1 = k
        · have hrest : l.flatMap g = [] := by
            refine List.flatMap_eq_nil_iff.mpr fun d hd => hg d fun hdk => hnd.1 ?_
            exact List.mem_map.mpr ⟨d, hd, hdk.trans he.symm⟩
          simp [hrest, he]
        · have hb : (e.1 == k) = false := by simpa using he
          rw [hg e he, ih hnd.2, hb]
          rfl
  rw [key _ (nodup_keys m), find?_toList, Option.map_map]
  rfl

/-- Inserting lists the new entry and every other old one. -/
theorem toList_insert_perm (m : Table α) (k : String) (v : α) :
    (m.insert k v).toList.Perm ((k, v) :: (m.erase k).toList) := by
  have hnew : (k, v) ∉ (m.erase k).toList := by
    rw [mem_toList]
    simp
  refine (List.perm_ext_iff_of_nodup (nodup_toList _)
    (List.nodup_cons.mpr ⟨hnew, nodup_toList _⟩)).mpr ?_
  rintro ⟨j, w⟩
  rw [List.mem_cons, mem_toList, mem_toList, Std.ExtTreeMap.getElem?_insert,
    Std.ExtTreeMap.getElem?_erase]
  by_cases hj : k = j
  · subst hj
    simp [eq_comm]
  · simp [hj, Ne.symm hj]

/-! ## Filtering in place -/

/-- Keep the entries that `keep` accepts. -/
def retain (m : Table α) (keep : String → α → Bool) : Table α :=
  m.toList.foldl (fun out e => if keep e.1 e.2 then out.insert e.1 e.2 else out) ∅

private theorem foldl_retain (keep : String → α → Bool) (k : String) :
    ∀ (l : List (String × α)) (out : Table α), (l.map Prod.fst).Nodup →
    (∀ e ∈ l, out[e.1]? = none) →
    (l.foldl (fun out e => if keep e.1 e.2 then out.insert e.1 e.2 else out) out)[k]?
      = match l.find? (·.1 == k) with
        | some e => if keep e.1 e.2 then some e.2 else none
        | none => out[k]? := by
  intro l
  induction l with
  | nil => intro out _ _; rfl
  | cons e l ih =>
      intro out hnd hout
      rw [List.map_cons, List.nodup_cons] at hnd
      have hne : ∀ d ∈ l, e.1 ≠ d.1 := fun d hd h =>
        hnd.1 (List.mem_map.mpr ⟨d, hd, h.symm⟩)
      rw [List.foldl_cons, ih _ hnd.2, List.find?_cons]
      · by_cases hk : e.1 = k
        · have hl : l.find? (·.1 == k) = none := by
            rw [List.find?_eq_none]
            intro d hd
            simpa using fun h => hne d hd (hk.trans h.symm)
          have ho := hout e (by simp)
          rw [hk] at ho
          simp only [hl, hk, beq_self_eq_true]
          split <;> simp [ho]
        · have hb : (e.1 == k) = false := by simpa using hk
          simp only [hb]
          cases l.find? (·.1 == k) with
          | some d => rfl
          | none =>
              simp only
              split <;> simp [Std.ExtTreeMap.getElem?_insert, hk]
      · intro d hd
        have h := hout d (by simp [hd])
        split
        · rw [Std.ExtTreeMap.getElem?_insert]
          simp [hne d hd, h]
        · exact h

@[simp] theorem getElem?_retain (m : Table α) (keep : String → α → Bool)
    (k : String) : (m.retain keep)[k]? = (m[k]?).filter (keep k) := by
  rw [retain, foldl_retain keep k _ _ (nodup_keys m) (by simp)]
  cases hf : m.toList.find? (·.1 == k) with
  | some e =>
      have hk : e.1 = k := by simpa using List.find?_some hf
      have hm : m[e.1]? = some e.2 := mem_toList.mp (List.mem_of_find?_eq_some hf)
      subst hk
      rw [hm]
      rfl
  | none =>
      have hm : m[k]? = none := by
        cases hv : m[k]? with
        | none => rfl
        | some v =>
            have := List.find?_eq_none.mp hf (k, v) (mem_toList.mpr hv)
            simp at this
      simp [hm]

theorem getElem?_retain_eq_some {m : Table α} {keep : String → α → Bool}
    {k : String} {v : α} :
    (m.retain keep)[k]? = some v ↔ m[k]? = some v ∧ keep k v = true := by
  rw [getElem?_retain, Option.filter_eq_some_iff]

theorem mem_retain {m : Table α} {keep : String → α → Bool} {k : String} :
    k ∈ m.retain keep ↔ ∃ v, m[k]? = some v ∧ keep k v = true := by
  simp only [mem_iff_getElem?, getElem?_retain_eq_some]

theorem retain_eq_self {m : Table α} {keep : String → α → Bool}
    (h : ∀ k v, m[k]? = some v → keep k v = true) : m.retain keep = m := by
  apply Std.ExtTreeMap.ext_getElem?
  intro k
  rw [getElem?_retain]
  cases hm : m[k]? with
  | none => rfl
  | some v => simp [h k v hm]

/-! ## One key at a time -/

theorem getElem?_insert_ne {m : Table α} {j k : String} {v : α} (h : j ≠ k) :
    (m.insert k v)[j]? = m[j]? := by
  simp [Std.ExtTreeMap.getElem?_insert, h.symm]

theorem getElem?_erase_ne {m : Table α} {j k : String} (h : j ≠ k) :
    (m.erase k)[j]? = m[j]? := by
  simp [Std.ExtTreeMap.getElem?_erase, h.symm]

theorem erase_of_none {m : Table α} {k : String} (h : m[k]? = none) : m.erase k = m := by
  refine Std.ExtTreeMap.ext_getElem? fun j => ?_
  by_cases hj : j = k
  · subst hj
    rw [Std.ExtTreeMap.getElem?_erase_self, h]
  · exact getElem?_erase_ne hj

theorem size_insert_of_mem {m : Table α} {k : String} {v : α} (h : k ∈ m) :
    (m.insert k v).size = m.size := by
  simp [Std.ExtTreeMap.size_insert, h]

theorem size_insert_of_notMem {m : Table α} {k : String} {v : α} (h : k ∉ m) :
    (m.insert k v).size = m.size + 1 := by
  simp [Std.ExtTreeMap.size_insert, h]

theorem size_insert_le (m : Table α) (k : String) (v : α) :
    (m.insert k v).size ≤ m.size + 1 :=
  Std.ExtTreeMap.size_insert_le

theorem size_erase_le (m : Table α) (k : String) : (m.erase k).size ≤ m.size :=
  Std.ExtTreeMap.size_erase_le

/-! ## Two tables side by side -/

/-- Lists in key order, with the same keys, side by side. -/
theorem forall₂_of_ordered {R : String → α → β → Prop} :
    ∀ {l : List (String × α)} {l' : List (String × β)},
      (l.Pairwise fun a b => compare a.1 b.1 = .lt) →
      (l'.Pairwise fun a b => compare a.1 b.1 = .lt) →
      (∀ k v, (k, v) ∈ l → ∃ w, (k, w) ∈ l' ∧ R k v w) →
      (∀ k w, (k, w) ∈ l' → ∃ v, (k, v) ∈ l) →
      List.Forall₂ (fun a b => a.1 = b.1 ∧ R a.1 a.2 b.2) l l'
  | [], [], _, _, _, _ => .nil
  | [], (k, w) :: l', _, _, _, hback => by
      obtain ⟨v, hv⟩ := hback k w List.mem_cons_self
      cases hv
  | (k, v) :: l, [], _, _, hforth, _ => by
      obtain ⟨w, hw, _⟩ := hforth k v List.mem_cons_self
      cases hw
  | (k, v) :: l, (k', w') :: l', hl, hl', hforth, hback => by
      rw [List.pairwise_cons] at hl hl'
      obtain ⟨w, hw, hR⟩ := hforth k v List.mem_cons_self
      obtain ⟨v', hv'⟩ := hback k' w' List.mem_cons_self
      have hkey : k = k' := by
        by_contra hne
        have hlt : compare k k' = .lt := by
          rcases List.mem_cons.mp hv' with he | hmem
          · exact absurd (congrArg Prod.fst he).symm hne
          · exact hl.1 _ hmem
        have hgt : compare k' k = .lt := by
          rcases List.mem_cons.mp hw with he | hmem
          · exact absurd (congrArg Prod.fst he) hne
          · exact hl'.1 _ hmem
        rw [@Std.OrientedCmp.eq_swap _ compare, hlt] at hgt
        cases hgt
      subst hkey
      have hself : compare k k ≠ .lt := by
        rw [@Std.ReflCmp.compare_self _ compare]
        decide
      have hw' : w = w' := by
        rcases List.mem_cons.mp hw with he | hmem
        · exact congrArg Prod.snd he
        · exact absurd (hl'.1 _ hmem) hself
      subst hw'
      refine .cons ⟨rfl, hR⟩ (forall₂_of_ordered hl.2 hl'.2 ?_ ?_)
      · intro j u hu
        obtain ⟨x, hx, hux⟩ := hforth j u (List.mem_cons_of_mem _ hu)
        rcases List.mem_cons.mp hx with he | hmem
        · cases he
          exact absurd (hl.1 _ hu) hself
        · exact ⟨x, hmem, hux⟩
      · intro j x hx
        obtain ⟨u, hu⟩ := hback j x (List.mem_cons_of_mem _ hx)
        rcases List.mem_cons.mp hu with he | hmem
        · cases he
          exact absurd (hl'.1 _ hx) hself
        · exact ⟨u, hmem⟩

/-- Entries that correspond under some keys stand in the same order. -/
theorem forall₂_toList {R : String → α → β → Prop} {m : Table α} {n : Table β}
    {p : String → Bool} (h : ∀ k, p k = true → Option.Rel (R k) m[k]? n[k]?) :
    List.Forall₂ (fun a b => a.1 = b.1 ∧ R a.1 a.2 b.2) (m.toList.filter (p ·.1))
      (n.toList.filter (p ·.1)) := by
  refine forall₂_of_ordered (Std.ExtTreeMap.ordered_keys_toList.sublist List.filter_sublist)
    (Std.ExtTreeMap.ordered_keys_toList.sublist List.filter_sublist) ?_ ?_
  · intro k v hv
    obtain ⟨hmem, hp⟩ := List.mem_filter.mp hv
    have hrel := h k hp
    rw [mem_toList.mp hmem] at hrel
    cases hn : n[k]? with
    | none =>
        rw [hn] at hrel
        cases hrel
    | some w =>
        rw [hn] at hrel
        cases hrel with
        | some hR => exact ⟨w, List.mem_filter.mpr ⟨mem_toList.mpr hn, hp⟩, hR⟩
  · intro k w hw
    obtain ⟨hmem, hp⟩ := List.mem_filter.mp hw
    have hrel := h k hp
    rw [mem_toList.mp hmem] at hrel
    cases hm : m[k]? with
    | none =>
        rw [hm] at hrel
        cases hrel
    | some v => exact ⟨v, List.mem_filter.mpr ⟨mem_toList.mpr hm, hp⟩⟩

/-! ## Many keys in turn -/

/-- After inserting in turn, a key holds what was inserted for it last. -/
theorem getElem?_foldl_insert (key : β → String) (value : β → α) (l : List β) (m : Table α)
    (k : String) :
    (l.foldl (fun table d => table.insert (key d) (value d)) m)[k]?
      = ((l.findRev? (key · == k)).map value).or m[k]? := by
  induction l generalizing m with
  | nil => rfl
  | cons d l ih =>
      rw [List.foldl_cons, ih, List.findRev?]
      cases l.findRev? (key · == k) with
      | some _ => rfl
      | none =>
          by_cases hk : key d = k
          · simp [hk]
          · have hb : (key d == k) = false := by simpa using hk
            simp [hb, getElem?_insert_ne (Ne.symm hk)]

/-- After erasing in turn, exactly the erased keys are gone. -/
theorem getElem?_foldl_erase (key : β → String) (l : List β) (m : Table α) (k : String) :
    (l.foldl (fun table d => table.erase (key d)) m)[k]?
      = if k ∈ l.map key then none else m[k]? := by
  induction l generalizing m with
  | nil => simp
  | cons d l ih =>
      rw [List.foldl_cons, ih, List.map_cons]
      by_cases hk : k = key d
      · subst hk
        simp
      · simp [hk, getElem?_erase_ne hk]

/-- Erasing distinct keys of a table shrinks it by their number. -/
theorem size_foldl_erase {l : List String} {m : Table α} (hnd : l.Nodup)
    (h : ∀ k ∈ l, k ∈ m) :
    (l.foldl (fun table k => table.erase k) m).size = m.size - l.length := by
  induction l generalizing m with
  | nil => simp
  | cons k l ih =>
      rw [List.nodup_cons] at hnd
      have hrest : ∀ j ∈ l, j ∈ m.erase k := by
        intro j hj
        have hne : j ≠ k := fun he => hnd.1 (he ▸ hj)
        obtain ⟨v, hv⟩ := mem_iff_getElem?.mp (h j (by simp [hj]))
        exact mem_iff_getElem?.mpr ⟨v, (getElem?_erase_ne hne).trans hv⟩
      have hsize : (m.erase k).size = m.size - 1 := by
        simp [Std.ExtTreeMap.size_erase, h k (by simp)]
      rw [List.foldl_cons, ih hnd.2 hrest, hsize, List.length_cons]
      omega

/-! ## Sizes and sums -/

/-- The sum of a measure over the values. -/
def total (m : Table α) (f : α → Nat) : Nat :=
  (m.toList.map fun e => f e.2).sum

theorem total_insert (m : Table α) (k : String) (v : α) (f : α → Nat) :
    total (m.insert k v) f = f v + total (m.erase k) f := by
  rw [total, ((toList_insert_perm m k v).map _).sum_eq]
  rfl

/-- A measure over the other entries. -/
theorem total_erase (m : Table α) (k : String) (f : α → Nat) :
    total (m.erase k) f = ((m.toList.filter (·.1 != k)).map fun e => f e.2).sum := by
  refine (List.Perm.map _ ?_).sum_eq
  refine (List.perm_ext_iff_of_nodup (nodup_toList _) ((nodup_toList m).filter _)).mpr ?_
  rintro ⟨j, w⟩
  rw [mem_toList, List.mem_filter, mem_toList, Std.ExtTreeMap.getElem?_erase]
  by_cases hj : k = j <;> simp [hj, Ne.symm]

theorem total_erase_of_some {m : Table α} {k : String} {v : α} (h : m[k]? = some v)
    (f : α → Nat) : f v + total (m.erase k) f = total m f := by
  have hsame : m.insert k v = m := by
    refine Std.ExtTreeMap.ext_getElem? fun j => ?_
    rw [Std.ExtTreeMap.getElem?_insert]
    by_cases hj : k = j
    · subst hj
      simp [h]
    · simp [hj]
  rw [← total_insert, hsame]

theorem length_toList (m : Table α) : m.toList.length = m.size :=
  Std.ExtTreeMap.length_toList

/-- A table whose entries are all entries of another is no larger. -/
theorem size_le_of_subset {m : Table α} {n : Table β}
    (h : ∀ k, k ∈ m → k ∈ n) : m.size ≤ n.size := by
  rw [← length_toList, ← length_toList, ← List.length_map (f := Prod.fst),
    ← @List.length_map _ _ n.toList Prod.fst]
  refine (List.subperm_of_subset (nodup_keys m) ?_).length_le
  intro k hk
  obtain ⟨e, he, rfl⟩ := List.mem_map.mp hk
  obtain ⟨v, hv⟩ := mem_iff_getElem?.mp
    (h e.1 (mem_iff_getElem?.mpr ⟨e.2, mem_toList.mp he⟩))
  exact List.mem_map.mpr ⟨(e.1, v), mem_toList.mpr hv, rfl⟩

theorem size_retain_le (m : Table α) (keep : String → α → Bool) :
    (m.retain keep).size ≤ m.size := by
  apply size_le_of_subset
  intro k hk
  obtain ⟨v, hv, _⟩ := mem_retain.mp hk
  exact mem_iff_getElem?.mpr ⟨v, hv⟩

/-- A table whose values measure no more, key by key, sums to no more. -/
theorem total_le_total {m n : Table α} {f : α → Nat}
    (h : ∀ (k : String) (v : α), m[k]? = some v →
      ∃ w, n[k]? = some w ∧ f v ≤ f w) :
    total m f ≤ total n f := by
  have key : ∀ (l l' : List (String × α)), (l.map Prod.fst).Nodup →
      (∀ e ∈ l, ∃ w, (e.1, w) ∈ l' ∧ f e.2 ≤ f w) →
      (l.map fun e => f e.2).sum ≤ (l'.map fun e => f e.2).sum := by
    intro l
    induction l with
    | nil => intro l' _ _; simp
    | cons e l ih =>
        intro l' hnd hl
        rw [List.map_cons, List.nodup_cons] at hnd
        obtain ⟨w, hw, hle⟩ := hl e (by simp)
        obtain ⟨a, b, rfl⟩ := List.append_of_mem hw
        have hrest := ih (a ++ b) hnd.2 (by
          intro d hd
          obtain ⟨u, hu, hdu⟩ := hl d (by simp [hd])
          refine ⟨u, ?_, hdu⟩
          have hne : d.1 ≠ e.1 := fun h =>
            hnd.1 (List.mem_map.mpr ⟨d, hd, h⟩)
          simp only [List.mem_append, List.mem_cons, Prod.mk.injEq] at hu ⊢
          rcases hu with hu | hu | hu
          · exact .inl hu
          · exact absurd hu.1 hne
          · exact .inr hu)
        simp only [List.map_cons, List.sum_cons, List.map_append,
          List.sum_append] at hrest ⊢
        omega
  refine key _ _ (nodup_keys m) ?_
  intro e he
  obtain ⟨w, hw, hle⟩ := h e.1 e.2 (mem_toList.mp he)
  exact ⟨w, mem_toList.mpr hw, hle⟩

theorem total_erase_le (m : Table α) (k : String) (f : α → Nat) :
    total (m.erase k) f ≤ total m f := by
  refine total_le_total fun j v hj => ⟨v, ?_, Nat.le_refl _⟩
  rw [Std.ExtTreeMap.getElem?_erase] at hj
  split at hj
  · cases hj
  · exact hj

/-! ## Sweeping a table against the slots of another -/

/-- What visiting one entry does: the new value, the new content of the slot
that belongs to the entry, and what the visit reports. -/
structure Visit (α γ ε : Type) where
  value : α
  slot : Option γ
  report : List ε

/-- Fill or clear one slot. -/
def put (slots : Table γ) (k : String) : Option γ → Table γ
  | some v => slots.insert k v
  | none => slots.erase k

@[simp] theorem getElem?_put (slots : Table γ) (k j : String) (v : Option γ) :
    (put slots k v)[j]? = if k = j then v else slots[j]? := by
  cases v with
  | none => simp [put, Std.ExtTreeMap.getElem?_erase]
  | some v => simp [put, Std.ExtTreeMap.getElem?_insert]

/-- The state of a sweep: the rewritten entries, the slots, the reports. -/
structure Swept (α γ ε : Type) where
  entries : Table α
  slots : Table γ
  reports : List ε

/-- One iteration of the loop, at the entry `e`. -/
def sweepStep (slot : String → String)
    (visit : String → α → Option γ → Visit α γ ε)
    (s : Swept α γ ε) (e : String × α) : Swept α γ ε :=
  let out := visit e.1 e.2 s.slots[slot e.1]?
  { entries := s.entries.insert e.1 out.value
    slots := put s.slots (slot e.1) out.slot
    reports := s.reports ++ out.report }

/-- Visit every entry in key order, each with its own slot. -/
def sweep (slot : String → String)
    (visit : String → α → Option γ → Visit α γ ε)
    (m : Table α) (slots : Table γ) : Swept α γ ε :=
  m.toList.foldl (sweepStep slot visit) { entries := m, slots, reports := [] }

section Sweep

variable {slot : String → String} {visit : String → α → Option γ → Visit α γ ε}

/-- Entries not yet visited still see the slot they started with, because no
two entries share one. -/
private theorem foldl_sweepStep (hslot : ∀ j k, slot j = slot k → j = k) :
    ∀ (l : List (String × α)) (s : Swept α γ ε), (l.map Prod.fst).Nodup →
    (∀ k, (l.foldl (sweepStep slot visit) s).entries[k]?
        = match l.find? (·.1 == k) with
          | some e => some (visit e.1 e.2 s.slots[slot e.1]?).value
          | none => s.entries[k]?)
    ∧ (∀ j, (l.foldl (sweepStep slot visit) s).slots[j]?
        = match l.find? (slot ·.1 == j) with
          | some e => (visit e.1 e.2 s.slots[slot e.1]?).slot
          | none => s.slots[j]?)
    ∧ (l.foldl (sweepStep slot visit) s).reports
        = s.reports ++ l.flatMap fun e => (visit e.1 e.2 s.slots[slot e.1]?).report := by
  intro l
  induction l with
  | nil => intro s _; simp
  | cons e l ih =>
      intro s hnd
      rw [List.map_cons, List.nodup_cons] at hnd
      have hne : ∀ d ∈ l, e.1 ≠ d.1 := fun d hd h =>
        hnd.1 (List.mem_map.mpr ⟨d, hd, h.symm⟩)
      have hsee : ∀ d ∈ l,
          (sweepStep slot visit s e).slots[slot d.1]? = s.slots[slot d.1]? := by
        intro d hd
        have : slot e.1 ≠ slot d.1 := fun h => hne d hd (hslot _ _ h)
        simp [sweepStep, this]
      obtain ⟨he, hs, hr⟩ := ih (sweepStep slot visit s e) hnd.2
      refine ⟨fun k => ?_, fun j => ?_, ?_⟩
      · rw [List.foldl_cons, he k, List.find?_cons]
        by_cases hk : e.1 = k
        · have hl : l.find? (·.1 == k) = none := by
            rw [List.find?_eq_none]
            intro d hd
            simpa using fun h => hne d hd (hk.trans h.symm)
          simp [hl, hk, sweepStep]
        · have hb : (e.1 == k) = false := by simpa using hk
          simp only [hb]
          cases hf : l.find? (·.1 == k) with
          | some d => simp only [hsee d (List.mem_of_find?_eq_some hf)]
          | none => simp [sweepStep, Std.ExtTreeMap.getElem?_insert, hk]
      · rw [List.foldl_cons, hs j, List.find?_cons]
        by_cases hj : slot e.1 = j
        · have hl : l.find? (slot ·.1 == j) = none := by
            rw [List.find?_eq_none]
            intro d hd
            simpa using fun h => hne d hd (hslot _ _ (hj.trans h.symm))
          simp [hl, hj, sweepStep]
        · have hb : (slot e.1 == j) = false := by simpa using hj
          simp only [hb]
          cases hf : l.find? (slot ·.1 == j) with
          | some d => simp only [hsee d (List.mem_of_find?_eq_some hf)]
          | none => simp [sweepStep, hj]
      · rw [List.foldl_cons, hr, List.flatMap_cons, ← List.append_assoc]
        congr 1
        exact List.flatMap_congr fun d hd => by rw [hsee d hd]

/-- Every entry is rewritten by its own visit. -/
theorem sweep_entries (hslot : ∀ j k, slot j = slot k → j = k)
    (m : Table α) (slots : Table γ) (k : String) :
    (sweep slot visit m slots).entries[k]?
      = (m[k]?).map fun v => (visit k v slots[slot k]?).value := by
  rw [sweep, (foldl_sweepStep hslot _ _ (nodup_keys m)).1 k]
  cases hf : m.toList.find? (·.1 == k) with
  | some e =>
      have hk : e.1 = k := by simpa using List.find?_some hf
      have hm : m[e.1]? = some e.2 := mem_toList.mp (List.mem_of_find?_eq_some hf)
      subst hk
      simp [hm]
  | none =>
      cases hv : m[k]? with
      | none => simp
      | some v =>
          have := List.find?_eq_none.mp hf (k, v) (mem_toList.mpr hv)
          simp at this

/-- The slot of an entry holds what its visit left there. -/
theorem sweep_slots (hslot : ∀ j k, slot j = slot k → j = k)
    (m : Table α) (slots : Table γ) (k : String) :
    (sweep slot visit m slots).slots[slot k]?
      = match m[k]? with
        | some v => (visit k v slots[slot k]?).slot
        | none => slots[slot k]? := by
  rw [sweep, (foldl_sweepStep hslot _ _ (nodup_keys m)).2.1 (slot k)]
  cases hf : m.toList.find? (slot ·.1 == slot k) with
  | some e =>
      have hk : e.1 = k := hslot _ _ (by simpa using List.find?_some hf)
      have hm : m[e.1]? = some e.2 := mem_toList.mp (List.mem_of_find?_eq_some hf)
      subst hk
      simp [hm]
  | none =>
      cases hv : m[k]? with
      | none => rfl
      | some v =>
          have := List.find?_eq_none.mp hf (k, v) (mem_toList.mpr hv)
          simp at this

/-- A slot that belongs to no entry is left alone. -/
theorem sweep_slots_of_notMem (hslot : ∀ j k, slot j = slot k → j = k)
    (m : Table α) (slots : Table γ) {j : String} (hj : ∀ k ∈ m, slot k ≠ j) :
    (sweep slot visit m slots).slots[j]? = slots[j]? := by
  rw [sweep, (foldl_sweepStep hslot _ _ (nodup_keys m)).2.1 j]
  have hf : m.toList.find? (slot ·.1 == j) = none := by
    rw [List.find?_eq_none]
    intro e he
    simpa using hj e.1 (mem_iff_getElem?.mpr ⟨e.2, mem_toList.mp he⟩)
  rw [hf]

/-- The reports come in key order, each from the entry's own visit. -/
theorem sweep_reports (hslot : ∀ j k, slot j = slot k → j = k)
    (m : Table α) (slots : Table γ) :
    (sweep slot visit m slots).reports
      = m.toList.flatMap fun e => (visit e.1 e.2 slots[slot e.1]?).report := by
  rw [sweep, (foldl_sweepStep hslot _ _ (nodup_keys m)).2.2, List.nil_append]

end Sweep

end Table
