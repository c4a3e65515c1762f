import Mathlib.Data.List.Sort
import Mathlib.Order.Basic

/-!
# Keyset

Pages of rows in the order of their keys, cut at a key instead of at a place. A page holds
the first rows above a boundary; the next one starts above its last key, in whatever rows
there are by then. A key that is there all the time is on a page, or above the last key of
every page so far.
-/

namespace Keyset

variable {α κ : Type*} [LinearOrder κ] (key : α → κ)

/-- The rows are in the order of their keys, which are distinct. -/
def Ordered (rows : List α) : Prop :=
  rows.Pairwise fun a b => key a < key b

/-- Where the rows start that do not satisfy a predicate. -/
def position (p : α → Bool) (rows : List α) : Nat :=
  rows.findIdx fun a => !p a

/-- Without a boundary every key is above it. -/
def above (bound : Option κ) (k : κ) : Bool :=
  bound.all (· < k)

/-- The rows above a boundary. -/
def rest (bound : Option κ) (rows : List α) : List α :=
  rows.filter fun row => above bound (key row)

def page (limit : Nat) (bound : Option κ) (rows : List α) : List α :=
  (rest key bound rows).take limit

variable {key} {rows : List α} {limit : Nat} {bound : Option κ}

/-- Ordered rows are determined by which there are. -/
theorem eq_of_ordered {other : List α} (h : Ordered key rows) (hother : Ordered key other)
    (hmem : ∀ a, a ∈ rows ↔ a ∈ other) : rows = other := by
  have hantisymm : Std.Antisymm fun a b : α => key a < key b :=
    ⟨fun _ _ hab hba => absurd hab hba.asymm⟩
  have hirrefl : Std.Irrefl fun a b : α => key a < key b := ⟨fun _ => lt_irrefl _⟩
  exact List.Pairwise.eq_of_mem_iff h hother hmem

/-! ## Partition points -/

theorem Ordered.drop_position (h : Ordered key rows) {p : α → Bool}
    (hp : ∀ a b, key a < key b → p b = true → p a = true) :
    rows.drop (position p rows) = rows.filter fun a => !p a := by
  rw [position, ← List.dropWhile_eq_drop_findIdx_not]
  induction rows with
  | nil => rfl
  | cons a rows ih =>
      have hcons := List.pairwise_cons.mp h
      by_cases ha : p a = true
      · rw [List.dropWhile_cons_of_pos ha, List.filter_cons_of_neg (by simp [ha]), ih hcons.2]
      · rw [List.dropWhile_cons_of_neg ha, eq_comm, List.filter_eq_self]
        intro b hb
        rcases List.mem_cons.mp hb with rfl | hb
        · simp [ha]
        · have hnot : ¬p b = true := fun hpb => ha (hp a b (hcons.1 b hb) hpb)
          simp [hnot]

/-- The rows above a boundary are those after the last one that is not. -/
theorem Ordered.drop_boundary (h : Ordered key rows) (b : κ) :
    rows.drop (position (fun row => decide (key row ≤ b)) rows) = rest key (some b) rows := by
  rw [h.drop_position, rest]
  · refine List.filter_congr fun row _ => ?_
    rw [above, Option.all_some, ← decide_not]
    exact decide_eq_decide.mpr not_le
  · intro a c hlt hle
    exact decide_eq_true (hlt.le.trans (of_decide_eq_true hle))

theorem Ordered.lt_of_lt (h : Ordered key rows) {i j : Nat} (hij : i < j)
    (hj : j < rows.length) : key rows[i] < key rows[j] :=
  List.pairwise_iff_getElem.mp h i j (hij.trans hj) hj hij

theorem Ordered.position_lt (h : Ordered key rows) {i : Nat} (hi : i < rows.length) :
    position (fun row => decide (key row < key rows[i])) rows = i := by
  rw [position, List.findIdx_eq hi]
  refine ⟨by simp, fun j hj => ?_⟩
  simp [h.lt_of_lt hj hi]

theorem Ordered.position_le (h : Ordered key rows) {i : Nat} (hi : i < rows.length) :
    position (fun row => decide (key row ≤ key rows[i])) rows = i + 1 := by
  by_cases hnext : i + 1 < rows.length
  · rw [position, List.findIdx_eq hnext]
    refine ⟨?_, fun j hj => ?_⟩
    · simp [h.lt_of_lt (Nat.lt_succ_self i) hnext]
    · rcases Nat.lt_succ_iff_lt_or_eq.mp hj with hj | rfl
      · simp [(h.lt_of_lt hj hi).le]
      · simp
  · have hlast : i + 1 = rows.length := by omega
    rw [position, hlast, List.findIdx_eq_length]
    intro row hrow
    obtain ⟨j, hj, rfl⟩ := List.getElem_of_mem hrow
    rcases Nat.lt_or_eq_of_le (show j ≤ i by omega) with hlt | rfl
    · simp [(h.lt_of_lt hlt hi).le]
    · simp

/-! ## Pages -/

theorem above_trans {b k : κ} (hb : above bound b = true) (hk : b < k) :
    above bound k = true := by
  cases bound with
  | none => rfl
  | some c => exact decide_eq_true ((of_decide_eq_true hb).trans hk)

theorem Ordered.page (h : Ordered key rows) (limit : Nat) (bound : Option κ) :
    Ordered key (page key limit bound rows) :=
  (List.Pairwise.filter _ h).take

theorem above_of_mem_page {a : α} (h : a ∈ page key limit bound rows) :
    above bound (key a) = true :=
  (List.mem_filter.mp (List.mem_of_mem_take h)).2

theorem mem_of_mem_page {a : α} (h : a ∈ page key limit bound rows) : a ∈ rows :=
  (List.mem_filter.mp (List.mem_of_mem_take h)).1

/-- No row of a page is above its last one. -/
theorem Ordered.le_last (h : Ordered key rows) {a last : α} (ha : a ∈ rows)
    (hlast : rows.getLast? = some last) : key a ≤ key last := by
  obtain ⟨init, rfl⟩ := List.getLast?_eq_some_iff.mp hlast
  rcases List.mem_append.mp ha with ha | ha
  · exact ((List.pairwise_append.mp h).2.2 a ha last (List.mem_singleton_self last)).le
  · rw [List.mem_singleton.mp ha]

/-- Above the last row of a page is what the page left out. -/
theorem Ordered.rest_last (h : Ordered key rows) {last : α}
    (hlast : (Keyset.page key limit bound rows).getLast? = some last) :
    rest key (some (key last)) rows = (rest key bound rows).drop limit := by
  have hmem : last ∈ Keyset.page key limit bound rows := List.mem_of_getLast? hlast
  have hsplit : rest key (some (key last)) rows
      = (rest key bound rows).filter fun row => above (some (key last)) (key row) := by
    rw [rest, rest, List.filter_filter]
    refine List.filter_congr fun row _ => ?_
    by_cases hrow : above (some (key last)) (key row) = true
    · rw [hrow, above_trans (above_of_mem_page hmem) (of_decide_eq_true hrow), Bool.and_self]
    · rw [Bool.eq_false_iff.mpr hrow, Bool.false_and]
  have hrest : Ordered key (rest key bound rows) := List.Pairwise.filter _ h
  rw [hsplit]
  rw [← List.take_append_drop limit (rest key bound rows)] at hrest
  obtain ⟨-, -, hcross⟩ := List.pairwise_append.mp hrest
  conv_lhs => rw [← List.take_append_drop limit (rest key bound rows), List.filter_append]
  have htake : ((rest key bound rows).take limit).filter
      (fun row => above (some (key last)) (key row)) = [] := by
    refine List.filter_eq_nil_iff.mpr fun row hrow habove => ?_
    exact absurd (of_decide_eq_true habove)
      (not_lt.mpr ((h.page limit bound).le_last hrow hlast))
  have hdrop : ((rest key bound rows).drop limit).filter
      (fun row => above (some (key last)) (key row)) = (rest key bound rows).drop limit :=
    List.filter_eq_self.mpr fun row hrow => decide_eq_true (hcross last hmem row hrow)
  rw [htake, hdrop, List.nil_append]

/-- A row that is not on the page is above all of it, and there is a next page. -/
theorem Ordered.mem_page_or (h : Ordered key rows) {a : α} (ha : a ∈ rows)
    (habove : above bound (key a) = true) :
    a ∈ Keyset.page key limit bound rows
      ∨ limit < (rest key bound rows).length
        ∧ ∀ b ∈ Keyset.page key limit bound rows, key b < key a := by
  have hrest : Ordered key (rest key bound rows) := List.Pairwise.filter _ h
  have hmem : a ∈ rest key bound rows := List.mem_filter.mpr ⟨ha, habove⟩
  rw [← List.take_append_drop limit (rest key bound rows)] at hrest hmem
  rcases List.mem_append.mp hmem with htake | hdrop
  · exact .inl htake
  · refine .inr ⟨?_, fun b hb => (List.pairwise_append.mp hrest).2.2 b hb a hdrop⟩
    have := List.length_pos_of_mem hdrop
    rw [List.length_drop] at this
    omega

/-- What a page leaves out is above all of it. -/
theorem Ordered.exists_above_page (h : Ordered key rows)
    (hmore : limit < (rest key bound rows).length) :
    ∃ a ∈ rows, above bound (key a) = true
      ∧ ∀ b ∈ Keyset.page key limit bound rows, key b < key a := by
  have hrest : Ordered key (rest key bound rows) := List.Pairwise.filter _ h
  have hmem := List.mem_filter.mp (List.getElem_mem hmore)
  refine ⟨_, hmem.1, hmem.2, fun b hb => ?_⟩
  obtain ⟨i, hi, rfl⟩ := List.getElem_of_mem hb
  have hlt : i < limit := hi.trans_le (List.length_take_le _ _)
  simp only [Keyset.page, List.getElem_take]
  exact hrest.lt_of_lt hlt hmore

theorem length_page (hmore : limit ≤ (rest key bound rows).length) :
    (page key limit bound rows).length = limit :=
  List.length_take_of_le hmore

/-- A page is not empty when another follows it. -/
theorem page_ne_nil (hlimit : 0 < limit) (hmore : limit < (rest key bound rows).length) :
    page key limit bound rows ≠ [] :=
  List.ne_nil_of_length_pos (by rwa [length_page hmore.le])

end Keyset
