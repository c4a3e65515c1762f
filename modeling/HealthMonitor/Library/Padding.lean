import Mathlib.Data.List.DropRight

/-!
# Padding

Taking the padding off both ends of a list. What is between the padding comes back as
long as it neither starts nor ends with padding itself.
-/

namespace Padding

/-- The characters `str::trim` removes: those with the property White_Space. -/
def isWhitespace (c : Char) : Bool :=
  let n := c.toNat
  9 ≤ n && n ≤ 13 || n == 0x20 || n == 0x85 || n == 0xA0 || n == 0x1680
    || 0x2000 ≤ n && n ≤ 0x200A || n == 0x2028 || n == 0x2029 || n == 0x202F || n == 0x205F
    || n == 0x3000

theorem toNat_toLower (c : Char) :
    c.toLower.toNat = if 65 ≤ c.toNat ∧ c.toNat ≤ 90 then c.toNat + 32 else c.toNat := by
  have hupper : (c.val ≥ 'A'.val ∧ c.val ≤ 'Z'.val) ↔ (65 ≤ c.toNat ∧ c.toNat ≤ 90) := by
    rw [ge_iff_le, UInt32.le_iff_toNat_le, UInt32.le_iff_toNat_le]
    exact Iff.rfl
  unfold Char.toLower
  by_cases h : 65 ≤ c.toNat ∧ c.toNat ≤ 90
  · rw [dif_pos (hupper.mpr h), if_pos h]
    show (c.val + 32).toNat = c.val.toNat + 32
    have hle : c.val.toNat ≤ 90 := h.2
    rw [UInt32.toNat_add]
    show (c.val.toNat + 32) % 4294967296 = _
    omega
  · rw [dif_neg (hupper.not.mpr h), if_neg h]

/-- Only letters are changed to lower case. -/
theorem toLower_eq_iff {c d : Char} (h : d.toNat < 97) (hd : d.isUpper = false) :
    c.toLower = d ↔ c = d := by
  rw [← Char.toNat_inj, ← Char.toNat_inj, toNat_toLower]
  split
  · have hd' : ¬(65 ≤ d.toNat ∧ d.toNat ≤ 90) := by
      rintro ⟨hlow, hhigh⟩
      refine absurd hd (Bool.not_eq_false _ ▸ decide_eq_true ?_)
      exact ⟨UInt32.le_iff_toNat_le.mpr hlow, UInt32.le_iff_toNat_le.mpr hhigh⟩
    omega
  · exact Iff.rfl

/-- Lower case is not changed again. -/
theorem toLower_toLower (c : Char) : c.toLower.toLower = c.toLower := by
  rw [← Char.toNat_inj, toNat_toLower c.toLower, if_neg]
  rw [toNat_toLower]
  split <;> omega

section

variable {α : Type} (p : α → Bool)

def trim (l : List α) : List α := (l.dropWhile p).rdropWhile p

/-- Neither end is padding. -/
def Tight (l : List α) : Prop := (∀ a ∈ l.head?, p a = false) ∧ ∀ a ∈ l.getLast?, p a = false

variable {p} {l pad pad' : List α}

theorem dropWhile_pad (hpad : ∀ a ∈ pad, p a = true) : (pad ++ l).dropWhile p = l.dropWhile p := by
  induction pad with
  | nil => rfl
  | cons a pad ih =>
      rw [List.cons_append, List.dropWhile_cons_of_pos (hpad a List.mem_cons_self)]
      exact ih fun b hb => hpad b (List.mem_cons_of_mem _ hb)

theorem rdropWhile_pad (hpad : ∀ a ∈ pad, p a = true) :
    (l ++ pad).rdropWhile p = l.rdropWhile p := by
  rw [List.rdropWhile, List.reverse_append, dropWhile_pad fun a ha => hpad a (by simpa using ha),
    List.rdropWhile]

theorem dropWhile_eq_self (h : ∀ a ∈ l.head?, p a = false) : l.dropWhile p = l := by
  cases l with
  | nil => rfl
  | cons a l => rw [List.dropWhile_cons_of_neg (by simp [h a rfl])]

/-- Padding alone is trimmed away. -/
theorem trim_blank (hpad : ∀ a ∈ pad, p a = true) : trim p pad = [] := by
  have := dropWhile_pad (l := []) hpad
  rw [List.append_nil] at this
  rw [trim, this]
  rfl

/-- What is between the padding comes back. -/
theorem trim_pad (hpad : ∀ a ∈ pad, p a = true) (hpad' : ∀ a ∈ pad', p a = true)
    (h : Tight p l) : trim p (pad ++ l ++ pad') = l := by
  cases l with
  | nil =>
      rw [List.append_nil]
      refine trim_blank fun a ha => ?_
      exact (List.mem_append.mp ha).elim (hpad a) (hpad' a)
  | cons a l =>
      have hhead : ∀ b ∈ (a :: l ++ pad').head?, p b = false := h.1
      rw [trim, List.append_assoc, dropWhile_pad hpad, dropWhile_eq_self hhead,
        rdropWhile_pad hpad', List.rdropWhile, dropWhile_eq_self, List.reverse_reverse]
      rw [List.head?_reverse]
      exact h.2

theorem tight_of_forall (h : ∀ a ∈ l, p a = false) : Tight p l :=
  ⟨fun a ha => h a (List.mem_of_head? ha), fun a ha => h a (List.mem_of_getLast? ha)⟩

/-! ## Separators -/

theorem head?_intercalate {sep : List α} {ls : List (List α)} (h : ∀ l ∈ ls.head?, l ≠ []) :
    (sep.intercalate ls).head? = ls.head?.bind List.head? := by
  cases ls with
  | nil => rfl
  | cons l ls =>
      have hl : l ≠ [] := h l rfl
      cases ls with
      | nil => rw [List.intercalate_singleton, List.head?_cons, Option.bind_some]
      | cons m ls =>
          rw [List.intercalate_cons_cons, List.append_assoc, List.head?_append_of_ne_nil _ hl,
            List.head?_cons, Option.bind_some]

theorem getLast?_intercalate {sep : List α} {ls : List (List α)} (h : ∀ l ∈ ls.getLast?, l ≠ []) :
    (sep.intercalate ls).getLast? = ls.getLast?.bind List.getLast? := by
  induction ls with
  | nil => rfl
  | cons l ls ih =>
      cases ls with
      | nil => rw [List.intercalate_singleton, List.getLast?_singleton, Option.bind_some]
      | cons m ls =>
          rw [List.getLast?_cons_cons] at h ⊢
          have hlast := List.getLast?_eq_some_getLast (List.cons_ne_nil m ls)
          have hne := h _ hlast
          rw [List.intercalate_cons_cons, List.getLast?_append, ih h, hlast, Option.bind_some,
            List.getLast?_eq_some_getLast hne, Option.some_or]

/-- Texts without the separator are tight between separators when the outer ones are not
empty. -/
theorem tight_intercalate [BEq α] [LawfulBEq α] {a : α} {ls : List (List α)}
    (h : ∀ l ∈ ls, a ∉ l) (hfirst : ∀ l ∈ ls.head?, l ≠ []) (hlast : ∀ l ∈ ls.getLast?, l ≠ []) :
    Tight (· == a) ([a].intercalate ls) := by
  constructor
  · intro b hb
    rw [head?_intercalate hfirst] at hb
    obtain ⟨l, hl, hb⟩ := Option.bind_eq_some_iff.mp hb
    refine beq_false_of_ne fun heq => h l (List.mem_of_head? hl) ?_
    exact heq ▸ List.mem_of_head? hb
  · intro b hb
    rw [getLast?_intercalate hlast] at hb
    obtain ⟨l, hl, hb⟩ := Option.bind_eq_some_iff.mp hb
    refine beq_false_of_ne fun heq => h l (List.mem_of_getLast? hl) ?_
    exact heq ▸ List.mem_of_getLast? hb

end

theorem isAlphanum_range {c : Char} (h : c.isAlphanum = true) :
    48 ≤ c.toNat ∧ c.toNat ≤ 57 ∨ 65 ≤ c.toNat ∧ c.toNat ≤ 90 ∨
      97 ≤ c.toNat ∧ c.toNat ≤ 122 := by
  delta Char.isAlphanum Char.isAlpha Char.isUpper Char.isLower Char.isDigit at h
  simp only [Bool.or_eq_true, Bool.and_eq_true, decide_eq_true_eq, ge_iff_le,
    UInt32.le_iff_toNat_le] at h
  change (65 ≤ c.toNat ∧ c.toNat ≤ 90 ∨ 97 ≤ c.toNat ∧ c.toNat ≤ 122) ∨
    48 ≤ c.toNat ∧ c.toNat ≤ 57 at h
  omega

theorem toNat_of_isAlphanum {c : Char} (h : c.isAlphanum = true) :
    48 ≤ c.toNat ∧ c.toNat ≤ 122 := by
  have hrange := isAlphanum_range h
  omega

end Padding
