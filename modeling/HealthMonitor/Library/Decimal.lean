import Mathlib.Algebra.Order.Field.Basic
import Mathlib.Algebra.Order.Field.Rat
import Mathlib.Data.List.TakeWhile
import Mathlib.Data.Rat.Cast.Order
import Mathlib.Data.String.Basic
import Mathlib.Tactic.FieldSimp
import Mathlib.Tactic.Linarith
import Mathlib.Tactic.Positivity
import Mathlib.Tactic.Ring
import HealthMonitor.Library.Calendar

/-!
# Decimal numerals

A decimal is a whole number and a scale, `scaled u k = u / 10 ^ k`. A numeral is such
a number as it is written: sign, digits, fraction and exponent. `read_text` says that
reading a written numeral finds its number, and `plain` writes any number without an
exponent, in as many characters as its digits need.
-/

namespace Decimal

/-! ## Whole numbers and scales -/

/-- The number with the digits of `u`, the last `k` of them after the point. -/
def scaled (u k : Int) : ℚ := u * 10 ^ (-k)

theorem ten_zpow_pos (k : Int) : (0 : ℚ) < 10 ^ k := zpow_pos (by norm_num) k

theorem scaled_mul_ten_pow (u k : Int) (n : Nat) :
    scaled (u * 10 ^ n) (k + n) = scaled u k := by
  have h : (10 : ℚ) ^ (-(k + n)) = 10 ^ (-k) * (10 ^ n)⁻¹ := by
    rw [neg_add, zpow_add₀ (by norm_num), zpow_neg _ (n : Int), zpow_natCast]
  rw [scaled, h, Int.cast_mul, Int.cast_pow, Int.cast_ofNat, scaled]
  field_simp

@[simp] theorem scaled_zero_right (u : Int) : scaled u 0 = u := by simp [scaled]

@[simp] theorem scaled_zero_left (k : Int) : scaled 0 k = 0 := by simp [scaled]

theorem abs_scaled (u k : Int) : |scaled u k| = scaled |u| k := by
  rw [scaled, scaled, abs_mul, abs_of_pos (ten_zpow_pos _), Int.cast_abs]

/-- The same number with more digits after the point. -/
theorem scaled_of_le (u : Int) {k m : Int} (h : k ≤ m) :
    scaled (u * 10 ^ (m - k).toNat) m = scaled u k := by
  have hm : m = k + (m - k).toNat := by omega
  conv_lhs => rw [hm]
  rw [← scaled_mul_ten_pow u k (m - k).toNat, add_sub_cancel_left, Int.toNat_natCast]

theorem scaled_add (u v k : Int) : scaled (u + v) k = scaled u k + scaled v k := by
  rw [scaled, scaled, scaled, Int.cast_add, add_mul]

theorem scaled_mul (u v k m : Int) : scaled (u * v) (k + m) = scaled u k * scaled v m := by
  rw [scaled, scaled, scaled, neg_add, zpow_add₀ (by norm_num), Int.cast_mul]
  ring

theorem scaled_le_scaled_iff {u v k : Int} : scaled u k ≤ scaled v k ↔ u ≤ v := by
  rw [scaled, scaled, mul_le_mul_iff_left₀ (ten_zpow_pos _), Int.cast_le]

theorem scaled_inj {u v k : Int} : scaled u k = scaled v k ↔ u = v := by
  rw [scaled, scaled, mul_left_inj' (ten_zpow_pos _).ne', Int.cast_inj]

/-- A number without trailing zeros is written with the fewest digits after the point. -/
theorem scale_le_of_scaled_eq {u k u' k' : Int} (h : scaled u k = scaled u' k')
    (hu : ¬ 10 ∣ u) : k ≤ k' := by
  by_contra hlt
  obtain ⟨n, hn⟩ : ∃ n : Nat, k = k' + (n + 1 : Nat) := ⟨(k - k' - 1).toNat, by omega⟩
  rw [hn, ← scaled_mul_ten_pow u' k' (n + 1), scaled, scaled] at h
  have heq := mul_right_cancel₀ (ten_zpow_pos _).ne' h
  refine hu ⟨u' * 10 ^ n, ?_⟩
  have hint : u = u' * 10 ^ (n + 1) := by exact_mod_cast heq
  rw [hint, pow_succ]
  ring

/-! ## Numerals -/

def signText : Option Bool → List Char
  | none => []
  | some true => ['-']
  | some false => ['+']

def signed (sign : Option Bool) (n : Nat) : Int := if sign = some true then -n else n

structure Exponent where
  letter : Char
  sign : Option Bool
  digits : List Char

namespace Exponent

def text (e : Exponent) : List Char := e.letter :: (signText e.sign ++ e.digits)

def value (e : Exponent) : Int := signed e.sign (Nat.ofDigitChars 10 e.digits 0)

structure WellFormed (e : Exponent) : Prop where
  letter : e.letter = 'e' ∨ e.letter = 'E'
  digits : ∀ c ∈ e.digits, c.isDigit = true
  some : e.digits ≠ []

end Exponent

/-- A numeral as it is written; `true` is the minus sign. -/
structure Numeral where
  sign : Option Bool
  whole : List Char
  fraction : Option (List Char)
  exponent : Option Exponent

namespace Numeral

def trail (n : Numeral) : List Char := n.fraction.getD []

/-- Sign, digits and fraction. -/
def baseText (n : Numeral) : List Char :=
  signText n.sign ++ n.whole ++ n.fraction.elim [] ('.' :: ·)

def text (n : Numeral) : List Char := n.baseText ++ n.exponent.elim [] Exponent.text

def unscaled (n : Numeral) : Int := signed n.sign (Nat.ofDigitChars 10 (n.whole ++ n.trail) 0)

def scale (n : Numeral) : Int := n.trail.length - n.exponent.elim 0 Exponent.value

/-- The number the numeral denotes. -/
def value (n : Numeral) : ℚ := scaled n.unscaled n.scale

structure WellFormed (n : Numeral) : Prop where
  whole : ∀ c ∈ n.whole, c.isDigit = true
  trail : ∀ c ∈ n.trail, c.isDigit = true
  some : n.whole ++ n.trail ≠ []
  exponent : ∀ e ∈ n.exponent, e.WellFormed

end Numeral

/-! ## Reading -/

section

variable {α : Type} (p : α → Bool)

/-- The list before the first element with `p`, and the list after it if there is one. -/
def splitFirst (l : List α) : List α × Option (List α) :=
  match l.dropWhile (!p ·) with
  | [] => (l, none)
  | _ :: rest => (l.takeWhile (!p ·), some rest)

theorem splitFirst_none {l : List α} (h : ∀ a ∈ l, p a = false) : splitFirst p l = (l, none) := by
  have : l.dropWhile (!p ·) = [] := List.dropWhile_eq_nil_iff.mpr (by simpa using h)
  rw [splitFirst, this]

theorem splitFirst_append {l rest : List α} {a : α} (h : ∀ a ∈ l, p a = false) (ha : p a = true) :
    splitFirst p (l ++ a :: rest) = (l, some rest) := by
  have hl : ∀ b ∈ l, (!p b) = true := by simpa using h
  have hdrop : (l ++ a :: rest).dropWhile (!p ·) = a :: rest := by
    rw [List.dropWhile_append_of_pos hl, List.dropWhile_cons_of_neg (by simp [ha])]
  have htake : (l ++ a :: rest).takeWhile (!p ·) = l := by
    rw [List.takeWhile_append_of_pos hl, List.takeWhile_cons_of_neg (by simp [ha]),
      List.append_nil]
  rw [splitFirst, hdrop, htake]

end

/-- Split off a leading sign. -/
def unsign : List Char → Option Bool × List Char
  | '-' :: rest => (some true, rest)
  | '+' :: rest => (some false, rest)
  | l => (none, l)

/-- A whole number: an optional sign and at least one digit. -/
def readInt (l : List Char) : Option Int :=
  if (unsign l).2 ≠ [] ∧ (unsign l).2.all Char.isDigit then
    some (signed (unsign l).1 (Nat.ofDigitChars 10 (unsign l).2 0))
  else none

/-- The whole number and the scale of a numeral: the point is taken out of the digits,
which are then read as one whole number. -/
def read (l : List Char) : Option (Int × Int) :=
  let base := splitFirst (fun c => c == 'e' || c == 'E') l
  let parts := splitFirst (· == '.') base.1
  let trail := parts.2.getD []
  match base.2.elim (some 0) readInt, readInt (parts.1 ++ trail) with
  | some exponent, some u => some (u, trail.length - exponent)
  | _, _ => none

theorem unsign_signText {sign : Option Bool} {l : List Char} (h : ∀ c ∈ l, c.isDigit = true) :
    unsign (signText sign ++ l) = (sign, l) := by
  cases sign with
  | some s => cases s <;> rfl
  | none =>
      cases l with
      | nil => rfl
      | cons c l =>
          have hc : c.isDigit = true := h c List.mem_cons_self
          rw [signText, List.nil_append, unsign]
          · rintro rest ⟨⟩
            exact absurd hc (by decide)
          · rintro rest ⟨⟩
            exact absurd hc (by decide)

theorem readInt_signText {sign : Option Bool} {l : List Char} (h : ∀ c ∈ l, c.isDigit = true)
    (hl : l ≠ []) :
    readInt (signText sign ++ l) = some (signed sign (Nat.ofDigitChars 10 l 0)) := by
  rw [readInt, unsign_signText h, if_pos ⟨hl, List.all_eq_true.mpr h⟩]

theorem signText_ne {sign : Option Bool} :
    ∀ c ∈ signText sign, (c == 'e' || c == 'E') = false ∧ (c == '.') = false := by
  cases sign with
  | none => simp [signText]
  | some s => cases s <;> simp [signText]

theorem digit_ne {c : Char} (h : c.isDigit = true) :
    (c == 'e' || c == 'E') = false ∧ (c == '.') = false := by
  refine ⟨Bool.eq_false_iff.mpr fun hc => ?_, Bool.eq_false_iff.mpr fun hc => ?_⟩
  · rw [Bool.or_eq_true, beq_iff_eq, beq_iff_eq] at hc
    obtain rfl | rfl := hc <;> exact absurd h (by decide)
  · rw [beq_iff_eq] at hc
    subst hc
    exact absurd h (by decide)

namespace Numeral

variable {n : Numeral}

/-- Before the fraction there is no point. -/
theorem splitFirst_baseText (h : n.WellFormed) :
    splitFirst (· == '.') n.baseText = (signText n.sign ++ n.whole, n.fraction) := by
  have hlead : ∀ c ∈ signText n.sign ++ n.whole, (c == '.') = false := by
    intro c hc
    obtain hc | hc := List.mem_append.mp hc
    · exact (signText_ne c hc).2
    · exact (digit_ne (h.whole c hc)).2
  rw [baseText]
  cases n.fraction with
  | none => rw [Option.elim_none, List.append_nil, splitFirst_none _ hlead]
  | some f => rw [Option.elim_some, splitFirst_append _ hlead (by rfl)]

theorem baseText_ne (h : n.WellFormed) :
    ∀ c ∈ n.baseText, (c == 'e' || c == 'E') = false := by
  intro c hc
  rw [baseText, List.mem_append, List.mem_append] at hc
  obtain (hc | hc) | hc := hc
  · exact (signText_ne c hc).1
  · exact (digit_ne (h.whole c hc)).1
  · have htrail := h.trail
    rw [trail] at htrail
    cases hf : n.fraction with
    | none =>
        rw [hf] at hc
        cases hc
    | some f =>
        rw [hf, Option.elim_some, List.mem_cons] at hc
        rw [hf, Option.getD_some] at htrail
        obtain rfl | hc := hc
        · rfl
        · exact (digit_ne (htrail c hc)).1

theorem text_eq_baseText (h : n.exponent = none) : n.text = n.baseText := by
  rw [text, h, Option.elim_none, List.append_nil]

theorem splitFirst_text (h : n.WellFormed) :
    splitFirst (fun c => c == 'e' || c == 'E') n.text
      = (n.baseText, n.exponent.map fun e => signText e.sign ++ e.digits) := by
  rw [text]
  cases he : n.exponent with
  | none =>
      rw [Option.elim_none, List.append_nil, splitFirst_none _ (baseText_ne h)]
      rfl
  | some e =>
      have hletter : (e.letter == 'e' || e.letter == 'E') = true := by
        simpa using (h.exponent e he).letter
      rw [Option.elim_some, Exponent.text, splitFirst_append _ (baseText_ne h) hletter]
      rfl

/-- A written numeral is read as the number it denotes. -/
theorem read_text (h : n.WellFormed) : read n.text = some (n.unscaled, n.scale) := by
  have hdigits : ∀ c ∈ n.whole ++ n.trail, c.isDigit = true := by
    intro c hc
    exact (List.mem_append.mp hc).elim (h.whole c) (h.trail c)
  have hint : readInt (signText n.sign ++ n.whole ++ n.trail) = some n.unscaled := by
    rw [List.append_assoc, readInt_signText hdigits h.some, unscaled]
  have hexp : (n.exponent.map fun e => signText e.sign ++ e.digits).elim (some 0) readInt
      = some (n.exponent.elim 0 Exponent.value) := by
    cases he : n.exponent with
    | none => rfl
    | some e =>
        exact readInt_signText (h.exponent e he).digits (h.exponent e he).some
  simp only [read, splitFirst_text h, splitFirst_baseText h]
  rw [← trail, hint, hexp]
  rfl

end Numeral

/-! ## Writing -/

/-- A number without an exponent: its digits, with zeros up to the point where the scale
is negative, and the last `k` of them after the point where it is positive. -/
def plain (u k : Int) : Numeral where
  sign := if u < 0 then some true else none
  whole := Nat.toDigits 10 (u.natAbs * 10 ^ (-k).toNat / 10 ^ k.toNat)
  fraction := if 0 < k then some (Calendar.digits k.toNat (u.natAbs % 10 ^ k.toNat)) else none
  exponent := none

theorem ofDigitChars_digits (k n init : Nat) (h : n < 10 ^ k) :
    Nat.ofDigitChars 10 (Calendar.digits k n) init = 10 ^ k * init + n := by
  induction k generalizing n with
  | zero =>
      have : n = 0 := by simpa using h
      simp [Calendar.digits, this]
  | succ k ih =>
      have hq : n / 10 < 10 ^ k := by
        rw [pow_succ] at h
        omega
      rw [Calendar.digits, Nat.ofDigitChars_append, ih _ hq,
        Nat.ofDigitChars_cons_digitChar_of_lt_ten (Nat.mod_lt _ (by decide)),
        Nat.ofDigitChars_nil, pow_succ, Nat.mul_add, ← Nat.mul_assoc, Nat.mul_comm 10 (10 ^ k)]
      omega

theorem length_trail_plain (u k : Int) : (plain u k).trail.length = k.toNat := by
  rw [Numeral.trail, plain]
  by_cases hk : 0 < k
  · rw [if_pos hk, Option.getD_some, Calendar.length_digits]
  · rw [if_neg hk, Option.getD_none, List.length_nil]
    omega

theorem wellFormed_plain (u k : Int) : (plain u k).WellFormed where
  whole := fun c hc => Nat.isDigit_of_mem_toDigits (by decide) (by decide) hc
  trail := by
    rw [Numeral.trail, plain]
    by_cases hk : 0 < k
    · rw [if_pos hk, Option.getD_some]
      exact Calendar.digits_isDigit _ _
    · rw [if_neg hk]
      simp
  some := by
    rw [plain]
    exact List.append_ne_nil_of_left_ne_nil Nat.toDigits_ne_nil _
  exponent := by simp [plain]

/-- The digits of a plain numeral are those of the number, with the zeros up to the point. -/
theorem unscaled_plain (u k : Int) : (plain u k).unscaled = u * 10 ^ (-k).toNat := by
  have hdigits : Nat.ofDigitChars 10 ((plain u k).whole ++ (plain u k).trail) 0
      = u.natAbs * 10 ^ (-k).toNat := by
    rw [Nat.ofDigitChars_append, Numeral.trail]
    simp only [plain, Nat.ofDigitChars_ten_toDigits]
    by_cases hk : 0 < k
    · have hneg : (-k).toNat = 0 := by omega
      rw [if_pos hk, Option.getD_some, hneg, pow_zero, Nat.mul_one,
        ofDigitChars_digits _ _ _ (Nat.mod_lt _ (by positivity)), Nat.div_add_mod]
    · have hpos : k.toNat = 0 := by omega
      rw [if_neg hk, Option.getD_none, Nat.ofDigitChars_nil, hpos, pow_zero, Nat.div_one]
  rw [Numeral.unscaled, hdigits, signed, plain]
  by_cases hu : u < 0
  · have habs : (u.natAbs : Int) = -u := by omega
    rw [if_pos (by rw [if_pos hu]), Nat.cast_mul, habs, Nat.cast_pow]
    ring
  · have habs : (u.natAbs : Int) = u := by omega
    rw [if_neg (by rw [if_neg hu]; simp), Nat.cast_mul, habs, Nat.cast_pow]
    rfl

theorem scale_plain (u k : Int) : (plain u k).scale = k.toNat := by
  rw [Numeral.scale, length_trail_plain, plain, Option.elim_none, sub_zero]

/-- What is written is the number. -/
theorem value_plain (u k : Int) : (plain u k).value = scaled u k := by
  rw [Numeral.value, unscaled_plain, scale_plain]
  have hk : (k.toNat : Int) = k + (-k).toNat := by omega
  rw [hk, scaled_mul_ten_pow]

theorem utf8ByteSize_eq_length {l : List Char} (h : ∀ c ∈ l, c.val ≤ 127) :
    (String.ofList l).utf8ByteSize = l.length := by
  rw [String.utf8ByteSize_ofList]
  induction l with
  | nil => rfl
  | cons c l ih =>
      rw [String.utf8Len, ih fun d hd => h d (List.mem_cons_of_mem _ hd),
        Char.utf8Size_eq_one_iff.mpr (h c List.mem_cons_self), List.length_cons]

theorem mem_text_plain (u k : Int) :
    ∀ c ∈ (plain u k).text, c.isDigit = true ∨ c = '.' ∨ c = '-' := by
  have h := wellFormed_plain u k
  intro c hc
  rw [Numeral.text, Numeral.baseText, List.mem_append, List.mem_append, List.mem_append] at hc
  obtain ((hc | hc) | hc) | hc := hc
  · rw [plain] at hc
    by_cases hu : u < 0
    · rw [if_pos hu, signText, List.mem_singleton] at hc
      exact Or.inr (Or.inr hc)
    · rw [if_neg hu] at hc
      cases hc
  · exact Or.inl (h.whole c hc)
  · have htrail := h.trail
    rw [Numeral.trail] at htrail
    cases hf : (plain u k).fraction with
    | none =>
        rw [hf] at hc
        cases hc
    | some f =>
        rw [hf, Option.elim_some, List.mem_cons] at hc
        rw [hf, Option.getD_some] at htrail
        exact hc.elim (fun hc => Or.inr (Or.inl hc)) fun hc => Or.inl (htrail c hc)
  · cases hc

/-- A number below `10 ^ most` is written with `most` digits before the point at most. -/
theorem length_whole_plain {u k : Int} {most : Nat} (hmost : 0 < most)
    (h : |scaled u k| < 10 ^ most) : (plain u k).whole.length ≤ most := by
  rw [plain, Nat.length_toDigits_le_iff (by decide) hmost, Nat.div_lt_iff_lt_mul (by positivity)]
  have hk : k + (-k).toNat = k.toNat := by omega
  rw [abs_scaled, ← scaled_mul_ten_pow _ _ (-k).toNat, hk, scaled, zpow_neg, zpow_natCast,
    ← div_eq_mul_inv, div_lt_iff₀ (by positivity), Int.abs_eq_natAbs] at h
  exact_mod_cast h

theorem length_text_plain {u k : Int} {most : Nat} (hmost : 0 < most)
    (h : |scaled u k| < 10 ^ most) : (plain u k).text.length ≤ most + k.toNat + 2 := by
  have hwhole := length_whole_plain hmost h
  have htrail := length_trail_plain u k
  have hsign : (signText (plain u k).sign).length ≤ 1 := by
    cases (plain u k).sign with
    | none => decide
    | some s => cases s <;> decide
  have hfraction : ((plain u k).fraction.elim [] ('.' :: ·)).length ≤ k.toNat + 1 := by
    rw [Numeral.trail] at htrail
    cases hf : (plain u k).fraction with
    | none => exact Nat.zero_le _
    | some f =>
        rw [hf, Option.getD_some] at htrail
        rw [Option.elim_some, List.length_cons, htrail]
  have hexponent : (plain u k).exponent.elim [] Exponent.text = [] := rfl
  rw [Numeral.text, Numeral.baseText, hexponent, List.length_append, List.length_append,
    List.length_append, List.length_nil]
  omega

theorem ascii_of_isDigit {c : Char} (h : c.isDigit = true) : c.val ≤ 127 := by
  rw [Char.isDigit, Bool.and_eq_true, decide_eq_true_iff, decide_eq_true_iff] at h
  exact UInt32.le_trans h.2 (by decide)

theorem text_plain_ne_nil (u k : Int) : (plain u k).text ≠ [] := by
  rw [Numeral.text, Numeral.baseText]
  exact List.append_ne_nil_of_left_ne_nil (List.append_ne_nil_of_left_ne_nil
    (List.append_ne_nil_of_right_ne_nil _ Nat.toDigits_ne_nil) _) _

/-- A plain text is as many bytes as characters. -/
theorem utf8ByteSize_text_plain (u k : Int) :
    (String.ofList (plain u k).text).utf8ByteSize = (plain u k).text.length := by
  refine utf8ByteSize_eq_length fun c hc => ?_
  obtain h | rfl | rfl := mem_text_plain u k c hc
  · exact ascii_of_isDigit h
  · decide
  · decide

/-! ## Trailing zeros -/

/-- Take trailing zeros off, `fuel` of them at most. -/
def stripLoop : Nat → Int → Int → Int × Int
  | 0, u, k => (u, k)
  | fuel + 1, u, k => if u % 10 = 0 then stripLoop fuel (u / 10) (k - 1) else (u, k)

/-- The same number without trailing zeros; zero has the scale `0`. -/
def strip (u k : Int) : Int × Int := if u = 0 then (0, 0) else stripLoop u.natAbs u k

theorem stripLoop_spec {fuel : Nat} {u : Int} (k : Int) (hu : u ≠ 0) (hf : u.natAbs ≤ fuel) :
    scaled (stripLoop fuel u k).1 (stripLoop fuel u k).2 = scaled u k
      ∧ ¬ 10 ∣ (stripLoop fuel u k).1 := by
  induction fuel generalizing u k with
  | zero => omega
  | succ fuel ih =>
      rw [stripLoop]
      by_cases h : u % 10 = 0
      · have hten : u / 10 * 10 ^ 1 = u := by omega
        obtain ⟨hvalue, hlast⟩ := ih (k - 1) (u := u / 10) (by omega) (by omega)
        rw [if_pos h, hvalue]
        refine ⟨?_, hlast⟩
        have hstep := scaled_mul_ten_pow (u / 10) (k - 1) 1
        rw [hten, Nat.cast_one, sub_add_cancel] at hstep
        exact hstep.symm
      · rw [if_neg h]
        exact ⟨rfl, fun hd => h (Int.emod_eq_zero_of_dvd hd)⟩

theorem scaled_strip (u k : Int) : scaled (strip u k).1 (strip u k).2 = scaled u k := by
  rw [strip]
  by_cases hu : u = 0
  · rw [if_pos hu, hu, scaled_zero_left, scaled_zero_left]
  · rw [if_neg hu]
    exact (stripLoop_spec k hu le_rfl).1

theorem strip_last {u : Int} (k : Int) (hu : u ≠ 0) : ¬ 10 ∣ (strip u k).1 := by
  rw [strip, if_neg hu]
  exact (stripLoop_spec k hu le_rfl).2

end Decimal
