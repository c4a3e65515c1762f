import Mathlib.Data.String.Basic
import HealthMonitor.Library.Decimal

/-!
# Amounts

Exact amounts of money. The decimals they are kept in are a parameter: `Decimals` lists
the operations, and `Decimals.Exact` says that they compute on decimals as numbers and
write them plainly.
-/

namespace HealthMonitor.Costs

open Decimal (Numeral scaled plain)

/-! ## Decimals -/

/-- Arbitrary-precision decimals. -/
structure Decimals (D : Type) where
  parse : String → Option D
  toPlainString : D → String
  ofNat : Nat → D
  add : D → D → D
  mul : D → D → D
  abs : D → D
  normalized : D → D
  ge : D → D → Bool
  eq : D → D → Bool
  fractionalDigitCount : D → Int

namespace Decimals

variable {D : Type} (ops : Decimals D)

/-- The number a decimal stands for, whose digits are `unscaled`. -/
def value (unscaled : D → Int) (d : D) : ℚ := scaled (unscaled d) (ops.fractionalDigitCount d)

/-- The operations are those of numbers, `normalized` leaves no trailing zeros, and reading
and writing keep every digit. -/
structure Exact (unscaled : D → Int) : Prop where
  ofNat_digits : ∀ n : Nat, unscaled (ops.ofNat n) = n
  ofNat_count : ∀ n, ops.fractionalDigitCount (ops.ofNat n) = 0
  add : ∀ a b, ops.value unscaled (ops.add a b) = ops.value unscaled a + ops.value unscaled b
  add_count : ∀ a b, ops.fractionalDigitCount (ops.add a b)
    ≤ max (ops.fractionalDigitCount a) (ops.fractionalDigitCount b)
  mul : ∀ a b, ops.value unscaled (ops.mul a b) = ops.value unscaled a * ops.value unscaled b
  abs : ∀ a, ops.value unscaled (ops.abs a) = |ops.value unscaled a|
  ge : ∀ a b, ops.ge a b = true ↔ ops.value unscaled b ≤ ops.value unscaled a
  eq : ∀ a b, ops.eq a b = true ↔ ops.value unscaled a = ops.value unscaled b
  normalized : ∀ a, ops.value unscaled (ops.normalized a) = ops.value unscaled a
  normalized_last : ∀ a, unscaled a ≠ 0 → ¬ 10 ∣ unscaled (ops.normalized a)
  normalized_zero : ∀ a, unscaled a = 0 → ops.fractionalDigitCount (ops.normalized a) = 0
  toPlainString : ∀ a, unscaled a ≠ 0 ∨ ops.fractionalDigitCount a = 0 →
    ops.toPlainString a = String.ofList (plain (unscaled a) (ops.fractionalDigitCount a)).text
  parse : ∀ n : Numeral, n.WellFormed → ∀ d, ops.parse (String.ofList n.text) = some d →
    unscaled d = n.unscaled ∧ ops.fractionalDigitCount d = n.scale
  parse_plain : ∀ n : Numeral, n.WellFormed → n.whole ≠ [] → n.exponent = none →
    ∃ d, ops.parse (String.ofList n.text) = some d

end Decimals

/-! ## The source -/

inductive Error where
  | configuration | query | amount | limit | record | revision
  deriving DecidableEq, Repr

/-- `i32::from_str`. -/
def readI32 (s : List Char) : Option Int :=
  (Decimal.readInt s).filter fun n => decide (-2147483648 ≤ n) && decide (n ≤ 2147483647)

structure Amount (D : Type) where
  decimal : D

namespace Amount

variable {D : Type} (ops : Decimals D)

def zero : Amount D := ⟨ops.ofNat 0⟩

/-- Twenty digits before the point and 38 after it. -/
def fromDecimal (value : D) : Except Error (Amount D) :=
  if decide (38 < ops.fractionalDigitCount value)
      || ops.ge (ops.abs value) (ops.mul (ops.ofNat 10000000000000000000) (ops.ofNat 10)) then
    .error .amount
  else .ok ⟨ops.normalized value⟩

/-- The text of an amount as a provider writes it. -/
def provider (value : String) : Except Error (Amount D) :=
  if decide (64 < value.utf8ByteSize) || value.isEmpty
      || value.toList.any fun c => !c.isDigit && !(['.', '+', '-', 'e', 'E'].contains c) then
    .error .amount
  else if (Decimal.splitFirst (fun c => c == 'e' || c == 'E') value.toList).2.any
      fun exponent => !(readI32 exponent).any fun e => decide (e.natAbs ≤ 38) then
    .error .amount
  else
    match ops.parse value with
    | none => .error .amount
    | some value => fromDecimal ops value

def add (a b : Amount D) : Except Error (Amount D) := fromDecimal ops (ops.add a.decimal b.decimal)

def tryFrom (value : String) : Except Error (Amount D) :=
  if value.isEmpty || decide (60 < value.utf8ByteSize)
      || (Decimal.splitFirst (· == '.') value.toList).2.any
        (fun fraction => decide (38 < (String.ofList fraction).utf8ByteSize))
      || value.toList.any fun c => !c.isDigit && c != '.' && c != '-' then
    .error .amount
  else
    match ops.parse value with
    | none => .error .amount
    | some value => fromDecimal ops value

def toText (a : Amount D) : String := ops.toPlainString a.decimal

/-- `PartialEq`. -/
def eq (a b : Amount D) : Bool := ops.eq a.decimal b.decimal

/-- The amounts the operations give. -/
inductive Obtainable : Amount D → Prop
  | zero : Obtainable (zero ops)
  | provider (s : String) {a : Amount D} : provider ops s = .ok a → Obtainable a
  | fromDecimal (d : D) {a : Amount D} : fromDecimal ops d = .ok a → Obtainable a
  | add {a b c : Amount D} : Obtainable a → Obtainable b → add ops a b = .ok c → Obtainable c

/-! ## Amounts as numbers -/

section

variable {ops} {unscaled : D → Int} (h : ops.Exact unscaled)
include h

/-- The bound the source writes as a product. -/
theorem limit_value :
    ops.value unscaled (ops.mul (ops.ofNat 10000000000000000000) (ops.ofNat 10)) = 10 ^ 20 := by
  rw [h.mul, Decimals.value, Decimals.value, h.ofNat_digits, h.ofNat_digits, h.ofNat_count,
    h.ofNat_count, Decimal.scaled_zero_right, Decimal.scaled_zero_right]
  norm_num

theorem fromDecimal_eq_ok_iff {d : D} {a : Amount D} :
    fromDecimal ops d = .ok a ↔
      ops.fractionalDigitCount d ≤ 38 ∧ |ops.value unscaled d| < 10 ^ 20
        ∧ a = ⟨ops.normalized d⟩ := by
  have hge : ops.ge (ops.abs d) (ops.mul (ops.ofNat 10000000000000000000) (ops.ofNat 10)) = true
      ↔ 10 ^ 20 ≤ |ops.value unscaled d| := by
    rw [h.ge, h.abs, limit_value h]
  rw [fromDecimal]
  by_cases hrange : ops.fractionalDigitCount d ≤ 38 ∧ |ops.value unscaled d| < 10 ^ 20
  · have hcond : ¬ (decide (38 < ops.fractionalDigitCount d) || ops.ge (ops.abs d)
        (ops.mul (ops.ofNat 10000000000000000000) (ops.ofNat 10))) = true := by
      rw [Bool.or_eq_true, decide_eq_true_iff, hge]
      exact not_or.mpr ⟨not_lt.mpr hrange.1, not_le.mpr hrange.2⟩
    rw [if_neg hcond, Except.ok.injEq]
    exact ⟨fun heq => ⟨hrange.1, hrange.2, heq.symm⟩, fun heq => heq.2.2.symm⟩
  · have hcond : (decide (38 < ops.fractionalDigitCount d) || ops.ge (ops.abs d)
        (ops.mul (ops.ofNat 10000000000000000000) (ops.ofNat 10))) = true := by
      rw [Bool.or_eq_true, decide_eq_true_iff, hge]
      exact (not_and_or.mp hrange).imp not_le.mp not_lt.mp
    rw [if_pos hcond]
    exact ⟨nofun, fun heq => absurd ⟨heq.1, heq.2.1⟩ hrange⟩

theorem value_fromDecimal {d : D} {a : Amount D} (hd : fromDecimal ops d = .ok a) :
    ops.value unscaled a.decimal = ops.value unscaled d := by
  obtain ⟨-, -, rfl⟩ := (fromDecimal_eq_ok_iff h).mp hd
  exact h.normalized d

/-- Normalizing does not add digits after the point. -/
theorem normalized_count_le {d : D} {most : Int} (hmost : 0 ≤ most)
    (hd : ops.fractionalDigitCount d ≤ most) :
    ops.fractionalDigitCount (ops.normalized d) ≤ most := by
  by_cases hzero : unscaled d = 0
  · rw [h.normalized_zero d hzero]
    exact hmost
  · exact (Decimal.scale_le_of_scaled_eq (h.normalized d) (h.normalized_last d hzero)).trans hd

/-- Every digit of the amount is kept, and there are few enough for its text. -/
structure Kept (ops : Decimals D) (unscaled : D → Int) (a : Amount D) : Prop where
  digits : unscaled a.decimal ≠ 0 ∨ ops.fractionalDigitCount a.decimal = 0
  count : ops.fractionalDigitCount a.decimal ≤ 38
  bound : |ops.value unscaled a.decimal| < 10 ^ 20

theorem kept_of_fromDecimal {d : D} {a : Amount D} (hd : fromDecimal ops d = .ok a) :
    Kept ops unscaled a := by
  have hvalue := value_fromDecimal h hd
  obtain ⟨hcount, hbound, rfl⟩ := (fromDecimal_eq_ok_iff h).mp hd
  refine ⟨?_, normalized_count_le h (by decide) hcount, by rwa [hvalue]⟩
  by_cases hzero : unscaled d = 0
  · exact Or.inr (h.normalized_zero d hzero)
  · refine Or.inl fun heq => h.normalized_last d hzero ?_
    rw [heq]
    exact dvd_zero 10

theorem kept_zero : Kept ops unscaled (zero ops) := by
  refine ⟨Or.inr (h.ofNat_count 0), ?_, ?_⟩
  · rw [zero, h.ofNat_count]
    decide
  · rw [zero, Decimals.value, h.ofNat_digits, Nat.cast_zero, Decimal.scaled_zero_left, abs_zero]
    positivity

omit h in
/-- What a provider's text is accepted as. -/
theorem fromDecimal_of_provider {s : String} {a : Amount D} (hs : provider ops s = .ok a) :
    ∃ d, ops.parse s = some d ∧ fromDecimal ops d = .ok a := by
  rw [provider] at hs
  split at hs
  · cases hs
  · split at hs
    · cases hs
    · cases hd : ops.parse s with
      | none =>
          rw [hd] at hs
          cases hs
      | some d =>
          rw [hd] at hs
          exact ⟨d, rfl, hs⟩

theorem kept_obtainable {a : Amount D} (ha : Obtainable ops a) : Kept ops unscaled a := by
  induction ha with
  | zero => exact kept_zero h
  | provider s hs =>
      obtain ⟨d, -, hd⟩ := fromDecimal_of_provider hs
      exact kept_of_fromDecimal h hd
  | fromDecimal d hd => exact kept_of_fromDecimal h hd
  | add _ _ hc => exact kept_of_fromDecimal h hc

theorem value_zero : ops.value unscaled (zero ops).decimal = 0 := by
  rw [zero, Decimals.value, h.ofNat_digits, Nat.cast_zero, Decimal.scaled_zero_left]

theorem value_add {a b c : Amount D} (hc : add ops a b = .ok c) :
    ops.value unscaled c.decimal = ops.value unscaled a.decimal + ops.value unscaled b.decimal := by
  rw [value_fromDecimal h hc, h.add]

/-- Adding amounts fails only by the size of the sum. -/
theorem add_eq_ok_iff {a b : Amount D} (ha : Kept ops unscaled a) (hb : Kept ops unscaled b) :
    (∃ c, add ops a b = .ok c) ↔
      |ops.value unscaled a.decimal + ops.value unscaled b.decimal| < 10 ^ 20 := by
  have hcount := (h.add_count a.decimal b.decimal).trans (max_le ha.count hb.count)
  simp only [add, fromDecimal_eq_ok_iff h, h.add]
  exact ⟨fun ⟨c, hc⟩ => hc.2.1, fun hlt => ⟨_, hcount, hlt, rfl⟩⟩

/-! ## Reading an amount back -/

theorem toText_eq {a : Amount D} (ha : Kept ops unscaled a) :
    toText ops a = String.ofList
      (plain (unscaled a.decimal) (ops.fractionalDigitCount a.decimal)).text :=
  h.toPlainString a.decimal ha.digits

/-- The text of an amount passes the checks of `tryFrom`. -/
theorem tryFrom_toText_eq {a : Amount D} (ha : Kept ops unscaled a) :
    tryFrom ops (toText ops a) =
      match ops.parse (toText ops a) with
      | none => .error .amount
      | some value => fromDecimal ops value := by
  rw [toText_eq h ha]
  have hcount := ha.count
  have hbound : |scaled (unscaled a.decimal) (ops.fractionalDigitCount a.decimal)| < 10 ^ 20 :=
    ha.bound
  generalize unscaled a.decimal = u at hbound
  generalize ops.fractionalDigitCount a.decimal = k at hbound hcount
  have hempty : (String.ofList (plain u k).text).isEmpty = false := by
    rw [String.isEmpty_eq_false_iff, Ne, String.ofList_eq_empty_iff]
    exact Decimal.text_plain_ne_nil u k
  have hbytes : (String.ofList (plain u k).text).utf8ByteSize ≤ 60 := by
    rw [Decimal.utf8ByteSize_text_plain]
    have := Decimal.length_text_plain (by decide : 0 < 20) hbound
    omega
  have hfraction : ∀ f ∈ (plain u k).fraction, (String.ofList f).utf8ByteSize ≤ 38 := by
    intro f hf
    have htrail : (plain u k).trail = f := by rw [Numeral.trail, hf, Option.getD_some]
    have hdigits : ∀ c ∈ f, c.isDigit = true := htrail ▸ (Decimal.wellFormed_plain u k).trail
    have hlength := Decimal.length_trail_plain u k
    rw [Decimal.utf8ByteSize_eq_length fun c hc => Decimal.ascii_of_isDigit (hdigits c hc)]
    rw [htrail] at hlength
    omega
  have hchars : ((plain u k).text.any fun c => !c.isDigit && c != '.' && c != '-') = false := by
    rw [List.any_eq_false]
    intro c hc
    obtain hc | rfl | rfl := Decimal.mem_text_plain u k c hc
    · simp [hc]
    · decide
    · decide
  have hsplit : Decimal.splitFirst (· == '.') (plain u k).text
      = (Decimal.signText (plain u k).sign ++ (plain u k).whole, (plain u k).fraction) := by
    rw [Numeral.text_eq_baseText rfl, Numeral.splitFirst_baseText (Decimal.wellFormed_plain u k)]
  have hlong : ((plain u k).fraction.any
      fun f => decide (38 < (String.ofList f).utf8ByteSize)) = false := by
    cases hf : (plain u k).fraction with
    | none => rfl
    | some f =>
        rw [Option.any_some, decide_eq_false_iff_not, not_lt]
        exact hfraction f hf
  rw [tryFrom, String.toList_ofList, hempty, hsplit, hlong, hchars,
    decide_eq_false (not_lt.mpr hbytes)]
  rfl

/-- Reading the text of an amount gives an amount with its number. -/
theorem tryFrom_toText {a : Amount D} (ha : Kept ops unscaled a) :
    ∃ b, tryFrom ops (toText ops a) = .ok b ∧ eq ops b a = true := by
  have hwf := Decimal.wellFormed_plain (unscaled a.decimal) (ops.fractionalDigitCount a.decimal)
  obtain ⟨d, hd⟩ := h.parse_plain _ hwf Nat.toDigits_ne_nil rfl
  obtain ⟨hdigits, hcount⟩ := h.parse _ hwf d hd
  have hvalue : ops.value unscaled d = ops.value unscaled a.decimal := by
    rw [Decimals.value, hdigits, hcount]
    exact Decimal.value_plain _ _
  have hle : ops.fractionalDigitCount d ≤ 38 := by
    have := ha.count
    rw [hcount, Decimal.scale_plain]
    omega
  have hok : fromDecimal ops d = .ok ⟨ops.normalized d⟩ :=
    (fromDecimal_eq_ok_iff h).mpr ⟨hle, hvalue ▸ ha.bound, rfl⟩
  refine ⟨⟨ops.normalized d⟩, ?_, (h.eq _ _).mpr ((h.normalized d).trans hvalue)⟩
  rw [tryFrom_toText_eq h ha, toText_eq h ha, hd]
  exact hok

/-- An accepted text of a provider is kept as the number it denotes. -/
theorem value_provider {s : String} {a : Amount D} (hs : provider ops s = .ok a) {n : Numeral}
    (hn : n.WellFormed) (htext : n.text = s.toList) : ops.value unscaled a.decimal = n.value := by
  obtain ⟨d, hparse, hd⟩ := fromDecimal_of_provider hs
  have hs' : String.ofList n.text = s := by rw [htext, String.ofList_toList]
  obtain ⟨hdigits, hcount⟩ := h.parse n hn d (hs' ▸ hparse)
  rw [value_fromDecimal h hd, Decimals.value, hdigits, hcount]
  rfl

end

/-- Every amount survives its own text, and a provider's numeral is kept exactly. -/
theorem amount_spec (unscaled : D → Int) (h : ops.Exact unscaled) :
    (∀ a, Obtainable ops a → ∃ b, tryFrom ops (toText ops a) = .ok b ∧ eq ops b a = true)
      ∧ ∀ (s : String) (a : Amount D), provider ops s = .ok a →
          ∀ n : Numeral, n.WellFormed → n.text = s.toList →
            ops.value unscaled a.decimal = n.value :=
  ⟨fun _ ha => tryFrom_toText h (kept_obtainable h ha),
    fun _ _ hs _ hn htext => value_provider h hs hn htext⟩

end Amount

/-! ## Decimals as pairs -/

namespace Decimals

/-- Decimals as pairs of their digits and their scale. -/
def pairs : Decimals (Int × Int) where
  parse s := Decimal.read s.toList
  toPlainString d := String.ofList (plain d.1 d.2).text
  ofNat n := (n, 0)
  add a b :=
    (a.1 * 10 ^ (max a.2 b.2 - a.2).toNat + b.1 * 10 ^ (max a.2 b.2 - b.2).toNat, max a.2 b.2)
  mul a b := (a.1 * b.1, a.2 + b.2)
  abs a := (|a.1|, a.2)
  normalized a := Decimal.strip a.1 a.2
  ge a b := decide
    (b.1 * 10 ^ (max a.2 b.2 - b.2).toNat ≤ a.1 * 10 ^ (max a.2 b.2 - a.2).toNat)
  eq a b := decide
    (a.1 * 10 ^ (max a.2 b.2 - a.2).toNat = b.1 * 10 ^ (max a.2 b.2 - b.2).toNat)
  fractionalDigitCount d := d.2

theorem value_pairs (d : Int × Int) : pairs.value Prod.fst d = scaled d.1 d.2 := rfl

theorem pairs_exact : pairs.Exact Prod.fst where
  ofNat_digits _ := rfl
  ofNat_count _ := rfl
  add a b := by
    rw [value_pairs a, value_pairs b, ← Decimal.scaled_of_le a.1 (le_max_left a.2 b.2),
      ← Decimal.scaled_of_le b.1 (le_max_right a.2 b.2), ← Decimal.scaled_add]
    rfl
  add_count _ _ := le_rfl
  mul a b := Decimal.scaled_mul a.1 b.1 a.2 b.2
  abs a := (Decimal.abs_scaled a.1 a.2).symm
  ge a b := by
    rw [value_pairs a, value_pairs b, ← Decimal.scaled_of_le a.1 (le_max_left a.2 b.2),
      ← Decimal.scaled_of_le b.1 (le_max_right a.2 b.2), Decimal.scaled_le_scaled_iff]
    exact decide_eq_true_iff
  eq a b := by
    rw [value_pairs a, value_pairs b, ← Decimal.scaled_of_le a.1 (le_max_left a.2 b.2),
      ← Decimal.scaled_of_le b.1 (le_max_right a.2 b.2), Decimal.scaled_inj]
    exact decide_eq_true_iff
  normalized a := Decimal.scaled_strip a.1 a.2
  normalized_last a ha := Decimal.strip_last a.2 ha
  normalized_zero a ha := by
    simp only [pairs, Decimal.strip]
    rw [if_pos ha]
  toPlainString _ _ := rfl
  parse n hn d hd := by
    have hread : Decimal.read n.text = some d := by
      rw [← String.toList_ofList (l := n.text)]
      exact hd
    rw [Numeral.read_text hn, Option.some.injEq] at hread
    subst hread
    exact ⟨rfl, rfl⟩
  parse_plain n hn _ _ := by
    refine ⟨(n.unscaled, n.scale), ?_⟩
    rw [← Numeral.read_text hn]
    simp only [pairs, String.toList_ofList]

end Decimals

/-- A sign after the point is accepted, in a text that is no numeral. -/
theorem Amount.provider_misplaced_sign :
    Amount.provider Decimals.pairs ".-5" = .ok ⟨(-5, 2)⟩
      ∧ ¬∃ n : Numeral, n.WellFormed ∧ n.text = ".-5".toList
        ∧ Decimals.pairs.value Prod.fst (-5, 2) = n.value := by
  refine ⟨by rfl, ?_⟩
  rintro ⟨⟨sign, whole, fraction, exponent⟩, hn, htext, -⟩
  have hchars : ".-5".toList = ['.', '-', '5'] := by decide
  rw [hchars] at htext
  have hsign : sign = none := by
    cases sign with
    | none => rfl
    | some minus => cases minus <;> exact absurd (List.cons.inj htext).1 (by decide)
  subst hsign
  have hwhole : whole = [] := by
    cases whole with
    | nil => rfl
    | cons c whole =>
        have hdigit : c.isDigit = true := hn.whole c List.mem_cons_self
        rw [show c = '.' from (List.cons.inj htext).1] at hdigit
        exact absurd hdigit (by decide)
  subst hwhole
  cases fraction with
  | none => exact hn.some rfl
  | some f =>
      cases f with
      | nil => exact hn.some rfl
      | cons c f =>
          have hdigit : c.isDigit = true := hn.trail c List.mem_cons_self
          rw [show c = '-' from (List.cons.inj (List.cons.inj htext).2).1] at hdigit
          exact absurd hdigit (by decide)

/-- An amount of a provider in scientific notation. -/
theorem Amount.amount_spec_scientific :
    (∃ b, Amount.tryFrom Decimals.pairs (Amount.toText Decimals.pairs ⟨(-125, 5)⟩) = .ok b
        ∧ Amount.eq Decimals.pairs b ⟨(-125, 5)⟩ = true)
      ∧ Decimals.pairs.value Prod.fst (-125, 5) = scaled (-12500) 7 :=
  have hs : Amount.provider Decimals.pairs "-1.2500e-3" = .ok ⟨(-125, 5)⟩ := by rfl
  have spec := Amount.amount_spec Decimals.pairs Prod.fst Decimals.pairs_exact
  ⟨spec.1 _ (.provider "-1.2500e-3" hs),
    spec.2 "-1.2500e-3" _ hs
      ⟨some true, ['1'], some ['2', '5', '0', '0'], some ⟨'e', some true, ['3']⟩⟩
      ⟨List.all_eq_true.mp rfl, List.all_eq_true.mp rfl, by decide,
        by rintro e ⟨⟩; exact ⟨Or.inl rfl, List.all_eq_true.mp rfl, by decide⟩⟩ rfl⟩

end HealthMonitor.Costs
