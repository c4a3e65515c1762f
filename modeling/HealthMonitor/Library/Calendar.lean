import Mathlib.Algebra.GroupWithZero.Nat
import Mathlib.Algebra.Order.Group.Int
import Mathlib.Order.SuccPred.IntervalSucc

/-!
# Calendar

Dates of the proleptic Gregorian calendar and their fixed-width text. Years
are counted from March, so that the leap day is the last of its year: a day
number splits into a year and a day of that year, and the month follows from
the day alone. The result the module is for is `compact_lt_compact_iff`: as
long as years have four digits, the text of an instant sorts as the instant.
-/

namespace Calendar

/-! ## Fixed-width numbers -/

/-- The last `width` decimal digits of `n`, the highest first. -/
def digits : Nat → Nat → List Char
  | 0, _ => []
  | width + 1, n => digits width (n / 10) ++ [Nat.digitChar (n % 10)]

@[simp] theorem length_digits (width n : Nat) : (digits width n).length = width := by
  induction width generalizing n with
  | zero => rfl
  | succ width ih => simp [digits, ih]

/-- Digits of a number put together from two fields. -/
theorem digits_append (w v n m : Nat) (hm : m < 10 ^ v) :
    digits w n ++ digits v m = digits (w + v) (n * 10 ^ v + m) := by
  induction v generalizing m with
  | zero =>
      have : m = 0 := by simpa using hm
      simp [digits, this]
  | succ v ih =>
      have hq : m / 10 < 10 ^ v := by
        rw [Nat.pow_succ] at hm
        omega
      have hdiv : (n * 10 ^ (v + 1) + m) / 10 = n * 10 ^ v + m / 10 := by
        rw [Nat.pow_succ, ← Nat.mul_assoc]
        omega
      have hmod : (n * 10 ^ (v + 1) + m) % 10 = m % 10 := by
        rw [Nat.pow_succ, ← Nat.mul_assoc]
        omega
      rw [← Nat.add_assoc, digits, digits, hdiv, hmod, ← ih (m / 10) hq, List.append_assoc]

/-- Texts that start alike in length compare by their starts first. -/
theorem append_lt_append_iff {a b x y : List Char} (h : a.length = b.length) :
    a ++ x < b ++ y ↔ a < b ∨ a = b ∧ x < y := by
  induction a generalizing b with
  | nil =>
      have : b = [] := by simpa using h.symm
      subst this
      simp
  | cons c a ih =>
      cases b with
      | nil => simp at h
      | cons d b =>
          have hlen : a.length = b.length := by simpa using h
          rw [List.cons_append, List.cons_append, List.cons_lt_cons_iff,
            List.cons_lt_cons_iff, ih hlen, List.cons.injEq]
          tauto

theorem digitChar_lt_digitChar : ∀ i < 10, ∀ j < 10,
    (Nat.digitChar i < Nat.digitChar j ↔ i < j) := by
  decide

theorem digitChar_inj : ∀ i < 10, ∀ j < 10, (Nat.digitChar i = Nat.digitChar j ↔ i = j) := by
  decide

theorem digits_inj {width n m : Nat} (hn : n < 10 ^ width) (hm : m < 10 ^ width) :
    digits width n = digits width m ↔ n = m := by
  constructor
  · induction width generalizing n m with
    | zero =>
        intro _
        rw [Nat.pow_zero] at hn hm
        omega
    | succ width ih =>
        intro h
        rw [Nat.pow_succ] at hn hm
        obtain ⟨hinit, hlast⟩ := List.append_inj h (by simp)
        have hq := ih (by omega) (by omega) hinit
        have hr := (digitChar_inj (n % 10) (by omega) (m % 10) (by omega)).mp
          (List.singleton_inj.mp hlast)
        omega
  · rintro rfl
    rfl

/-- Numbers of one width sort as their digits. -/
theorem digits_lt_digits_iff {width n m : Nat} (hn : n < 10 ^ width) (hm : m < 10 ^ width) :
    digits width n < digits width m ↔ n < m := by
  induction width generalizing n m with
  | zero =>
      rw [Nat.pow_zero] at hn hm
      have : n = m := by omega
      simp [digits, this]
  | succ width ih =>
      rw [Nat.pow_succ] at hn hm
      have hlast := digitChar_lt_digitChar (n % 10) (by omega) (m % 10) (by omega)
      rw [digits, digits, append_lt_append_iff (by simp), ih (by omega) (by omega),
        digits_inj (by omega) (by omega), List.cons_lt_cons_iff, hlast]
      simp
      omega

/-! ## Days -/

/-- A day number in years from March: the year, and the day of that year. -/
structure Marched where
  year : Int
  day : Nat
  deriving DecidableEq, Repr

/-- Whole blocks of `size` in `n`, at most `most` of them, and what is left. -/
def blocks (size most n : Nat) : Nat × Nat :=
  (min (n / size) most, n - size * min (n / size) most)

@[simp] theorem blocks_zero (size most : Nat) : blocks size most 0 = (0, 0) := by
  simp [blocks]

/-- One more is one more of what is left, or fills a block and opens the next. -/
theorem blocks_succ (size most n : Nat) :
    blocks size most (n + 1) = ((blocks size most n).1, (blocks size most n).2 + 1) ∨
    (blocks size most n).2 + 1 = size ∧
      blocks size most (n + 1) = ((blocks size most n).1 + 1, 0) := by
  have hle : size * (n / size) ≤ n := Nat.mul_div_le n size
  have hmin : size * min (n / size) most ≤ n :=
    le_trans (Nat.mul_le_mul_left size (Nat.min_le_left _ _)) hle
  simp only [blocks, Prod.mk.injEq, Nat.succ_div]
  by_cases hd : size ∣ n + 1
  · rw [if_pos hd]
    by_cases hcap : most ≤ n / size
    · left
      rw [Nat.min_eq_right (by omega), Nat.min_eq_right hcap] at *
      omega
    · right
      have hq : size * (n / size + 1) = n + 1 := by
        rw [← Nat.succ_div_of_dvd hd]
        exact Nat.mul_div_cancel' hd
      rw [Nat.min_eq_left (by omega), Nat.min_eq_left (by omega), hq]
      rw [Nat.mul_succ] at hq
      omega
  · left
    rw [if_neg hd, Nat.add_zero]
    omega

/-- Days are counted from 1 March of the year 0. Centuries and single years are
capped because the last of four is a day longer than the others. -/
def march (days : Int) : Marched :=
  let centuries := blocks 36524 3 (days % 146097).toNat
  let quads := blocks 1461 24 centuries.2
  let years := blocks 365 3 quads.2
  { year := 400 * (days / 146097) + 100 * centuries.1 + 4 * quads.1 + years.1
    day := years.2 }

theorem march_day_lt (days : Int) : (march days).day < 366 := by
  simp only [march, blocks]
  omega

/-- The next day is the next of its year, or the first of the next year. -/
theorem march_succ (days : Int) :
    (march (days + 1)).year = (march days).year ∧
      (march (days + 1)).day = (march days).day + 1 ∨
    (march (days + 1)).year = (march days).year + 1 ∧ (march (days + 1)).day = 0 := by
  by_cases hera : days % 146097 = 146096
  · -- the last day of a cycle of 400 years
    right
    have hnext : (days + 1) % 146097 = 0 := by omega
    have hcycle : (days + 1) / 146097 = days / 146097 + 1 := by omega
    have hlast : (days % 146097).toNat = 146096 := by omega
    simp only [march, hnext, hcycle, hlast]
    simp [blocks]
    omega
  · have hnext : ((days + 1) % 146097).toNat = (days % 146097).toNat + 1 := by omega
    have hcycle : (days + 1) / 146097 = days / 146097 := by omega
    simp only [march, hnext, hcycle]
    obtain h | ⟨hfull, h⟩ := blocks_succ 36524 3 (days % 146097).toNat
    · rw [h]
      obtain h | ⟨hfull, h⟩ := blocks_succ 1461 24 (blocks 36524 3 (days % 146097).toNat).2
      · rw [h]
        obtain h | ⟨-, h⟩ := blocks_succ 365 3
          (blocks 1461 24 (blocks 36524 3 (days % 146097).toNat).2).2
        · simp [h]
        · right
          simp [h]
          omega
      · -- the last day of four years
        right
        have hrest : (blocks 1461 24 (blocks 36524 3 (days % 146097).toNat).2).2 = 1460 := by
          omega
        rw [h, hrest, show blocks 365 3 1460 = (3, 365) by decide]
        simp
        omega
    · -- the last day of a century
      right
      have hrest : (blocks 36524 3 (days % 146097).toNat).2 = 36523 := by omega
      rw [h, hrest, show blocks 1461 24 36523 = (24, 1459) by decide,
        show blocks 365 3 1459 = (3, 364) by decide]
      simp
      omega

/-- The month of a day of the year from March, March being 0. -/
def monthIndex (day : Nat) : Nat := (5 * day + 2) / 153

/-- A calendar date. -/
structure Date where
  year : Int
  month : Nat
  day : Nat
  deriving DecidableEq, Repr

/-- The date of a day counted from 1 January 1970. -/
def ofDays (days : Int) : Date :=
  let marched := march (days + 719468)
  let index := monthIndex marched.day
  { year := marched.year + (if 10 ≤ index then 1 else 0)
    month := if index < 10 then index + 3 else index - 9
    day := marched.day - (153 * index + 2) / 5 + 1 }

/-- A date as one number, its fields side by side. -/
def Date.code (date : Date) : Int :=
  (date.year * 100 + date.month) * 100 + date.day

/-- The code of a day of the year from March, with January and February in the
year that follows. -/
def dayCode (day : Nat) : Nat :=
  let index := monthIndex day
  ((if 10 ≤ index then 100 else 0) + (if index < 10 then index + 3 else index - 9)) * 100 +
    (day - (153 * index + 2) / 5 + 1)

theorem dayCode_lt_succ : ∀ day < 365, dayCode day < dayCode (day + 1) := by
  decide +kernel

theorem dayCode_le : ∀ day < 366, 301 ≤ dayCode day ∧ dayCode day ≤ 10229 := by
  decide +kernel

theorem code_ofDays (days : Int) :
    (ofDays days).code =
      (march (days + 719468)).year * 10000 + dayCode (march (days + 719468)).day := by
  simp only [ofDays, Date.code, dayCode]
  split <;> push_cast <;> omega

theorem code_lt_code_succ (days : Int) : (ofDays days).code < (ofDays (days + 1)).code := by
  have hday := march_day_lt (days + 719468)
  have hnext := march_day_lt (days + 719468 + 1)
  rw [code_ofDays, code_ofDays, show days + 1 + 719468 = days + 719468 + 1 by omega]
  obtain ⟨hyear, hsame⟩ | ⟨hyear, hopen⟩ := march_succ (days + 719468)
  · rw [hyear, hsame]
    have := dayCode_lt_succ _ (show (march (days + 719468)).day < 365 by omega)
    omega
  · have hlast := (dayCode_le _ hday).2
    rw [hyear, hopen]
    have hfirst : dayCode 0 = 301 := by decide
    omega

/-- Later days have greater codes. -/
theorem code_lt_code_iff {a b : Int} : (ofDays a).code < (ofDays b).code ↔ a < b :=
  (strictMono_int_of_lt_succ code_lt_code_succ).lt_iff_lt

theorem code_inj {a b : Int} : (ofDays a).code = (ofDays b).code ↔ a = b :=
  (strictMono_int_of_lt_succ code_lt_code_succ).injective.eq_iff

example : ofDays 0 = ⟨1970, 1, 1⟩ := by decide
example : ofDays 11016 = ⟨2000, 2, 29⟩ := by decide

theorem fields_lt : ∀ day < 366,
    (if monthIndex day < 10 then monthIndex day + 3 else monthIndex day - 9) < 100 ∧
      day - (153 * monthIndex day + 2) / 5 + 1 < 100 := by
  decide +kernel

theorem ofDays_fields_lt (days : Int) : (ofDays days).month < 100 ∧ (ofDays days).day < 100 :=
  fields_lt _ (march_day_lt _)

/-! ## Text -/

/-- A year in four digits, signed outside the years 0 to 9999. -/
def yearText (year : Int) : List Char :=
  if 0 ≤ year ∧ year < 10000 then digits 4 year.toNat
  else (if year < 0 then '-' else '+') ::
    (if year.natAbs < 10000 then digits 4 year.natAbs else Nat.toDigits 10 year.natAbs)

/-- The instant lies in a year of four digits. -/
def FourDigits (seconds : Int) : Prop :=
  0 ≤ (ofDays (seconds / 86400)).year ∧ (ofDays (seconds / 86400)).year < 10000

instance (seconds : Int) : Decidable (FourDigits seconds) :=
  inferInstanceAs (Decidable (_ ∧ _))

/-- The time of day as one number of six digits. -/
def clock (second : Nat) : Nat :=
  (second / 3600 * 100 + second / 60 % 60) * 100 + second % 60

theorem clock_strictMono : StrictMono clock := by
  apply strictMono_nat_of_lt_succ
  intro second
  have hthis : second / 3600 = second / 60 / 60 := by rw [Nat.div_div_eq_div_mul]
  have hnext : (second + 1) / 3600 = (second + 1) / 60 / 60 := by rw [Nat.div_div_eq_div_mul]
  simp only [clock, hthis, hnext]
  omega

/-- Date and time of a count of seconds from 1 January 1970, as in
`20260905T120000`. -/
def compact (seconds : Int) : List Char :=
  let date := ofDays (seconds / 86400)
  let second := (seconds % 86400).toNat
  yearText date.year ++ digits 2 date.month ++ digits 2 date.day ++
    'T' :: (digits 2 (second / 3600) ++ digits 2 (second / 60 % 60) ++ digits 2 (second % 60))

example : String.ofList (compact 1788609600) = "20260905T120000" := by decide +kernel

theorem compact_eq {seconds : Int} (h : FourDigits seconds) :
    compact seconds = digits 8 (ofDays (seconds / 86400)).code.toNat ++
      'T' :: digits 6 (clock (seconds % 86400).toNat) := by
  obtain ⟨hmonth, hday⟩ := ofDays_fields_lt (seconds / 86400)
  have hcode : (ofDays (seconds / 86400)).code.toNat =
      ((ofDays (seconds / 86400)).year.toNat * 10 ^ 2 + (ofDays (seconds / 86400)).month) *
        10 ^ 2 + (ofDays (seconds / 86400)).day := by
    have := h.1
    simp only [Date.code]
    omega
  have htime : clock (seconds % 86400).toNat =
      ((seconds % 86400).toNat / 3600 * 10 ^ 2 + (seconds % 86400).toNat / 60 % 60) * 10 ^ 2 +
        (seconds % 86400).toNat % 60 := rfl
  rw [hcode, htime, ← digits_append 6 2 _ _ hday, ← digits_append 4 2 _ _ hmonth,
    ← digits_append 4 2 _ _ (by omega), ← digits_append 2 2 _ _ (by omega)]
  simp only [compact, yearText, if_pos (show _ ∧ _ from h)]

/-- Within the years of four digits, texts sort as the instants do. -/
theorem compact_lt_compact_iff {a b : Int} (ha : FourDigits a) (hb : FourDigits b) :
    compact a < compact b ↔ a < b := by
  have hdate : ∀ {s : Int}, FourDigits s → 0 ≤ (ofDays (s / 86400)).code ∧
      (ofDays (s / 86400)).code < 10 ^ 8 := by
    intro s hs
    have := ofDays_fields_lt (s / 86400)
    obtain ⟨h0, h9⟩ := hs
    simp only [Date.code]
    omega
  have hclock : ∀ s : Int, clock (s % 86400).toNat < 10 ^ 6 := by
    intro s
    simp only [clock]
    omega
  have hda := hdate ha
  have hdb := hdate hb
  have hlt := @code_lt_code_iff (a / 86400) (b / 86400)
  have heq := @code_inj (a / 86400) (b / 86400)
  rw [compact_eq ha, compact_eq hb, append_lt_append_iff (by simp),
    digits_lt_digits_iff (by omega) (by omega), digits_inj (by omega) (by omega),
    List.cons_lt_cons_iff, digits_lt_digits_iff (hclock a) (hclock b)]
  have htime := clock_strictMono.lt_iff_lt (a := (a % 86400).toNat) (b := (b % 86400).toNat)
  simp only [Char.lt_irrefl, true_and, false_or]
  omega

theorem digits_isDigit (width n : Nat) : ∀ c ∈ digits width n, c.isDigit = true := by
  induction width generalizing n with
  | zero => simp [digits]
  | succ width ih =>
      have hlast : ∀ i < 10, (Nat.digitChar i).isDigit = true := by decide
      intro c hc
      rw [digits, List.mem_append, List.mem_singleton] at hc
      obtain hc | rfl := hc
      · exact ih _ c hc
      · exact hlast _ (Nat.mod_lt _ (by decide))

/-- The characters of a text: digits and the letter between date and time. -/
theorem mem_compact {seconds : Int} (h : FourDigits seconds) :
    ∀ c ∈ compact seconds, c.isDigit = true ∨ c = 'T' := by
  intro c hc
  rw [compact_eq h, List.mem_append, List.mem_cons] at hc
  obtain hc | rfl | hc := hc
  · exact Or.inl (digits_isDigit _ _ c hc)
  · exact Or.inr rfl
  · exact Or.inl (digits_isDigit _ _ c hc)

end Calendar
