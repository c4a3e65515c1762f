import Mathlib.Data.Rat.Defs

/-!
# Units

Instants, durations, counters and measured values. An instant is a signed count of
nanoseconds from the epoch, the resolution of the source's UTC timestamps. A
measured value is an exact rational or one of the three non-finite readings:
comparisons follow IEEE 754, arithmetic is exact.
-/

namespace HealthMonitor

/-- An instant, in nanoseconds from the epoch. -/
abbrev Time := Int

def nanosPerSecond : Int := 1000000000

/-- `(now - since).num_seconds()`: whole seconds, rounded towards zero. -/
def numSeconds (now since : Time) : Int :=
  (now - since).tdiv nanosPerSecond

/-- That many whole seconds have passed. -/
theorem le_numSeconds {now since : Time} {seconds : Nat} (h : 0 < seconds) :
    seconds ≤ numSeconds now since ↔ since + seconds * nanosPerSecond ≤ now := by
  have hdiv : ∀ gap : Int, (seconds : Int) ≤ gap.tdiv 1000000000
      ↔ (seconds : Int) * 1000000000 ≤ gap := by
    intro gap
    by_cases hpos : 0 ≤ gap
    · rw [Int.tdiv_eq_ediv_of_nonneg hpos]
      omega
    · have hneg : 0 ≤ (-gap).tdiv 1000000000 := Int.tdiv_nonneg (by omega) (by decide)
      rw [Int.neg_tdiv] at hneg
      omega
  rw [numSeconds, nanosPerSecond, hdiv]
  exact ⟨fun h => by rw [Int.add_comm]; exact Int.add_le_of_le_sub_right h,
    fun h => Int.le_sub_left_of_add_le h⟩

/-- The last representable instant, the end of the year 262142. -/
def Time.last : Time := 8210266876799999999999

/-- `time.checked_add_signed(Duration::seconds(seconds))`. -/
def checkedAdd (time : Time) (seconds : Nat) : Option Time :=
  let sum := time + seconds * nanosPerSecond
  if sum ≤ Time.last then some sum else none

/-- The first representable instant, the start of the year -262143. -/
def Time.first : Time := -8334601228800000000000

/-- `time.checked_sub_signed(Duration::seconds(seconds))`. -/
def checkedSub (time : Time) (seconds : Nat) : Option Time :=
  let difference := time - seconds * nanosPerSecond
  if Time.first ≤ difference then some difference else none

/-- A span of whole seconds between one second and 365 days. -/
structure Span where
  seconds : Nat
  positive : 1 ≤ seconds := by decide
  bounded : seconds ≤ 31536000 := by decide
  deriving DecidableEq, Repr

/-- `u64::MAX` and `usize::MAX`. -/
def u64Max : Nat := 18446744073709551615

def saturatingAdd (a b : Nat) : Nat := min (a + b) u64Max

def saturatingMul (a b : Nat) : Nat := min (a * b) u64Max

/-- A measured value. -/
inductive Reading where
  | finite (value : Rat)
  | posInf
  | negInf
  | nan
  deriving DecidableEq, Repr

namespace Reading

def isFinite : Reading → Bool
  | finite _ => true
  | _ => false

/-- IEEE `<`: false as soon as one side is not a number. -/
def lt : Reading → Reading → Bool
  | finite a, finite b => decide (a < b)
  | finite _, posInf => true
  | negInf, finite _ => true
  | negInf, posInf => true
  | _, _ => false

/-- IEEE `==`: not-a-number differs from itself. -/
def eq : Reading → Reading → Bool
  | finite a, finite b => decide (a = b)
  | posInf, posInf => true
  | negInf, negInf => true
  | _, _ => false

/-- IEEE `<=`. -/
def le (a b : Reading) : Bool :=
  lt a b || eq a b

def ofNat (n : Nat) : Reading :=
  finite n

/-- `value / capacity * 100.0`, for a positive finite capacity. -/
def percentOf (value capacity : Reading) : Reading :=
  match value, capacity with
  | finite v, finite c => finite (v / c * 100)
  | posInf, finite _ => posInf
  | negInf, finite _ => negInf
  | _, _ => nan

end Reading

end HealthMonitor
