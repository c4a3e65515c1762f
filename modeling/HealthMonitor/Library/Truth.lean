import Mathlib.Data.Option.Basic

/-!
# Truth

The three truth values of SQL conditions: a comparison with an absent value is
unknown, the connectives are Kleene's, and a filter accepts what is true.
-/

/-- True, false, or unknown. -/
abbrev Truth := Option Bool

namespace Truth

variable {α : Type*}

def and : Truth → Truth → Truth
  | some false, _ => some false
  | _, some false => some false
  | some true, b => b
  | none, _ => none

def or : Truth → Truth → Truth
  | some true, _ => some true
  | _, some true => some true
  | some false, b => b
  | none, _ => none

/-- A comparison of a column, unknown when the column is null. -/
def compare (column : Option α) (p : α → Bool) : Truth := column.map p

def isNull (column : Option α) : Truth := some column.isNone

/-- All of some conditions. -/
def all (conditions : List Truth) : Truth := conditions.foldr and (some true)

/-- The condition holds: unknown is not enough. -/
def accepts (t : Truth) : Bool := t == some true

@[simp] theorem accepts_some (b : Bool) : accepts (some b) = b := by
  cases b <;> rfl

@[simp] theorem accepts_and (a b : Truth) : accepts (and a b) = (accepts a && accepts b) := by
  rcases a with _ | _ | _ <;> rcases b with _ | _ | _ <;> rfl

@[simp] theorem accepts_or (a b : Truth) : accepts (or a b) = (accepts a || accepts b) := by
  rcases a with _ | _ | _ <;> rcases b with _ | _ | _ <;> rfl

@[simp] theorem accepts_compare (column : Option α) (p : α → Bool) :
    accepts (compare column p) = column.any p := by
  cases column with
  | none => rfl
  | some a => exact accepts_some (p a)

@[simp] theorem accepts_isNull (column : Option α) : accepts (isNull column) = column.isNone :=
  accepts_some _

@[simp] theorem accepts_all (conditions : List Truth) :
    accepts (all conditions) = conditions.all accepts := by
  induction conditions with
  | nil => rfl
  | cons t conditions ih =>
      rw [all, List.foldr_cons, accepts_and, List.all_cons]
      exact congrArg (accepts t && ·) ih

end Truth
