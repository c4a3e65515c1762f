import Mathlib.Data.List.Basic

/-!
# Faulty

Programs over a store whose every step may succeed, fail or be the last one
before the program stops. A script says how the steps of one run end; a step
that does not succeed may leave the store torn, in one of the ways the step
itself allows. `Triple` is the judgement about such programs: a condition on
the store before, and one for each of the three ways a run can end. Its rules
follow the program's text, one for each construct.
-/

namespace Faulty

/-- How one step ends. A step that succeeds may leave a choice open, and one
that does not may have got part of the way. -/
inductive Fate where
  | done (pick : Nat)
  | fail (torn : Nat)
  | stop (torn : Nat)
  deriving DecidableEq, Repr

/-- How a program ends. -/
inductive Ending (ε α : Type) where
  | returned (value : α)
  | raised (error : ε)
  | stopped
  deriving DecidableEq, Repr

/-- The end of a run, the unused part of its script and the store it left. -/
structure Outcome (σ ε α : Type) where
  ending : Ending ε α
  rest : List Fate
  store : σ

/-- A program reads its script step by step; past its end every step succeeds. -/
def Program (σ ε α : Type) := List Fate → σ → Outcome σ ε α

/-- A single step: what it does when it is let through, the states it may leave
when it is not, and the error of a failure. -/
structure Step (σ ε α : Type) where
  act : Nat → σ → Except ε (α × σ)
  torn : Nat → σ → σ := fun _ s => s
  fault : ε

variable {σ ε α β : Type}

def Step.finish (step : Step σ ε α) (pick : Nat) (rest : List Fate) (s : σ) :
    Outcome σ ε α :=
  match step.act pick s with
  | .ok (value, s') => { ending := .returned value, rest, store := s' }
  | .error error => { ending := .raised error, rest, store := s }

def step (step : Step σ ε α) : Program σ ε α
  | [], s => step.finish 0 [] s
  | .done pick :: rest, s => step.finish pick rest s
  | .fail torn :: rest, s =>
      { ending := .raised step.fault, rest, store := step.torn torn s }
  | .stop torn :: rest, s => { ending := .stopped, rest, store := step.torn torn s }

def ret (value : α) : Program σ ε α := fun script s =>
  { ending := .returned value, rest := script, store := s }

/-- A step that only looks: an error of its own, or a value read off the store. -/
def read (fault : ε) (look : σ → Except ε α) : Program σ ε α :=
  step { act := fun _ s => (look s).map (·, s), fault }

def raise (error : ε) : Program σ ε α := fun script s =>
  { ending := .raised error, rest := script, store := s }

def Outcome.followed (next : α → Program σ ε β) : Outcome σ ε α → Outcome σ ε β
  | { ending := .returned value, rest, store } => next value rest store
  | { ending := .raised error, rest, store } => { ending := .raised error, rest, store }
  | { ending := .stopped, rest, store } => { ending := .stopped, rest, store }

/-- `first`, then what its value asks for. -/
def andThen (first : Program σ ε α) (next : α → Program σ ε β) : Program σ ε β :=
  fun script s => (first script s).followed next

instance : Monad (Program σ ε) where
  pure := ret
  bind := andThen

def Outcome.caught : Outcome σ ε α → Outcome σ ε (Except ε α)
  | { ending := .returned value, rest, store } =>
      { ending := .returned (.ok value), rest, store }
  | { ending := .raised error, rest, store } =>
      { ending := .returned (.error error), rest, store }
  | { ending := .stopped, rest, store } => { ending := .stopped, rest, store }

/-- Run the program and look at its result, an error being one of them. -/
def attempt (program : Program σ ε α) : Program σ ε (Except ε α) := fun script s =>
  (program script s).caught

/-- The loop over a list, carrying a value from one turn to the next. -/
def loop (body : β → α → Program σ ε β) : List α → β → Program σ ε β
  | [], carried => pure carried
  | x :: xs, carried => body carried x >>= loop body xs

/-! ## Triples -/

/-- The end of a run meets `Q` when it returns and `X` when it does not. -/
def Outcome.Meets (Q : α → σ → Prop) (X : σ → Prop) : Outcome σ ε α → Prop
  | { ending := .returned value, store, .. } => Q value store
  | { ending := .raised _, store, .. } => X store
  | { ending := .stopped, store, .. } => X store

/-- Started where `P` holds, under a script of allowed fates, the program
returns where `Q` holds or breaks off where `X` does. -/
def Triple (allowed : Fate → Prop) (P : σ → Prop) (program : Program σ ε α)
    (Q : α → σ → Prop) (X : σ → Prop) : Prop :=
  ∀ script s, (∀ fate ∈ script, allowed fate) → P s →
    (∀ fate ∈ (program script s).rest, allowed fate) ∧ (program script s).Meets Q X

theorem Outcome.Meets.cases {outcome : Outcome σ ε α} {Q : α → σ → Prop} {X : σ → Prop}
    (h : outcome.Meets Q X) :
    (∃ value, outcome.ending = .returned value ∧ Q value outcome.store) ∨ X outcome.store := by
  cases outcome with
  | mk ending rest store =>
      cases ending with
      | returned value => exact Or.inl ⟨value, rfl, h⟩
      | raised error => exact Or.inr h
      | stopped => exact Or.inr h

theorem Outcome.Meets.returned {outcome : Outcome σ ε α} {Q : α → σ → Prop} {X : σ → Prop}
    {value : α} (h : outcome.Meets Q X) (hending : outcome.ending = .returned value) :
    Q value outcome.store := by
  cases outcome with
  | mk ending rest store =>
      cases hending
      exact h

variable {allowed : Fate → Prop} {P P' : σ → Prop} {Q Q' : α → σ → Prop}
  {R : β → σ → Prop} {X X' : σ → Prop}

theorem Triple.weaken {program : Program σ ε α} (h : Triple allowed P program Q X)
    (hP : ∀ s, P' s → P s) (hQ : ∀ value s, Q value s → Q' value s) (hX : ∀ s, X s → X' s) :
    Triple allowed P' program Q' X' := by
  intro script s hscript hs
  obtain ⟨hrest, hmeets⟩ := h script s hscript (hP s hs)
  refine ⟨hrest, ?_⟩
  cases hrun : program script s with
  | mk ending rest store =>
      rw [hrun] at hmeets
      cases ending with
      | returned value => exact hQ value _ hmeets
      | raised error => exact hX _ hmeets
      | stopped => exact hX _ hmeets

/-- What a triple about every script says of one run. -/
theorem Triple.meets {program : Program σ ε α} (h : Triple (fun _ => True) P program Q X)
    (script : List Fate) {s : σ} (hs : P s) : (program script s).Meets Q X :=
  (h script s (fun _ _ => trivial) hs).2

/-- A fact that holds wherever the precondition does may be assumed. -/
theorem Triple.assuming {fact : Prop} {program : Program σ ε α}
    (h : fact → Triple allowed P program Q X) :
    Triple allowed (fun s => P s ∧ fact) program Q X :=
  fun script s hscript hs => h hs.2 script s hscript hs.1

/-- A triple may be proved for each store it can start in. -/
theorem Triple.pointwise {program : Program σ ε α}
    (h : ∀ start, P start → Triple allowed (fun s => s = start) program Q X) :
    Triple allowed P program Q X :=
  fun script s hscript hs => h s hs script s hscript rfl

theorem Triple.ret {value : α} (h : ∀ s, P s → Q value s) :
    Triple allowed P (pure value : Program σ ε α) Q X :=
  fun _ s hscript hs => ⟨hscript, h s hs⟩

theorem Triple.raise {error : ε} (h : ∀ s, P s → X s) :
    Triple allowed P (raise error : Program σ ε α) Q X :=
  fun _ s hscript hs => ⟨hscript, h s hs⟩

theorem Triple.bind {first : Program σ ε α} {next : α → Program σ ε β}
    (hfirst : Triple allowed P first Q X)
    (hnext : ∀ value, Triple allowed (Q value) (next value) R X) :
    Triple allowed P (first >>= next) R X := by
  intro script s hscript hs
  obtain ⟨hrest, hmeets⟩ := hfirst script s hscript hs
  change (∀ fate ∈ ((first script s).followed next).rest, allowed fate) ∧
    ((first script s).followed next).Meets R X
  cases hrun : first script s with
  | mk ending rest store =>
      rw [hrun] at hrest hmeets
      cases ending with
      | returned value => exact hnext value _ _ hrest hmeets
      | raised error => exact ⟨hrest, hmeets⟩
      | stopped => exact ⟨hrest, hmeets⟩

theorem Triple.attempt {program : Program σ ε α} {R : Except ε α → σ → Prop}
    (h : Triple allowed P program Q X) (hok : ∀ value s, Q value s → R (.ok value) s)
    (herr : ∀ error s, X s → R (.error error) s) :
    Triple allowed P (attempt program) R X := by
  intro script s hscript hs
  obtain ⟨hrest, hmeets⟩ := h script s hscript hs
  change (∀ fate ∈ (program script s).caught.rest, allowed fate) ∧
    (program script s).caught.Meets R X
  cases hrun : program script s with
  | mk ending rest store =>
      rw [hrun] at hrest hmeets
      cases ending with
      | returned value => exact ⟨hrest, hok value _ hmeets⟩
      | raised error => exact ⟨hrest, herr error _ hmeets⟩
      | stopped => exact ⟨hrest, hmeets⟩

/-- A step: what it does when let through, and what it may leave when it is not. -/
theorem Triple.step {one : Step σ ε α}
    (hact : ∀ pick s value s', P s → one.act pick s = .ok (value, s') → Q value s')
    (herr : ∀ pick s error, P s → one.act pick s = .error error → X s)
    (htorn : ∀ torn s, allowed (.fail torn) ∨ allowed (.stop torn) → P s →
      X (one.torn torn s)) :
    Triple allowed P (step one) Q X := by
  have hfinish : ∀ pick rest s, P s → (∀ fate ∈ rest, allowed fate) →
      (∀ fate ∈ (one.finish pick rest s).rest, allowed fate) ∧
        (one.finish pick rest s).Meets Q X := by
    intro pick rest s hs hrest
    unfold Step.finish
    cases hrun : one.act pick s with
    | error error => exact ⟨hrest, herr pick s error hs hrun⟩
    | ok result => exact ⟨hrest, hact pick s result.1 result.2 hs hrun⟩
  intro script s hscript hs
  cases script with
  | nil => exact hfinish 0 [] s hs hscript
  | cons fate rest =>
      obtain ⟨hfate, hrest⟩ := List.forall_mem_cons.mp hscript
      cases fate with
      | done pick => exact hfinish pick rest s hs hrest
      | fail torn => exact ⟨hrest, htorn torn s (Or.inl hfate) hs⟩
      | stop torn => exact ⟨hrest, htorn torn s (Or.inr hfate) hs⟩

theorem Triple.look {fault : ε} {look : σ → Except ε α}
    (hok : ∀ s value, P s → look s = .ok value → Q value s)
    (herr : ∀ s error, P s → look s = .error error → X s)
    (htorn : ∀ torn s, allowed (.fail torn) ∨ allowed (.stop torn) → P s → X s) :
    Triple allowed P (read fault look) Q X := by
  apply Triple.step
  · intro _ s value s' hs h
    cases hlook : look s with
    | error error => simp [hlook, Except.map] at h
    | ok seen =>
        simp only [hlook, Except.map, Except.ok.injEq, Prod.mk.injEq] at h
        obtain ⟨rfl, rfl⟩ := h
        exact hok s seen hs hlook
  · intro _ s error hs h
    cases hlook : look s with
    | error seen => exact herr s seen hs hlook
    | ok seen => simp [hlook, Except.map] at h
  · exact htorn

theorem Triple.read {fault : ε} {look : σ → Except ε α}
    (hok : ∀ s value, P s → look s = .ok value → Q value s) (hX : ∀ s, P s → X s) :
    Triple allowed P (read fault look) Q X :=
  Triple.look hok (fun s _ hs _ => hX s hs) fun _ s _ hs => hX s hs

/-- A loop keeps an invariant over what it has visited and what it carries. -/
theorem Triple.loop {body : β → α → Program σ ε β} {I : List α → β → σ → Prop}
    (hbody : ∀ x rest carried, Triple allowed (I (x :: rest) carried) (body carried x)
      (I rest) X) (list : List α) (carried : β) :
    Triple allowed (I list carried) (loop body list carried) (I []) X := by
  induction list generalizing carried with
  | nil => exact Triple.ret fun _ h => h
  | cons x rest ih => exact (hbody x rest carried).bind fun next => ih next

/-! ## Runs without a fault -/

/-- With every step let through, the program turns `s` into `s'` and returns. -/
def Runs (program : Program σ ε α) (s : σ) (value : α) (s' : σ) : Prop :=
  program [] s = { ending := .returned value, rest := [], store := s' }

variable {s s' s'' : σ} {value : α} {result : β}

theorem Runs.ret : Runs (pure value : Program σ ε α) s value s := rfl

theorem Runs.bind {first : Program σ ε α} {next : α → Program σ ε β}
    (hfirst : Runs first s value s') (hnext : Runs (next value) s' result s'') :
    Runs (first >>= next) s result s'' := by
  change (first [] s).followed next = _
  rw [hfirst]
  exact hnext

theorem Runs.step {one : Step σ ε α} (h : one.act 0 s = .ok (value, s')) :
    Runs (step one) s value s' := by
  change one.finish 0 [] s = _
  rw [Step.finish, h]

theorem Runs.read {fault : ε} {look : σ → Except ε α} (h : look s = .ok value) :
    Runs (read fault look) s value s :=
  Runs.step (congrArg (Except.map (·, s)) h)

theorem Runs.attempt_ok {program : Program σ ε α} (h : Runs program s value s') :
    Runs (attempt program) s (.ok value) s' := by
  change (program [] s).caught = _
  rw [h]
  rfl

theorem Runs.attempt_read_error {fault error : ε} {look : σ → Except ε α}
    (h : look s = .error error) : Runs (attempt (Faulty.read fault look)) s (.error error) s := by
  have hfinish : Faulty.read fault look [] s =
      { ending := .raised error, rest := [], store := s } := by
    change Step.finish _ 0 [] s = _
    rw [Step.finish]
    simp only [h, Except.map]
  change (Faulty.read fault look [] s).caught = _
  rw [hfinish]
  rfl

end Faulty
