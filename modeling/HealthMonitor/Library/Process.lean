import Mathlib.Data.List.Basic

/-!
# Process

Deterministic processes: a state, actions on it, and what each action emits.
A run threads the state through a list of actions and concatenates the
emissions. The rules below carry an invariant of the state, or of the state
together with everything emitted so far, from single actions to whole runs, and
expand the actions of one process into runs of another.
-/

/-- What an action does to a state, and what it emits. -/
structure Process (σ α ε : Type*) where
  step : σ → α → σ × List ε

namespace Process

variable {σ α β ε : Type*} (P : Process σ α ε)

/-- Perform the actions in order. -/
def run (s : σ) : List α → σ × List ε
  | [] => (s, [])
  | a :: as => ((run (P.step s a).1 as).1, (P.step s a).2 ++ (run (P.step s a).1 as).2)

/-- The states of a run: the one it starts in and the one after each action. -/
def states (s : σ) : List α → List σ
  | [] => [s]
  | a :: as => s :: states (P.step s a).1 as

@[simp] theorem run_nil (s : σ) : P.run s [] = (s, []) := rfl

theorem run_cons (s : σ) (a : α) (as : List α) :
    P.run s (a :: as)
      = ((P.run (P.step s a).1 as).1, (P.step s a).2 ++ (P.run (P.step s a).1 as).2) := rfl

theorem run_append (s : σ) (as bs : List α) :
    P.run s (as ++ bs)
      = ((P.run (P.run s as).1 bs).1, (P.run s as).2 ++ (P.run (P.run s as).1 bs).2) := by
  induction as generalizing s with
  | nil => simp
  | cons a as ih =>
      rw [List.cons_append, run_cons, ih, run_cons]
      simp only [List.append_assoc]

@[simp] theorem run_singleton (s : σ) (a : α) : P.run s [a] = P.step s a := by
  simp [run_cons]

/-- To hold of every action, with the actions before it, is to hold at every index. -/
theorem forall_splits_iff {p : List α → α → Prop} {as : List α} :
    (∀ before a after, as = before ++ a :: after → p before a)
      ↔ ∀ n (h : n < as.length), p (as.take n) as[n] := by
  constructor
  · intro h n hn
    exact h _ _ (as.drop (n + 1)) (by rw [List.getElem_cons_drop, List.take_append_drop])
  · rintro h before a after rfl
    have hn : before.length < (before ++ a :: after).length := by simp
    have := h before.length hn
    rwa [List.take_left, List.getElem_append_right (Nat.le_refl _), getElem_congr_idx
      (Nat.sub_self _)] at this

/-! ## Invariants -/

/-- A property that every permitted action keeps. -/
def Preserves (permitted : α → Prop) (I : σ → Prop) : Prop :=
  ∀ s a, permitted a → I s → I (P.step s a).1

variable {P} {permitted : α → Prop}

theorem Preserves.run {I : σ → Prop} (h : P.Preserves permitted I) {s : σ} {as : List α}
    (has : ∀ a ∈ as, permitted a) (hs : I s) : I (P.run s as).1 := by
  induction as generalizing s with
  | nil => exact hs
  | cons a as ih =>
      exact ih (fun b hb => has b (by simp [hb])) (h s a (has a (by simp)) hs)

/-- The invariant holds in every state along the run. -/
theorem Preserves.states {I : σ → Prop} (h : P.Preserves permitted I) {s : σ}
    {as : List α} (has : ∀ a ∈ as, permitted a) (hs : I s) :
    ∀ t ∈ P.states s as, I t := by
  induction as generalizing s with
  | nil =>
      intro t ht
      rw [Process.states, List.mem_singleton] at ht
      exact ht ▸ hs
  | cons a as ih =>
      intro t ht
      rcases List.mem_cons.mp ht with rfl | ht
      · exact hs
      · exact ih (fun b hb => has b (by simp [hb])) (h s a (has a (by simp)) hs) t ht

/-- A property of the state and of everything emitted so far. -/
def Tracks (P : Process σ α ε) (permitted : α → Prop) (I : List ε → σ → Prop) : Prop :=
  ∀ log s a, permitted a → I log s → I (log ++ (P.step s a).2) (P.step s a).1

theorem Tracks.run {I : List ε → σ → Prop} (h : P.Tracks permitted I) {log : List ε}
    {s : σ} {as : List α} (has : ∀ a ∈ as, permitted a) (hs : I log s) :
    I (log ++ (P.run s as).2) (P.run s as).1 := by
  induction as generalizing log s with
  | nil => simpa using hs
  | cons a as ih =>
      have hstep := h log s a (has a (by simp)) hs
      have := ih (fun b hb => has b (by simp [hb])) hstep
      rwa [List.append_assoc] at this

/-- The same, from a state about which nothing was emitted yet. -/
theorem Tracks.run_start {I : List ε → σ → Prop} (h : P.Tracks permitted I) (s : σ)
    (as : List α) (has : ∀ a ∈ as, permitted a) (hs : I [] s) :
    I (P.run s as).2 (P.run s as).1 :=
  h.run has hs

/-! ## Expanding actions -/

/-- Perform every action of a run by a run of another process. -/
def expand (P : Process σ α ε) (actions : σ → β → List α) (s : σ) : List β → List α
  | [] => []
  | b :: bs => actions s b ++ expand P actions (P.run s (actions s b)).1 bs

theorem run_expand {δ : Type*} {Q : Process σ β δ} {actions : σ → β → List α}
    {view : List ε → List δ} (hview : ∀ as bs, view (as ++ bs) = view as ++ view bs)
    (hnil : view [] = [])
    (h : ∀ s b, Q.step s b = ((P.run s (actions s b)).1, view (P.run s (actions s b)).2))
    (s : σ) (bs : List β) :
    Q.run s bs
      = ((P.run s (P.expand actions s bs)).1, view (P.run s (P.expand actions s bs)).2) := by
  induction bs generalizing s with
  | nil => simp [expand, hnil]
  | cons b bs ih =>
      rw [run_cons, h, ih, expand, run_append, hview]

theorem expand_append (P : Process σ α ε) (actions : σ → β → List α) (s : σ)
    (bs cs : List β) :
    P.expand actions s (bs ++ cs)
      = P.expand actions s bs
        ++ P.expand actions (P.run s (P.expand actions s bs)).1 cs := by
  induction bs generalizing s with
  | nil => rfl
  | cons b bs ih =>
      rw [List.cons_append, expand, ih, expand, List.append_assoc, run_append]

end Process
