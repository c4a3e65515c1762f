import HealthMonitor.Core.Budget

/-!
# Reservations

Attempts to charge any amount to a budget at once, by any number of tasks. An attempt adds
its amount by an optimistic exchange, and takes it back when the limit was lowered in the
meantime. Every load, exchange and subtraction is a step of its own; other attempts, drops
and resizes come in between.
-/

namespace HealthMonitor.Reservations

open Entries

/-- Where a call of `try_acquire_many_owned` is. -/
inductive Phase where
  | loading
  | checking (used : Nat)
  | swapping (used : Nat)
  | confirming (total : Nat)
  | refunding
  deriving DecidableEq, Repr

/-- A call for an amount, and its permit. -/
inductive Claim where
  | trying (amount : Nat) (phase : Phase)
  | held (amount : Nat)
  | refused
  | dropped
  deriving DecidableEq, Repr

/-- `fetch_sub`, which wraps around. -/
def fetchSub (used amount : Nat) : Nat := (used + (u64Max + 1) - amount) % (u64Max + 1)

/-- The next step of an attempt. The weak exchange may fail for no reason. -/
def advance (b : Budget) (amount : Nat) (phase : Phase) (spurious : Bool) : Budget × Claim :=
  match phase with
  | .loading => (b, .trying amount (.checking b.used))
  | .checking used =>
      if u64Max < used + amount || b.limit < used + amount then (b, .refused)
      else (b, .trying amount (.swapping used))
  | .swapping used =>
      if b.used = used && !spurious then
        ({ b with used := used + amount }, .trying amount (.confirming (used + amount)))
      else (b, .trying amount (.checking b.used))
  | .confirming sum =>
      if b.limit < sum then (b, .trying amount .refunding) else (b, .held amount)
  | .refunding => ({ b with used := fetchSub b.used amount }, .refused)

structure State where
  budget : Budget
  claims : List Claim

inductive Action where
  | call (amount : Nat)
  | advance (index : Nat) (spurious : Bool)
  | drop (index : Nat)
  | resize (limit : Nat)

namespace State

def step (s : State) : Action → State
  | .call amount => { s with claims := s.claims ++ [.trying amount .loading] }
  | .advance index spurious =>
      match s.claims[index]? with
      | some (.trying amount phase) =>
          let (budget, claim) := Reservations.advance s.budget amount phase spurious
          { budget, claims := s.claims.set index claim }
      | _ => s
  | .drop index =>
      match s.claims[index]? with
      | some (.held amount) =>
          { budget := { s.budget with used := fetchSub s.budget.used amount }
            claims := s.claims.set index .dropped }
      | _ => s
  | .resize limit => { s with budget := s.budget.resize limit }

def run (s : State) (actions : List Action) : State := actions.foldl step s

def new (limit : Nat) : State where
  budget := .new limit
  claims := []

end State

/-! ## What is charged -/

/-- What a call has charged: from its exchange until it is refused or its permit dropped. -/
def Claim.charge : Claim → Nat
  | .trying amount (.confirming _) => amount
  | .trying amount .refunding => amount
  | .held amount => amount
  | _ => 0

/-- What an attempt is about to write is within a word. -/
def Claim.Bounded : Claim → Prop
  | .trying amount (.swapping used) => used + amount ≤ u64Max
  | _ => True

structure Charged (s : State) : Prop where
  used : s.budget.used = total Claim.charge s.claims
  word : s.budget.used ≤ u64Max
  bounded : ∀ claim ∈ s.claims, claim.Bounded

theorem fetchSub_eq {used amount : Nat} (hword : used ≤ u64Max) (hle : amount ≤ used) :
    fetchSub used amount = used - amount := by
  rw [fetchSub, show used + (u64Max + 1) - amount = used - amount + (u64Max + 1) by omega,
    Nat.add_mod_right, Nat.mod_eq_of_lt (by omega)]

namespace Charged

variable {s : State} {index amount : Nat}

theorem new (limit : Nat) : Charged (.new limit) :=
  ⟨rfl, Nat.zero_le _, fun _ h => absurd h List.not_mem_nil⟩

/-- A claim has no more charged than is used. -/
theorem charge_le (h : Charged s) {claim : Claim} (hclaim : s.claims[index]? = some claim) :
    claim.charge ≤ s.budget.used := by
  have := total_eraseIdx Claim.charge hclaim
  have := h.used
  omega

/-- One claim changes, and what is used with its charge. -/
theorem change (h : Charged s) {claim next : Claim} (hclaim : s.claims[index]? = some claim)
    {budget : Budget} (hused : budget.used + claim.charge = s.budget.used + next.charge)
    (hword : budget.used ≤ u64Max) (hnext : next.Bounded) :
    Charged { budget, claims := s.claims.set index next } := by
  have hset := total_set Claim.charge hclaim next
  have := h.used
  refine ⟨?_, hword, fun other hother => ?_⟩
  · show budget.used = total Claim.charge (s.claims.set index next)
    omega
  · rcases List.mem_or_eq_of_mem_set hother with hother | rfl
    · exact h.bounded other hother
    · exact hnext

theorem advance (h : Charged s) {phase : Phase}
    (hclaim : s.claims[index]? = some (.trying amount phase)) (spurious : Bool) :
    Charged
      { budget := (Reservations.advance s.budget amount phase spurious).1
        claims := s.claims.set index (Reservations.advance s.budget amount phase spurious).2 } := by
  cases phase with
  | loading => exact h.change hclaim rfl h.word trivial
  | checking used =>
      rw [Reservations.advance]
      by_cases hfull : (u64Max < used + amount || s.budget.limit < used + amount : Bool) = true
      · rw [if_pos hfull]
        exact h.change hclaim rfl h.word trivial
      · rw [if_neg hfull]
        rw [Bool.or_eq_true, decide_eq_true_eq, decide_eq_true_eq, not_or] at hfull
        exact h.change hclaim rfl h.word (Nat.not_lt.mp hfull.1)
  | swapping used =>
      rw [Reservations.advance]
      by_cases hswap : (s.budget.used = used && !spurious : Bool) = true
      · rw [if_pos hswap]
        rw [Bool.and_eq_true, decide_eq_true_eq] at hswap
        have hbounded : used + amount ≤ u64Max := h.bounded _ (List.mem_of_getElem? hclaim)
        refine h.change hclaim ?_ hbounded trivial
        show used + amount + 0 = s.budget.used + amount
        omega
      · rw [if_neg hswap]
        exact h.change hclaim rfl h.word trivial
  | confirming sum =>
      rw [Reservations.advance]
      by_cases hover : s.budget.limit < sum
      · rw [if_pos hover]
        exact h.change hclaim rfl h.word trivial
      · rw [if_neg hover]
        exact h.change hclaim rfl h.word trivial
  | refunding =>
      have hle : amount ≤ s.budget.used := h.charge_le hclaim
      have hsub := fetchSub_eq h.word hle
      have := h.word
      refine h.change hclaim ?_ ?_ trivial
      · show fetchSub s.budget.used amount + amount = s.budget.used + 0
        omega
      · show fetchSub s.budget.used amount ≤ u64Max
        omega

theorem drop (h : Charged s) (hclaim : s.claims[index]? = some (.held amount)) :
    Charged
      { budget := { s.budget with used := fetchSub s.budget.used amount }
        claims := s.claims.set index .dropped } := by
  have hle : amount ≤ s.budget.used := h.charge_le hclaim
  have hsub := fetchSub_eq h.word hle
  have := h.word
  refine h.change hclaim ?_ ?_ trivial
  · show fetchSub s.budget.used amount + amount = s.budget.used + 0
    omega
  · show fetchSub s.budget.used amount ≤ u64Max
    omega

theorem step (h : Charged s) (action : Action) : Charged (s.step action) := by
  cases action with
  | call amount =>
      refine ⟨?_, h.word, fun claim hclaim => ?_⟩
      · have := h.used
        show s.budget.used = total Claim.charge (s.claims ++ [.trying amount .loading])
        simpa [Claim.charge] using this
      · rcases List.mem_append.mp hclaim with hclaim | hclaim
        · exact h.bounded claim hclaim
        · rw [List.mem_singleton.mp hclaim]
          trivial
  | advance index spurious =>
      rw [State.step]
      cases hclaim : s.claims[index]? with
      | none => exact h
      | some claim =>
          cases claim with
          | trying amount phase => exact h.advance hclaim spurious
          | _ => exact h
  | drop index =>
      rw [State.step]
      cases hclaim : s.claims[index]? with
      | none => exact h
      | some claim =>
          cases claim with
          | held amount => exact h.drop hclaim
          | _ => exact h
  | resize limit => exact ⟨h.used, h.word, h.bounded⟩

/-- The run lemma: every reachable state is charged what its claims say. -/
theorem run (h : Charged s) (actions : List Action) : Charged (s.run actions) := by
  induction actions generalizing s with
  | nil => exact h
  | cons action actions ih => exact ih (h.step action)

end Charged

/-! ## Any interleaving -/

/-- After any steps of any calls, drops and resizes: what is used is what permits hold and
attempts have exchanged but not decided on, and no subtraction goes below zero. A call is
granted a permit only when the sum it exchanged is within the limit at that moment, one that
is refused leaves what the others have charged, and a new limit takes nothing from anyone. -/
theorem reservations_charged (limit : Nat) (actions : List Action) :
    let s := (State.new limit).run actions
    s.budget.used = total Claim.charge s.claims
      ∧ (∀ (index amount : Nat), s.claims[index]? = some (.held amount)
          ∨ s.claims[index]? = some (.trying amount .refunding) →
          amount ≤ s.budget.used
            ∧ fetchSub s.budget.used amount + amount = s.budget.used)
      ∧ (∀ (index amount : Nat) (phase : Phase) (spurious : Bool),
          s.claims[index]? = some (.trying amount phase) →
          (∀ sum, (advance s.budget amount phase spurious).2 = .trying amount (.confirming sum) →
            (advance s.budget amount phase spurious).1.used = sum
              ∧ s.budget.used + amount = sum)
          ∧ ((advance s.budget amount phase spurious).2 = .held amount →
            ∃ sum, phase = .confirming sum ∧ sum ≤ s.budget.limit)
          ∧ ((advance s.budget amount phase spurious).2 = .refused →
            (advance s.budget amount phase spurious).1.used
              = total Claim.charge (s.claims.eraseIdx index)))
      ∧ ∀ lowered, (s.step (.resize lowered)).budget.used = s.budget.used
          ∧ (s.step (.resize lowered)).claims = s.claims := by
  intro s
  have h : Charged s := (Charged.new limit).run actions
  refine ⟨h.used, fun index amount hclaim => ?_,
    fun index amount phase spurious hclaim => ⟨fun sum => ?_, ?_, ?_⟩, fun _ => ⟨rfl, rfl⟩⟩
  · have hle : amount ≤ s.budget.used := by
      rcases hclaim with hclaim | hclaim
      · exact h.charge_le hclaim
      · exact h.charge_le hclaim
    exact ⟨hle, by rw [fetchSub_eq h.word hle, Nat.sub_add_cancel hle]⟩
  · intro hexchanged
    cases phase with
    | swapping used =>
        rw [advance] at hexchanged ⊢
        by_cases hswap : (s.budget.used = used && !spurious : Bool) = true
        · rw [if_pos hswap] at hexchanged ⊢
          rw [Bool.and_eq_true, decide_eq_true_eq] at hswap
          cases hexchanged
          exact ⟨rfl, by rw [hswap.1]⟩
        · rw [if_neg hswap] at hexchanged
          cases hexchanged
    | loading => cases hexchanged
    | refunding => cases hexchanged
    | checking used =>
        rw [advance] at hexchanged
        split at hexchanged <;> cases hexchanged
    | confirming sum =>
        rw [advance] at hexchanged
        split at hexchanged <;> cases hexchanged
  · intro hheld
    cases phase with
    | confirming sum =>
        refine ⟨sum, rfl, ?_⟩
        rw [advance] at hheld
        by_cases hover : s.budget.limit < sum
        · rw [if_pos hover] at hheld
          cases hheld
        · exact Nat.not_lt.mp hover
    | loading => cases hheld
    | refunding => cases hheld
    | checking used =>
        rw [advance] at hheld
        split at hheld <;> cases hheld
    | swapping used =>
        rw [advance] at hheld
        split at hheld <;> cases hheld
  · intro hrefused
    have hnext := (h.advance hclaim spurious).used
    have hset := total_set Claim.charge hclaim (advance s.budget amount phase spurious).2
    have herase := total_eraseIdx Claim.charge hclaim
    rw [hrefused] at hset hnext
    have hzero : Claim.charge .refused = 0 := rfl
    dsimp only at hnext
    omega

end HealthMonitor.Reservations
