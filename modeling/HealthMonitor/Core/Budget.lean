import HealthMonitor.Core.Units
import HealthMonitor.Library.Entries

/-!
# Budget

Shared admission limits can shrink without forgetting work still in flight. One caller at
a time holds the admission lock and tries to charge the budget: it loads what is used,
compares with the limit, swaps, and compares again. Every load, store and exchange is a
step of its own; drops and resizes come in between.

`Lane` is what a budget and the callers at it agree on: what is used is what they have
charged, and the lock is held by one of them at most.
-/

namespace HealthMonitor

open Entries

structure Budget where
  limit : Nat
  used : Nat
  busy : Bool
  deriving DecidableEq, Repr

/-- Where a call of `acquire` is. `queued` waits for the admission lock; all other
places hold it. -/
inductive Turn where
  | queued
  | loading
  | checking (used : Nat)
  | swapping (used : Nat)
  | confirming (total : Nat)
  | refunding
  | waiting
  deriving DecidableEq, Repr

/-- What a budget is to a caller: nothing, something it asks for, or has. -/
inductive Stand where
  | out
  | turning (turn : Turn)
  | holding
  deriving DecidableEq, Repr

namespace Budget

def new (limit : Nat) : Budget where
  limit := limit
  used := 0
  busy := false

def resize (b : Budget) (limit : Nat) : Budget :=
  { b with limit := limit }

/-- Dropping a permit. -/
def release (b : Budget) : Budget :=
  { b with used := b.used - 1 }

/-- The next step of `acquire` for one permit. The weak exchange may fail for no
reason. -/
def attempt (b : Budget) (turn : Turn) (spurious : Bool) : Budget × Stand :=
  match turn with
  | .queued => if b.busy then (b, .turning .queued) else ({ b with busy := true }, .turning .loading)
  | .loading => (b, .turning (.checking b.used))
  | .checking used =>
      if u64Max < used + 1 || b.limit < used + 1 then (b, .turning .waiting)
      else (b, .turning (.swapping used))
  | .swapping used =>
      if b.used = used && !spurious then
        ({ b with used := used + 1 }, .turning (.confirming (used + 1)))
      else (b, .turning (.checking b.used))
  | .confirming total =>
      if b.limit < total then (b, .turning .refunding) else ({ b with busy := false }, .holding)
  | .refunding => (b.release, .turning .waiting)
  | .waiting => (b, .turning .loading)

/-- A waiter is dropped, and the lock with it if it holds it. -/
def cancel (b : Budget) (turn : Turn) : Budget :=
  if turn = .waiting then { b with busy := false } else b

/-! Only a resize changes the limit. -/

@[simp] theorem attempt_limit (b : Budget) (turn : Turn) (spurious : Bool) :
    (b.attempt turn spurious).1.limit = b.limit := by
  cases turn <;> rw [attempt]
  all_goals first | rfl | (split <;> rfl)

@[simp] theorem cancel_limit (b : Budget) (turn : Turn) : (b.cancel turn).limit = b.limit := by
  rw [cancel]
  split <;> rfl

end Budget

/-! ## Callers at a budget -/

/-- What a caller has charged. -/
def Stand.charge : Stand → Nat
  | .out => 0
  | .turning (.confirming _) => 1
  | .turning .refunding => 1
  | .turning _ => 0
  | .holding => 1

/-- Whether a caller holds the admission lock. -/
def Stand.locks : Stand → Nat
  | .out => 0
  | .turning .queued => 0
  | .turning _ => 1
  | .holding => 0

/-- Whether a caller has a permit. -/
def Stand.permits : Stand → Nat
  | .holding => 1
  | _ => 0

/-- Before the second comparison nothing was charged since the exchange. -/
def Stand.Bounded (b : Budget) : Stand → Prop
  | .turning (.confirming total) => b.used ≤ total
  | _ => True

structure Lane (b : Budget) (stands : List Stand) : Prop where
  used : b.used = total Stand.charge stands
  busy : total Stand.locks stands = if b.busy then 1 else 0
  bounded : ∀ stand ∈ stands, stand.Bounded b

namespace Lane

variable {b : Budget} {stands : List Stand} {i : Nat}

theorem empty (limit : Nat) : Lane (.new limit) [] :=
  ⟨rfl, rfl, by simp⟩

/-- Callers that are nothing to a budget do not count. -/
theorem fresh (limit : Nat) (h : ∀ stand ∈ stands, stand = .out) :
    Lane (.new limit) stands := by
  refine ⟨?_, ?_, fun stand hstand => by rw [h stand hstand]; trivial⟩
  · rw [total_eq_zero fun stand hstand => by rw [h stand hstand]; rfl]
    rfl
  · rw [total_eq_zero fun stand hstand => by rw [h stand hstand]; rfl]
    rfl

theorem resize (h : Lane b stands) (limit : Nat) : Lane (b.resize limit) stands := by
  refine ⟨h.used, h.busy, fun stand hstand => ?_⟩
  have := h.bounded stand hstand
  cases stand with
  | turning turn => cases turn <;> exact this
  | out => trivial
  | holding => trivial

/-- A caller arrives. -/
theorem arrive (h : Lane b stands) {stand : Stand}
    (hstand : stand = .out ∨ stand = .turning .queued) : Lane b (stands ++ [stand]) := by
  have hnothing : stand.charge = 0 ∧ stand.locks = 0 ∧ stand.Bounded b := by
    rcases hstand with rfl | rfl <;> exact ⟨rfl, rfl, trivial⟩
  refine ⟨?_, ?_, fun other hother => ?_⟩
  · rw [total_append, total_cons, total_nil, hnothing.1, h.used]
    omega
  · rw [total_append, total_cons, total_nil, hnothing.2.1, h.busy]
    omega
  · rcases List.mem_append.mp hother with hother | hother
    · exact h.bounded other hother
    · rw [List.mem_singleton] at hother
      exact hother ▸ hnothing.2.2

/-- Besides a caller that holds the lock none is about to compare again. -/
theorem bounded_of_locks (h : Lane b stands) {stand : Stand} (hi : stands[i]? = some stand)
    (hlocks : stand.locks = 1) (c : Budget) (other : Stand) (hother : other ∈ stands.eraseIdx i) :
    other.Bounded c := by
  have herase := total_eraseIdx Stand.locks hi
  have hbusy := h.busy
  have hnone : total Stand.locks (stands.eraseIdx i) = 0 := by
    split at hbusy <;> omega
  have hzero : other.locks = 0 := by
    obtain ⟨j, hj⟩ := List.getElem?_of_mem hother
    have := total_eraseIdx Stand.locks hj
    omega
  cases other with
  | turning turn => cases turn <;> trivial
  | out => trivial
  | holding => trivial

/-- One caller changes where it stands, and the budget with it. -/
theorem change (h : Lane b stands) {stand next : Stand} (hi : stands[i]? = some stand)
    {c : Budget} (hused : c.used + stand.charge = b.used + next.charge)
    (hbusy : (if c.busy then 1 else 0) + stand.locks = (if b.busy then 1 else 0) + next.locks)
    (hnext : next.Bounded c)
    (hrest : stand.locks = 1 ∨ c.used ≤ b.used) : Lane c (stands.set i next) := by
  have hcharge := total_set Stand.charge hi next
  have hlocks := total_set Stand.locks hi next
  have := h.used
  have := h.busy
  refine ⟨by omega, by omega, fun other hother => ?_⟩
  obtain ⟨hlt, -⟩ := List.getElem?_eq_some_iff.mp hi
  rcases List.mem_cons.mp ((List.set_perm_cons_eraseIdx hlt next).mem_iff.mp hother) with
    rfl | hother
  · exact hnext
  · rcases hrest with hholds | hless
    · exact h.bounded_of_locks hi hholds c other hother
    · have hbounded := h.bounded other (List.mem_of_mem_eraseIdx hother)
      cases other with
      | turning turn =>
          cases turn <;> first | trivial | exact Nat.le_trans hless hbounded
      | out => trivial
      | holding => trivial

/-- A step of `acquire`. -/
theorem attempt (h : Lane b stands) {turn : Turn} (hi : stands[i]? = some (.turning turn))
    (spurious : Bool) :
    Lane (b.attempt turn spurious).1 (stands.set i (b.attempt turn spurious).2) := by
  have hheld : turn ≠ .queued → (Stand.turning turn).locks = 1 := by
    intro hne
    cases turn <;> first | rfl | exact absurd rfl hne
  have hbusy : turn ≠ .queued → b.busy = true := by
    intro hne
    have herase := total_eraseIdx Stand.locks hi
    have hlocks := h.busy
    have := hheld hne
    split at hlocks
    · assumption
    · omega
  cases turn with
  | queued =>
      rw [Budget.attempt]
      cases hlock : b.busy with
      | true => exact h.change hi rfl rfl trivial (.inr (Nat.le_refl _))
      | false =>
          refine h.change hi rfl ?_ trivial (.inr (Nat.le_refl _))
          simp [hlock, Stand.locks]
  | loading => exact h.change hi rfl rfl trivial (.inl rfl)
  | checking used =>
      rw [Budget.attempt]
      split
      · exact h.change hi rfl rfl trivial (.inl rfl)
      · exact h.change hi rfl rfl trivial (.inl rfl)
  | swapping used =>
      rw [Budget.attempt]
      split
      · next hswap =>
          simp only [Bool.and_eq_true, decide_eq_true_eq] at hswap
          refine h.change hi ?_ rfl (Nat.le_refl _) (.inl rfl)
          simp only [Stand.charge]
          omega
      · exact h.change hi rfl rfl trivial (.inl rfl)
  | confirming total =>
      rw [Budget.attempt]
      split
      · exact h.change hi rfl rfl trivial (.inl rfl)
      · refine h.change hi rfl ?_ trivial (.inl rfl)
        simp [hbusy (fun h => by cases h), Stand.locks]
  | refunding =>
      have hcharged : _ + 1 = _ := total_eraseIdx Stand.charge hi
      have := h.used
      refine h.change hi ?_ rfl trivial (.inl rfl)
      show b.used - 1 + 1 = b.used + 0
      omega
  | waiting => exact h.change hi rfl rfl trivial (.inl rfl)

/-- A permit that is granted is within the limit, with everything that is charged. -/
theorem within_of_holding (h : Lane b stands) {turn : Turn}
    (hi : stands[i]? = some (.turning turn)) {spurious : Bool}
    (hgranted : (b.attempt turn spurious).2 = .holding) :
    (b.attempt turn spurious).1.used ≤ b.limit := by
  cases turn with
  | confirming total =>
      have hbounded : b.used ≤ total := h.bounded _ (List.mem_of_getElem? hi)
      rw [Budget.attempt] at hgranted ⊢
      split at hgranted
      · cases hgranted
      · next hfits =>
          rw [if_neg hfits]
          exact hbounded.trans (Nat.not_lt.mp hfits)
  | queued =>
      rw [Budget.attempt] at hgranted
      split at hgranted <;> cases hgranted
  | checking used =>
      rw [Budget.attempt] at hgranted
      split at hgranted <;> cases hgranted
  | swapping used =>
      rw [Budget.attempt] at hgranted
      split at hgranted <;> cases hgranted
  | loading => cases hgranted
  | refunding => cases hgranted
  | waiting => cases hgranted

/-- Permits are charged, and so may be others that are not permits yet. -/
theorem permits_le (h : Lane b stands) : total Stand.permits stands ≤ b.used := by
  rw [h.used]
  refine total_le_total fun stand _ => ?_
  cases stand with
  | holding => exact Nat.le_refl _
  | out => exact Nat.zero_le _
  | turning turn => exact Nat.zero_le _

/-- Where a step leaves more permits than there were, they are within the limit. -/
theorem permits_attempt (h : Lane b stands) {turn : Turn}
    (hi : stands[i]? = some (.turning turn)) (spurious : Bool) :
    (b.attempt turn spurious).2 ≠ .holding
        ∧ total Stand.permits (stands.set i (b.attempt turn spurious).2)
          ≤ total Stand.permits stands
      ∨ total Stand.permits (stands.set i (b.attempt turn spurious).2) ≤ b.limit := by
  have hlane := h.attempt hi spurious
  have htotal := total_set Stand.permits hi (b.attempt turn spurious).2
  cases hstand : (b.attempt turn spurious).2 with
  | holding =>
      rw [hstand] at hlane
      exact .inr (hlane.permits_le.trans (h.within_of_holding hi hstand))
  | out =>
      rw [hstand] at htotal
      exact .inl ⟨by simp, Nat.le.intro htotal⟩
  | turning next =>
      rw [hstand] at htotal
      exact .inl ⟨by simp, Nat.le.intro htotal⟩

theorem permits_leave {stand : Stand} (hi : stands[i]? = some stand) :
    total Stand.permits (stands.set i .out) ≤ total Stand.permits stands :=
  Nat.le.intro (total_set Stand.permits hi .out)

/-- A caller that was nothing to the budget queues for it. -/
theorem join (h : Lane b stands) (hi : stands[i]? = some .out) :
    Lane b (stands.set i (.turning .queued)) :=
  h.change hi rfl rfl trivial (.inr (Nat.le_refl _))

/-- A permit is given back. -/
theorem release (h : Lane b stands) (hi : stands[i]? = some .holding) :
    Lane b.release (stands.set i .out) := by
  have hcharged : _ + 1 = _ := total_eraseIdx Stand.charge hi
  have := h.used
  refine h.change hi ?_ rfl trivial (.inr (Nat.sub_le _ _))
  show b.used - 1 + 1 = b.used + 0
  omega

/-- A waiter is dropped. -/
theorem cancel (h : Lane b stands) {turn : Turn} (hi : stands[i]? = some (.turning turn))
    (hwaits : turn = .queued ∨ turn = .waiting) :
    Lane (b.cancel turn) (stands.set i .out) := by
  rcases hwaits with rfl | rfl
  · exact h.change hi rfl rfl trivial (.inr (Nat.le_refl _))
  · have hbusy : b.busy = true := by
      have hheld : _ + 1 = _ := total_eraseIdx Stand.locks hi
      have hlocks := h.busy
      split at hlocks
      · assumption
      · omega
    refine h.change hi rfl ?_ trivial (.inl rfl)
    simp [Budget.cancel, hbusy, Stand.locks]

end Lane

end HealthMonitor
