import HealthMonitor.Core.CollectionBudget

/-!
# Merging

Whole calls on one limit. What other limits claim from the shared budget in between is seen
as the state in which each item finds it. A call goes on until an item is refused, and a
limit that refused once stays limited.
-/

namespace HealthMonitor.CollectionBudget.Limit

/-- Charge the items one after another: what was there before with the items that were
admitted, and whether that was all of them. -/
def charge {α : Type} (size : α → Nat) (full : Limit → List α → Bool) (count : Limit → Limit)
    (shared : Nat → Shared) (moment : Nat) (limit : Limit) (out : List α) :
    List α → Limit × List α × Bool
  | [] => (limit, out, true)
  | x :: rest =>
      match limit.admits (shared moment) (full limit out) (size x) with
      | some (limit, _) => charge size full count shared (moment + 1) (count limit) (out ++ [x]) rest
      | none => (limit.markLimited, out, false)

def admitOperations (host : Host) (shared : Nat → Shared) (moment : Nat) (limit : Limit)
    (out incoming : List Operation) : Limit × List Operation × Bool :=
  charge (operationBytes host) (fun limit _ => limit.assets ≤ limit.operations)
    (fun limit => { limit with operations := limit.operations + 1 }) shared moment limit out
    incoming

def admitObservations (host : Host) (shared : Nat → Shared) (moment : Nat) (limit : Limit)
    (out incoming : List Observation) : Limit × List Observation × Bool :=
  charge (observationBytes host) (fun limit out => limit.assets ≤ out.length) id shared moment
    limit out incoming

/-- Operations come first; when an observation is refused, those that were just added are
no longer complete. -/
def merge (host : Host) (shared : Nat → Shared) (limit : Limit) (out incoming : CheckResult) :
    Limit × CheckResult :=
  let operations := limit.admitOperations host shared 0 out.operations incoming.operations
  let observations :=
    operations.1.admitObservations host shared incoming.operations.length out.observations
      incoming.observations
  let merged := { out with operations := operations.2.1, observations := observations.2.1 }
  (observations.1,
    if observations.2.2 then merged else Collector.truncateFrom merged out.operations.length)

def finish (limit : Limit) (result : CheckResult) (required : Bool) (clock : Time) : CheckResult :=
  { limit, out := result, work := .idle : Collector }.finish required clock

/-! ## What a call admits -/

theorem admits_limited {limit limit' : Limit} {shared shared' : Shared} {full : Bool} {size : Nat}
    (h : limit.admits shared full size = some (limit', shared')) :
    limit'.limited = limit.limited := by
  rw [(admits_some h).1]

section charge

variable {α : Type} {size : α → Nat} {full : Limit → List α → Bool} {count : Limit → Limit}
  {shared : Nat → Shared}

variable (size full count shared) in
/-- A call admits items up to the first one that is refused, which limits the collection. -/
theorem charge_spec (hcount : ∀ limit, (count limit).limited = limit.limited)
    (moment : Nat) (limit : Limit) (out incoming : List α) :
    ∃ kept rest, incoming = kept ++ rest
      ∧ (charge size full count shared moment limit out incoming).2.1 = out ++ kept
      ∧ ((charge size full count shared moment limit out incoming).2.2 = true ↔ rest = [])
      ∧ (charge size full count shared moment limit out incoming).1.limited
        = (limit.limited || !rest.isEmpty) := by
  induction incoming generalizing moment limit out with
  | nil => exact ⟨[], [], rfl, by simp [charge]⟩
  | cons x incoming ih =>
      cases hadmits : limit.admits (shared moment) (full limit out) (size x) with
      | none =>
          refine ⟨[], x :: incoming, rfl, ?_⟩
          simp [charge, hadmits, markLimited]
      | some admitted =>
          obtain ⟨next, after⟩ := admitted
          obtain ⟨kept, rest, hsplit, hout, hwhole, hlimited⟩ :=
            ih (moment + 1) (count next) (out ++ [x])
          have hrest : charge size full count shared moment limit out (x :: incoming)
              = charge size full count shared (moment + 1) (count next) (out ++ [x]) incoming := by
            rw [charge, hadmits]
          rw [hrest]
          refine ⟨x :: kept, rest, by rw [hsplit, List.cons_append], ?_, hwhole, ?_⟩
          · rw [hout, List.append_assoc, List.singleton_append]
          · rw [hlimited, hcount, admits_limited hadmits]

variable (size full count) in
/-- A call after which the collection is not limited has admitted everything. -/
theorem charge_whole (hcount : ∀ limit, (count limit).limited = limit.limited) {moment : Nat}
    {limit : Limit} {out incoming : List α}
    (h : (charge size full count shared moment limit out incoming).1.limited = false) :
    limit.limited = false
      ∧ (charge size full count shared moment limit out incoming).2 = (out ++ incoming, true) := by
  obtain ⟨kept, rest, hsplit, hout, hwhole, hlimited⟩ :=
    charge_spec size full count shared hcount moment limit out incoming
  rw [hlimited, Bool.or_eq_false_iff] at h
  have hrest : rest = [] := by simpa using h.2
  rw [hrest, List.append_nil] at hsplit
  refine ⟨h.1, Prod.ext ?_ (hwhole.mpr hrest)⟩
  rw [hout, hsplit]

end charge

theorem admitObservations_spec (host : Host) (shared : Nat → Shared) (moment : Nat)
    (limit : Limit) (out incoming : List Observation) :
    ∃ kept rest, incoming = kept ++ rest
      ∧ (limit.admitObservations host shared moment out incoming).2.1 = out ++ kept
      ∧ ((limit.admitObservations host shared moment out incoming).2.2 = true ↔ rest = [])
      ∧ (limit.admitObservations host shared moment out incoming).1.limited
        = (limit.limited || !rest.isEmpty) :=
  charge_spec _ _ _ _ (fun _ => rfl) moment limit out incoming

theorem admitOperations_spec (host : Host) (shared : Nat → Shared) (moment : Nat)
    (limit : Limit) (out incoming : List Operation) :
    ∃ kept rest, incoming = kept ++ rest
      ∧ (limit.admitOperations host shared moment out incoming).2.1 = out ++ kept
      ∧ ((limit.admitOperations host shared moment out incoming).2.2 = true ↔ rest = [])
      ∧ (limit.admitOperations host shared moment out incoming).1.limited
        = (limit.limited || !rest.isEmpty) :=
  charge_spec _ _ (fun limit => { limit with operations := limit.operations + 1 }) _
    (fun _ => rfl) moment limit out incoming

theorem admitObservations_whole {host : Host} {shared : Nat → Shared} {moment : Nat}
    (limit : Limit) {out incoming : List Observation}
    (h : (limit.admitObservations host shared moment out incoming).1.limited = false) :
    limit.limited = false
      ∧ (limit.admitObservations host shared moment out incoming).2 = (out ++ incoming, true) :=
  charge_whole _ _ _ (fun _ => rfl) h

theorem admitOperations_whole {host : Host} {shared : Nat → Shared} {moment : Nat}
    {limit : Limit} {out incoming : List Operation}
    (h : (limit.admitOperations host shared moment out incoming).1.limited = false) :
    limit.limited = false
      ∧ (limit.admitOperations host shared moment out incoming).2 = (out ++ incoming, true) :=
  charge_whole _ _ (fun limit => { limit with operations := limit.operations + 1 })
    (fun _ => rfl) h

/-- A merge that leaves the collection unlimited has brought everything along. -/
theorem merge_whole {host : Host} {shared : Nat → Shared} {limit : Limit}
    {out incoming : CheckResult} (h : (limit.merge host shared out incoming).1.limited = false) :
    limit.limited = false
      ∧ (limit.merge host shared out incoming).2
        = { out with
            operations := out.operations ++ incoming.operations
            observations := out.observations ++ incoming.observations } := by
  obtain ⟨hafter, hobs⟩ :=
    admitObservations_whole (limit.admitOperations host shared 0 out.operations
      incoming.operations).1 h
  obtain ⟨hlimit, hops⟩ := admitOperations_whole hafter
  refine ⟨hlimit, ?_⟩
  simp only [merge, hops, hobs, if_true]

end HealthMonitor.CollectionBudget.Limit
