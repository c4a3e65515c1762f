import HealthMonitor.Core.Bounds
import HealthMonitor.Core.Units
import HealthMonitor.Library.Entries
import HealthMonitor.Library.Process

/-!
# CollectionBudget

Per-collection admission bounds evidence before pages and provider results accumulate.
Every limit has bytes of its own, and may claim from a budget it shares with others. Calls
on different limits interleave from item to item, since a claim is one atomic update.
-/

namespace HealthMonitor

open Entries

def CheckResult.complete (result : CheckResult) : Bool :=
  !result.operations.isEmpty
    && result.operations.all fun op => !op.required || op.coverage == .complete

namespace CollectionBudget

/-- A collection-wide charge. -/
structure Shared where
  used : Nat
  limit : Nat
  deriving DecidableEq, Repr

namespace Shared

def new (settings : Settings) : Shared where
  used := 0
  limit := settings.memoryBytes / 2 / max settings.concurrency 1

/-- `fetch_update` with the checked sum, when it is within the limit. -/
def claim (shared : Shared) (bytes : Nat) : Option Shared :=
  if u64Max < shared.used + bytes || shared.limit < shared.used + bytes then none
  else some { shared with used := shared.used + bytes }

end Shared

structure Limit where
  used : Nat
  bytes : Nat
  assets : Nat
  operations : Nat
  limited : Bool
  sharing : Bool
  deriving DecidableEq, Repr

namespace Limit

def new (settings : Settings) (sharing : Bool) : Limit where
  used := 0
  bytes :=
    let total := settings.memoryBytes / 2 / max settings.concurrency 1
    total - min (total / 4) 4096
  assets := settings.maxAssets
  operations := 0
  limited := false
  sharing

def exhausted (limit : Limit) : Bool :=
  limit.bytes ≤ limit.used || limit.assets ≤ limit.operations

def markLimited (limit : Limit) : Limit := { limit with limited := true }

/-- One item is charged, unless the count is reached, or its size does not fit. -/
def admits (limit : Limit) (shared : Shared) (full : Bool) (size : Nat) :
    Option (Limit × Shared) :=
  if full || limit.bytes - limit.used < size then none
  else if limit.sharing then
    (shared.claim size).map fun shared => ({ limit with used := limit.used + size }, shared)
  else some ({ limit with used := limit.used + size }, shared)

end Limit

/-! ## Calls -/

/-- A result that is merged: where its operations start among those there were, and its
observations, which come after them. -/
structure Merge where
  start : Nat
  observations : List Observation
  deriving DecidableEq, Repr

/-- What is left of the call in flight, with the merge it is part of. -/
inductive Work where
  | idle
  | operations (rest : List Operation) (merge : Option Merge)
  | observations (rest : List Observation) (start : Option Nat)
  deriving DecidableEq, Repr

inductive Call where
  | operations (incoming : List Operation)
  | observations (incoming : List Observation)
  | merge (incoming : CheckResult)

/-- A limit with the result that its calls extend. -/
structure Collector where
  limit : Limit
  out : CheckResult
  work : Work

namespace Collector

def begin (c : Collector) : Call → Collector
  | .operations incoming => { c with work := .operations incoming none }
  | .observations incoming => { c with work := .observations incoming none }
  | .merge incoming =>
      let merge : Merge :=
        { start := c.out.operations.length, observations := incoming.observations }
      { c with work := .operations incoming.operations (some merge) }

/-- `merge` after a rejected observation: what it added is no longer complete. -/
def truncateFrom (out : CheckResult) (start : Nat) : CheckResult :=
  { out with operations :=
      out.operations.take start ++ truncateOperations (out.operations.drop start) }

/-- The next item of the call in flight. -/
def advance (host : Host) (shared : Shared) (c : Collector) : Shared × Collector :=
  match c.work with
  | .idle => (shared, c)
  | .operations [] none => (shared, { c with work := .idle })
  | .operations [] (some m) =>
      (shared, { c with work := .observations m.observations (some m.start) })
  | .operations (op :: rest) merge =>
      match c.limit.admits shared (c.limit.assets ≤ c.limit.operations)
          (operationBytes host op) with
      | some (limit, shared) =>
          (shared,
            { limit := { limit with operations := limit.operations + 1 }
              out := { c.out with operations := c.out.operations ++ [op] }
              work := .operations rest merge })
      | none => (shared, { c with limit := c.limit.markLimited, work := .operations [] merge })
  | .observations [] _ => (shared, { c with work := .idle })
  | .observations (obs :: rest) start =>
      match c.limit.admits shared (c.limit.assets ≤ c.out.observations.length)
          (observationBytes host obs) with
      | some (limit, shared) =>
          (shared,
            { limit
              out := { c.out with observations := c.out.observations ++ [obs] }
              work := .observations rest start })
      | none =>
          (shared,
            { limit := c.limit.markLimited
              out := start.elim c.out (truncateFrom c.out)
              work := .idle })

/-- A limited collection gets one more operation that is truncated. -/
def finish (c : Collector) (required : Bool) (clock : Time) : CheckResult :=
  if c.limit.limited then
    { c.out with operations := c.out.operations ++
        [{ id := "collection-budget", coverage := .truncated, observedAt := clock
           records := c.out.observations.length, pages := 0, attempts := 0, required }] }
  else c.out

end Collector

/-! ## Any number of limits -/

structure World where
  shared : Shared
  collectors : List Collector

/-- Between two calls a caller may go on with any other result. -/
inductive Action where
  | open (settings : Settings) (sharing : Bool) (out : CheckResult)
  | call (index : Nat) (call : Call)
  | replace (index : Nat) (out : CheckResult)
  | mark (index : Nat)
  | advance (index : Nat)

namespace World

/-- Another collector in the place of one, and what it leaves of the shared budget. -/
def put (w : World) (index : Nat) (next : Shared × Collector) : World where
  shared := next.1
  collectors := w.collectors.set index next.2

def step (host : Host) (w : World) : Action → World
  | .open settings sharing out =>
      { w with collectors :=
          w.collectors ++ [{ limit := .new settings sharing, out, work := .idle }] }
  | .call index call =>
      match w.collectors[index]? with
      | some c => if c.work = .idle then w.put index (w.shared, c.begin call) else w
      | none => w
  | .replace index out =>
      match w.collectors[index]? with
      | some c => if c.work = .idle then w.put index (w.shared, { c with out }) else w
      | none => w
  | .mark index =>
      match w.collectors[index]? with
      | some c => w.put index (w.shared, { c with limit := c.limit.markLimited })
      | none => w
  | .advance index =>
      match w.collectors[index]? with
      | some c => w.put index (c.advance host w.shared)
      | none => w

def process (host : Host) : Process World Action Empty where
  step w action := (w.step host action, [])

/-- The world after some actions. -/
def after (host : Host) (w : World) (actions : List Action) : World :=
  ((process host).run w actions).1

def new (settings : Settings) : World where
  shared := .new settings
  collectors := []

end World

/-! ## What a call does -/

/-- The operations a call is given. -/
def Call.givenOperations : Call → List Operation
  | .operations incoming => incoming
  | .observations _ => []
  | .merge incoming => incoming.operations

/-- The observations a call is given. -/
def Call.givenObservations : Call → List Observation
  | .operations _ => []
  | .observations incoming => incoming
  | .merge incoming => incoming.observations

/-- A result with more operations and observations. -/
def extend (before : CheckResult) (ops : List Operation) (obs : List Observation) : CheckResult :=
  { before with
    operations := before.operations ++ ops
    observations := before.observations ++ obs }

/-- What a call that ended has added: all it was given, unless the limit is limited, and
no complete operation without all the observations. -/
structure Added (call : Call) (limited : Bool) (ops : List Operation) (obs : List Observation) :
    Prop where
  operations : ∃ kept, kept <+: call.givenOperations ∧ (ops = kept ∨ ops = truncateOperations kept)
  observations : obs <+: call.givenObservations
  complete : ∀ op ∈ ops, op.coverage = .complete → obs = call.givenObservations
  whole : limited = false → ops = call.givenOperations ∧ obs = call.givenObservations

/-- How far a call has come. -/
def Collector.Doing (call : Call) (before : CheckResult) (c : Collector) : Prop :=
  match c.work with
  | .operations rest merge =>
      call.givenObservations = merge.elim [] Merge.observations
        ∧ (∀ m ∈ merge, m.start = before.operations.length)
        ∧ ∃ kept, c.out = extend before kept []
          ∧ kept ++ rest <+: call.givenOperations
          ∧ (c.limit.limited = false → kept ++ rest = call.givenOperations)
  | .observations rest start =>
      (start.elim (call.givenOperations = []) (· = before.operations.length))
        ∧ ∃ kept obs, c.out = extend before kept obs
          ∧ kept <+: call.givenOperations
          ∧ obs ++ rest = call.givenObservations
          ∧ (c.limit.limited = false → kept = call.givenOperations)
  | .idle =>
      ∃ ops obs, c.out = extend before ops obs ∧ Added call c.limit.limited ops obs

/-! ## One limit -/

theorem Limit.admits_some {limit limit' : Limit} {shared shared' : Shared} {full : Bool}
    {size : Nat} (h : limit.admits shared full size = some (limit', shared')) :
    limit' = { limit with used := limit.used + size }
      ∧ size ≤ limit.bytes - limit.used
      ∧ shared'.limit = shared.limit
      ∧ shared'.used = shared.used + (if limit.sharing then size else 0)
      ∧ (shared.used ≤ shared.limit → shared'.used ≤ shared'.limit) := by
  rw [admits] at h
  by_cases hfull : (full || limit.bytes - limit.used < size : Bool) = true
  · rw [if_pos hfull] at h
    cases h
  · rw [if_neg hfull] at h
    rw [Bool.or_eq_true, decide_eq_true_eq, not_or] at hfull
    have hfits := Nat.not_lt.mp hfull.2
    by_cases hsharing : limit.sharing = true
    · rw [if_pos hsharing, Shared.claim] at h
      by_cases hlarge : (u64Max < shared.used + size || shared.limit < shared.used + size : Bool)
          = true
      · rw [if_pos hlarge] at h
        cases h
      · rw [if_neg hlarge] at h
        rw [Bool.or_eq_true, decide_eq_true_eq, decide_eq_true_eq, not_or] at hlarge
        cases h
        exact ⟨rfl, hfits, rfl, by rw [if_pos hsharing], fun _ => Nat.not_lt.mp hlarge.2⟩
    · rw [if_neg hsharing] at h
      cases h
      exact ⟨rfl, hfits, rfl, by rw [if_neg hsharing, Nat.add_zero], id⟩

theorem operationsBytes_truncate (host : Host) (ops : List Operation) :
    operationsBytes host (truncateOperations ops) = operationsBytes host ops := by
  have hsame : ∀ op ∈ ops, operationBytes host
      (if true && op.coverage == .complete then { op with coverage := .truncated } else op)
        = operationBytes host op := by
    intro op _
    split <;> rfl
  rw [operationsBytes, truncateOperations, downgrade, List.map_map]
  exact congrArg List.sum (List.map_congr_left hsame)

theorem not_complete_of_truncated {ops : List Operation} {op : Operation}
    (h : op ∈ truncateOperations ops) : op.coverage ≠ .complete := by
  obtain ⟨old, -, rfl⟩ := List.mem_map.mp h
  by_cases hcomplete : (true && old.coverage == .complete) = true
  · rw [if_pos hcomplete]
    exact nofun
  · rw [if_neg hcomplete]
    simpa using hcomplete

namespace Collector

variable {host : Host} {shared : Shared} {c : Collector} {index : Nat}

/-- What the limit is charged of the budget it shares. -/
def charged (c : Collector) : Nat :=
  if c.limit.sharing then c.limit.used else 0

/-- The limit is charged the bytes its result grew by. -/
def Grown (host : Host) (c c' : Collector) : Prop :=
  resultBytes host c'.out + c.limit.used = resultBytes host c.out + c'.limit.used

/-- What an action may do to a limit and to the budget it shares. -/
structure Moved (shared : Shared) (c : Collector) (next : Shared × Collector) : Prop where
  fits : c.limit.used ≤ c.limit.bytes → next.2.limit.used ≤ next.2.limit.bytes
  charged : next.1.used + c.charged = shared.used + next.2.charged
  within : shared.used ≤ shared.limit → next.1.used ≤ next.1.limit
  limited : c.limit.limited = true → next.2.limit.limited = true

theorem Moved.quiet {next : Collector} (h : next.limit = c.limit) :
    Moved shared c (shared, next) := by
  constructor
  · rw [h]
    exact id
  · rw [Collector.charged, Collector.charged, h]
  · exact id
  · rw [h]
    exact id

theorem Moved.rejected {next : Collector} (h : next.limit = c.limit.markLimited) :
    Moved shared c (shared, next) := by
  constructor
  · rw [h]
    exact id
  · rw [Collector.charged, Collector.charged, h]
    rfl
  · exact id
  · rw [h]
    exact fun _ => rfl

theorem Moved.admitted {full : Bool} {size : Nat} {limit : Limit} {shared' : Shared}
    (h : c.limit.admits shared full size = some (limit, shared')) {next : Collector}
    {operations : Nat} (hnext : next.limit = { limit with operations }) :
    Moved shared c (shared', next) := by
  obtain ⟨rfl, hsize, -, hshared, hwithin⟩ := Limit.admits_some h
  refine ⟨fun hfits => ?_, ?_, hwithin, fun hlimited => by rw [hnext]; exact hlimited⟩
  · rw [hnext]
    show c.limit.used + size ≤ c.limit.bytes
    omega
  · show shared'.used + c.charged = shared.used + next.charged
    rw [Collector.charged, Collector.charged, hnext, hshared]
    dsimp only
    split <;> omega

theorem advance_moved (host : Host) (shared : Shared) (c : Collector) :
    Moved shared c (c.advance host shared) := by
  cases hwork : c.work with
  | idle =>
      rw [advance, hwork]
      exact .quiet rfl
  | operations rest merge =>
      rw [advance, hwork]
      cases rest with
      | nil => cases merge <;> exact .quiet rfl
      | cons op rest =>
          dsimp only
          split
          · next hadmits => exact .admitted hadmits rfl
          · exact .rejected rfl
  | observations rest start =>
      rw [advance, hwork]
      cases rest with
      | nil => exact .quiet rfl
      | cons obs rest =>
          dsimp only
          split
          · next hadmits => exact .admitted hadmits rfl
          · exact .rejected rfl

theorem resultBytes_truncateFrom (host : Host) (out : CheckResult) (start : Nat) :
    resultBytes host (truncateFrom out start) = resultBytes host out := by
  have happend : ∀ ops ops' : List Operation, operationsBytes host (ops ++ ops')
      = operationsBytes host ops + operationsBytes host ops' := by
    intro ops ops'
    rw [operationsBytes, List.map_append, List.sum_append]
    rfl
  rw [resultBytes, resultBytes]
  congr 1
  show operationsBytes host (out.operations.take start
    ++ truncateOperations (out.operations.drop start)) = _
  rw [happend, operationsBytes_truncate, ← happend, List.take_append_drop]

theorem advance_grown (host : Host) (shared : Shared) (c : Collector) :
    Grown host c (c.advance host shared).2 := by
  unfold Grown
  cases hwork : c.work with
  | idle => rw [advance, hwork]
  | operations rest merge =>
      rw [advance, hwork]
      cases rest with
      | nil => cases merge <;> rfl
      | cons op rest =>
          dsimp only
          split
          · next hadmits =>
              obtain ⟨rfl, -⟩ := Limit.admits_some hadmits
              simp only [resultBytes, operationsBytes, List.map_append, List.sum_append,
                List.map_cons, List.map_nil, List.sum_cons, List.sum_nil]
              omega
          · rfl
  | observations rest start =>
      rw [advance, hwork]
      cases rest with
      | nil => rfl
      | cons obs rest =>
          dsimp only
          split
          · next hadmits =>
              obtain ⟨rfl, -⟩ := Limit.admits_some hadmits
              simp only [resultBytes, observationsBytes, List.map_append, List.sum_append,
                List.map_cons, List.map_nil, List.sum_cons, List.sum_nil]
              omega
          · cases start with
            | none => rfl
            | some start =>
                show resultBytes host (truncateFrom c.out start) + _ = _
                rw [resultBytes_truncateFrom]
                rfl

/-! ## One call -/

theorem begin_doing (c : Collector) (call : Call) : (c.begin call).Doing call c.out := by
  have hout : c.out = extend c.out [] [] := by
    rw [extend, List.append_nil, List.append_nil]
  cases call with
  | operations incoming =>
      exact ⟨rfl, nofun, [], hout, List.prefix_rfl, fun _ => rfl⟩
  | observations incoming =>
      exact ⟨rfl, [], [], hout, List.prefix_rfl, rfl, fun _ => rfl⟩
  | merge incoming =>
      exact ⟨rfl, by rintro m ⟨⟩; rfl, [], hout, List.prefix_rfl, fun _ => rfl⟩

theorem truncateFrom_extend (before : CheckResult) (ops : List Operation)
    (obs : List Observation) :
    truncateFrom (extend before ops obs) before.operations.length
      = extend before (truncateOperations ops) obs := by
  rw [truncateFrom, extend, List.take_left, List.drop_left]
  rfl

theorem limited_of_admits {full : Bool} {size : Nat} {limit : Limit} {shared' : Shared}
    (h : c.limit.admits shared full size = some (limit, shared')) :
    limit.limited = c.limit.limited := by
  obtain ⟨rfl, -⟩ := Limit.admits_some h
  rfl

theorem Doing.advance {call : Call} {before : CheckResult} (h : c.Doing call before)
    (host : Host) (shared : Shared) : (c.advance host shared).2.Doing call before := by
  rw [Doing] at h
  cases hwork : c.work with
  | idle =>
      rw [Collector.advance, hwork, Doing, hwork]
      rwa [hwork] at h
  | operations rest merge =>
      rw [hwork] at h
      obtain ⟨hobs, hstart, kept, hout, hkept, hwhole⟩ := h
      rw [Collector.advance, hwork]
      cases rest with
      | nil =>
          rw [List.append_nil] at hkept hwhole
          cases merge with
          | none =>
              exact ⟨kept, [], hout, ⟨kept, hkept, .inl rfl⟩, List.nil_prefix,
                fun _ _ _ => hobs.symm, fun hlimited => ⟨hwhole hlimited, hobs.symm⟩⟩
          | some m => exact ⟨hstart m rfl, kept, [], hout, hkept, hobs.symm, hwhole⟩
      | cons op rest =>
          dsimp only
          split
          · next limit shared' hadmits =>
              refine ⟨hobs, hstart, kept ++ [op], ?_, by simpa using hkept, fun hlimited => ?_⟩
              · show { c.out with operations := c.out.operations ++ [op] } = _
                rw [hout]
                simp [extend]
              · rw [List.append_assoc]
                exact hwhole ((limited_of_admits hadmits).symm.trans hlimited)
          · refine ⟨hobs, hstart, kept, hout, ?_, nofun⟩
            rw [List.append_nil]
            exact (List.prefix_append _ _).trans hkept
  | observations rest start =>
      rw [hwork] at h
      obtain ⟨hstart, kept, obs, hout, hkept, hobs, hwhole⟩ := h
      rw [Collector.advance, hwork]
      cases rest with
      | nil =>
          rw [List.append_nil] at hobs
          exact ⟨kept, obs, hout, ⟨kept, hkept, .inl rfl⟩, hobs ▸ List.prefix_rfl,
            fun _ _ _ => hobs, fun hlimited => ⟨hwhole hlimited, hobs⟩⟩
      | cons o rest =>
          dsimp only
          split
          · next limit shared' hadmits =>
              refine ⟨hstart, kept, obs ++ [o], ?_, hkept, by simpa using hobs, fun hlimited =>
                hwhole ((limited_of_admits hadmits).symm.trans hlimited)⟩
              show { c.out with observations := c.out.observations ++ [o] } = _
              rw [hout]
              simp [extend]
          · have hprefix : obs <+: call.givenObservations := ⟨_, hobs⟩
            cases start with
            | none =>
                -- The call was given no operations.
                obtain rfl : kept = [] := List.prefix_nil.mp (hstart ▸ hkept)
                exact ⟨[], obs, hout, ⟨[], List.nil_prefix, .inl rfl⟩, hprefix, nofun, nofun⟩
            | some start =>
                have hlowered : truncateFrom c.out start
                    = extend before (truncateOperations kept) obs := by
                  rw [hout, show start = before.operations.length from hstart,
                    truncateFrom_extend]
                exact ⟨truncateOperations kept, obs, hlowered, ⟨kept, hkept, .inr rfl⟩, hprefix,
                  fun op hop hcomplete => absurd hcomplete (not_complete_of_truncated hop), nofun⟩

theorem Doing.mark {call : Call} {before : CheckResult} (h : c.Doing call before) :
    Doing call before { c with limit := c.limit.markLimited } := by
  unfold Doing at h ⊢
  dsimp only
  cases hwork : c.work with
  | idle =>
      rw [hwork] at h
      obtain ⟨ops, obs, hout, hadded⟩ := h
      exact ⟨ops, obs, hout, { hadded with whole := nofun }⟩
  | operations rest merge =>
      rw [hwork] at h
      obtain ⟨hobs, hstart, kept, hout, hkept, -⟩ := h
      exact ⟨hobs, hstart, kept, hout, hkept, nofun⟩
  | observations rest start =>
      rw [hwork] at h
      obtain ⟨hstart, kept, obs, hout, hkept, hobs, -⟩ := h
      exact ⟨hstart, kept, obs, hout, hkept, hobs, nofun⟩

/-- Steps that are left of the call in flight at most. -/
def remaining (c : Collector) : Nat :=
  match c.work with
  | .idle => 0
  | .operations rest merge => rest.length + merge.elim 0 (·.observations.length) + 2
  | .observations rest _ => rest.length + 1

theorem remaining_advance (host : Host) (shared : Shared) (c : Collector) :
    (c.advance host shared).2.remaining ≤ c.remaining - 1 := by
  rw [remaining.eq_def c]
  cases hwork : c.work with
  | idle => simp [advance, hwork, remaining]
  | operations rest merge =>
      cases rest with
      | nil => cases merge <;> simp [advance, hwork, remaining]
      | cons op rest =>
          simp only [advance, hwork]
          split <;> simp only [remaining, List.length_cons, List.length_nil] <;> omega
  | observations rest start =>
      cases rest with
      | nil => simp [advance, hwork, remaining]
      | cons obs rest =>
          simp only [advance, hwork]
          split <;> simp [remaining]

theorem idle_of_remaining (h : c.remaining = 0) : c.work = .idle := by
  rw [remaining] at h
  cases hwork : c.work with
  | idle => rfl
  | operations rest merge =>
      rw [hwork] at h
      cases h
  | observations rest start =>
      rw [hwork] at h
      cases h

theorem remaining_begin (c : Collector) (call : Call) :
    (c.begin call).remaining
      ≤ call.givenOperations.length + call.givenObservations.length + 2 := by
  cases call <;> simp [begin, remaining, Call.givenOperations, Call.givenObservations]

/-! ## Any interleaving of calls -/

/-- What an action does to the limit it is about. -/
inductive Acts (host : Host) (shared : Shared) (c : Collector) (index : Nat) :
    Action → Shared × Collector → Prop
  | call (call : Call) (hidle : c.work = .idle) :
      Acts host shared c index (.call index call) (shared, c.begin call)
  | replace (out : CheckResult) (hidle : c.work = .idle) :
      Acts host shared c index (.replace index out) (shared, { c with out })
  | mark : Acts host shared c index (.mark index)
      (shared, { c with limit := c.limit.markLimited })
  | advance : Acts host shared c index (.advance index) (c.advance host shared)

theorem Acts.moved {action : Action} {next : Shared × Collector}
    (h : c.Acts host shared index action next) : Moved shared c next := by
  cases h with
  | call call hidle => cases call <;> exact .quiet rfl
  | replace out hidle => exact .quiet rfl
  | mark => exact .rejected rfl
  | advance => exact c.advance_moved host shared

end Collector

namespace Action

/-- The result of the limit stays the one its calls extend. -/
def keeps (index : Nat) : Action → Bool
  | .replace i _ => i != index
  | _ => true

/-- No other call on the limit begins. -/
def spares (index : Nat) : Action → Bool
  | .call i _ => i != index
  | .replace i _ => i != index
  | _ => true

def advances (index : Nat) : Action → Bool
  | .advance i => i == index
  | _ => false

end Action

namespace World

variable {host : Host} {w : World} {index : Nat} {c : Collector}

/-- What a step can do. -/
theorem step_cases (host : Host) (w : World) (action : Action) :
    (w.step host action = w
        ∧ ∀ index, action.advances index = true → w.collectors[index]? = none)
      ∨ (∃ settings sharing out, action = .open settings sharing out
        ∧ w.step host action = { w with collectors :=
          w.collectors ++ [{ limit := .new settings sharing, out, work := .idle }] })
      ∨ ∃ index c next, w.collectors[index]? = some c
        ∧ c.Acts host w.shared index action next ∧ w.step host action = w.put index next := by
  cases action with
  | «open» settings sharing out => exact .inr (.inl ⟨settings, sharing, out, rfl, rfl⟩)
  | call index call =>
      rw [step]
      cases hc : w.collectors[index]? with
      | none => exact .inl ⟨rfl, nofun⟩
      | some c =>
          dsimp only
          split
          · next hidle => exact .inr (.inr ⟨index, c, _, hc, .call call hidle, rfl⟩)
          · exact .inl ⟨rfl, nofun⟩
  | replace index out =>
      rw [step]
      cases hc : w.collectors[index]? with
      | none => exact .inl ⟨rfl, nofun⟩
      | some c =>
          dsimp only
          split
          · next hidle => exact .inr (.inr ⟨index, c, _, hc, .replace out hidle, rfl⟩)
          · exact .inl ⟨rfl, nofun⟩
  | mark index =>
      rw [step]
      cases hc : w.collectors[index]? with
      | none => exact .inl ⟨rfl, nofun⟩
      | some c => exact .inr (.inr ⟨index, c, _, hc, .mark, rfl⟩)
  | advance index =>
      rw [step]
      cases hc : w.collectors[index]? with
      | none => exact .inl ⟨rfl, fun i hi => eq_of_beq hi ▸ hc⟩
      | some c => exact .inr (.inr ⟨index, c, _, hc, .advance, rfl⟩)

/-- What a step can do to one limit. -/
theorem step_at (hc : w.collectors[index]? = some c) (host : Host) (action : Action) :
    ∃ c', (w.step host action).collectors[index]? = some c'
      ∧ (c' = c ∧ action.advances index = false
        ∨ ∃ next, c.Acts host w.shared index action next ∧ c' = next.2) := by
  obtain ⟨hlt, -⟩ := List.getElem?_eq_some_iff.mp hc
  rcases w.step_cases host action with ⟨h, hnone⟩ | ⟨settings, sharing, out, rfl, h⟩ |
    ⟨i, d, next, hd, hacts, h⟩
  · refine ⟨c, by rw [h]; exact hc, .inl ⟨rfl, ?_⟩⟩
    refine Bool.eq_false_iff.mpr fun hadvances => ?_
    rw [hnone index hadvances] at hc
    cases hc
  · rw [h]
    exact ⟨c, (List.getElem?_append_left hlt).trans hc, .inl ⟨rfl, rfl⟩⟩
  · rw [h]
    by_cases hi : i = index
    · subst hi
      obtain rfl : c = d := Option.some.inj (hc.symm.trans hd)
      exact ⟨next.2, List.getElem?_set_self hlt, .inr ⟨next, hacts, rfl⟩⟩
    · refine ⟨c, (List.getElem?_set_ne hi).trans hc, .inl ⟨rfl, ?_⟩⟩
      cases hacts with
      | advance => exact beq_eq_false_iff_ne.mpr hi
      | _ => rfl

/-- The run lemma of one limit. -/
theorem after_at {permitted : Action → Prop} {P : Collector → Prop}
    (hstep : ∀ c shared action next, permitted action → P c →
      c.Acts host shared index action next → P next.2)
    {actions : List Action} (hpermitted : ∀ action ∈ actions, permitted action)
    (hc : w.collectors[index]? = some c) (h : P c) :
    ∃ c', (w.after host actions).collectors[index]? = some c' ∧ P c' := by
  have hpreserves : (process host).Preserves permitted
      fun w => ∃ c, w.collectors[index]? = some c ∧ P c := by
    rintro w action haction ⟨c, hc, h⟩
    obtain ⟨c', hc', ⟨rfl, -⟩ | ⟨next, hacts, rfl⟩⟩ := step_at hc host action
    · exact ⟨c', hc', h⟩
    · exact ⟨next.2, hc', hstep c _ action next haction h hacts⟩
  exact hpreserves.run hpermitted ⟨c, hc, h⟩

/-- A limit that refused an item stays limited. -/
theorem after_limited (hc : w.collectors[index]? = some c) (h : c.limit.limited = true)
    (actions : List Action) :
    ∃ c', (w.after host actions).collectors[index]? = some c' ∧ c'.limit.limited = true :=
  @after_at _ _ _ _ (fun _ => True) _
    (fun _ _ _ _ _ hlimited hacts => hacts.moved.limited hlimited) _ (fun _ _ => trivial) hc h

theorem after_grown (hc : w.collectors[index]? = some c) {actions : List Action}
    (hkeeps : ∀ action ∈ actions, action.keeps index = true) :
    ∃ c', (w.after host actions).collectors[index]? = some c' ∧ c.Grown host c' := by
  refine after_at (fun d shared action next hkept h hacts => ?_) hkeeps hc rfl
  rw [Collector.Grown] at h ⊢
  cases hacts with
  | call call hidle => cases call <;> exact h
  | replace out hidle => simp [Action.keeps] at hkept
  | mark => exact h
  | advance =>
      have := d.advance_grown host shared
      rw [Collector.Grown] at this
      omega

theorem after_doing (hc : w.collectors[index]? = some c) {call : Call} {before : CheckResult}
    (h : c.Doing call before) {actions : List Action}
    (hspares : ∀ action ∈ actions, action.spares index = true) :
    ∃ c', (w.after host actions).collectors[index]? = some c' ∧ c'.Doing call before := by
  refine after_at (fun d shared action next hspared hdoing hacts => ?_) hspares hc h
  cases hacts with
  | call call hidle => simp [Action.spares] at hspared
  | replace out hidle => simp [Action.spares] at hspared
  | mark => exact hdoing.mark
  | advance => exact hdoing.advance host shared

theorem remaining_step {action : Action} (hspared : action.spares index = true) {d : Collector}
    (h : d = c ∧ action.advances index = false
      ∨ ∃ next, c.Acts host w.shared index action next ∧ d = next.2) :
    d.remaining ≤ c.remaining - (if action.advances index then 1 else 0) := by
  rcases h with ⟨rfl, hnot⟩ | ⟨next, hacts, rfl⟩
  · simp [hnot]
  · cases hacts with
    | call call hidle => simp [Action.spares] at hspared
    | replace out hidle => simp [Action.spares] at hspared
    | mark => exact Nat.le_refl _
    | advance =>
        have hself : (Action.advance index).advances index = true := beq_self_eq_true index
        rw [if_pos hself]
        exact c.remaining_advance host w.shared

theorem after_remaining (hc : w.collectors[index]? = some c) {actions : List Action}
    (hspares : ∀ action ∈ actions, action.spares index = true) :
    ∃ c', (w.after host actions).collectors[index]? = some c'
      ∧ c'.remaining ≤ c.remaining - actions.countP (·.advances index) := by
  induction actions generalizing w c with
  | nil => exact ⟨c, hc, Nat.le_refl _⟩
  | cons action actions ih =>
      obtain ⟨d, hd, hstep⟩ := step_at hc host action
      obtain ⟨c', hc', hle⟩ := ih hd fun a ha => hspares a (List.mem_cons_of_mem _ ha)
      refine ⟨c', hc', hle.trans ?_⟩
      rw [List.countP_cons]
      have hspared := hspares action List.mem_cons_self
      have hd : d.remaining ≤ c.remaining - (if action.advances index then 1 else 0) :=
        remaining_step hspared hstep
      omega

end World

/-- Every limit keeps within its bytes, and the shared budget is charged what those that
share it are. -/
structure Accounted (w : World) : Prop where
  fits : ∀ c ∈ w.collectors, c.limit.used ≤ c.limit.bytes
  charged : total Collector.charged w.collectors = w.shared.used
  within : w.shared.used ≤ w.shared.limit

namespace Accounted

variable {w : World}

theorem new (settings : Settings) : Accounted (.new settings) :=
  ⟨nofun, rfl, Nat.zero_le _⟩

theorem put (h : Accounted w) {index : Nat} {c : Collector} {next : Shared × Collector}
    (hc : w.collectors[index]? = some c) (hmoved : c.Moved w.shared next) :
    Accounted (w.put index next) := by
  refine ⟨fun d hd => ?_, ?_, hmoved.within h.within⟩
  · rcases List.mem_or_eq_of_mem_set hd with hd | rfl
    · exact h.fits d hd
    · exact hmoved.fits (h.fits c (List.mem_of_getElem? hc))
  · have htotal := total_set Collector.charged hc next.2
    have hcharged := hmoved.charged
    have := h.charged
    show total Collector.charged (w.collectors.set index next.2) = next.1.used
    omega

theorem step (h : Accounted w) (host : Host) (action : Action) :
    Accounted (w.step host action) := by
  rcases w.step_cases host action with ⟨hw, -⟩ | ⟨settings, sharing, out, -, hw⟩ |
    ⟨index, c, next, hc, hacts, hw⟩
  · rw [hw]
    exact h
  · rw [hw]
    refine ⟨fun c hc => ?_, ?_, h.within⟩
    · rcases List.mem_append.mp hc with hc | hc
      · exact h.fits c hc
      · rw [List.mem_singleton.mp hc]
        exact Nat.zero_le _
    · rw [total_append, h.charged]
      simp [Collector.charged, Limit.new]
  · rw [hw]
    exact h.put hc hacts.moved

end Accounted

/-- The run lemma. -/
theorem accounted_after (host : Host) (settings : Settings) (actions : List Action) :
    Accounted (World.after host (.new settings) actions) := by
  have hpreserves : (World.process host).Preserves (fun _ => True) Accounted :=
    fun _ action _ h => h.step host action
  exact hpreserves.run (fun _ _ => trivial) (.new settings)

/-- A limited collection does not finish as a complete one. -/
theorem Collector.finish_limited {c : Collector} (h : c.limit.limited = true) (required : Bool)
    (clock : Time) :
    (∃ op ∈ (c.finish required clock).operations, op.coverage ≠ .complete)
      ∧ (required = true → (c.finish required clock).complete = false) := by
  rw [finish, if_pos h]
  refine ⟨⟨_, List.mem_append_right _ List.mem_cons_self, nofun⟩, ?_⟩
  rintro rfl
  simp [CheckResult.complete]

/-- However the collection goes on, it does not finish as a complete one. -/
def NeverComplete (host : Host) (w : World) (index : Nat) : Prop :=
  ∀ later, ∃ c, (w.after host later).collectors[index]? = some c
    ∧ ∀ required clock, (∃ op ∈ (c.finish required clock).operations, op.coverage ≠ .complete)
      ∧ (required = true → (c.finish required clock).complete = false)

/-- In every interleaving of calls on any number of limits: what the limits are charged is
within their bytes, and what the shared budget is charged is what those that share it are,
within its limit. A limit is charged exactly the bytes its result grows by. A call that ends
has added the items it was given up to one that was refused, and a complete operation only
with all the observations; if it left out any, the collection never finishes as complete. -/
theorem collections_accounted (host : Host) (settings : Settings) (actions : List Action) :
    let w := World.after host (.new settings) actions
    (∀ c ∈ w.collectors, c.limit.used ≤ c.limit.bytes)
      ∧ total Collector.charged w.collectors = w.shared.used ∧ w.shared.used ≤ w.shared.limit
      ∧ ∀ (index : Nat) (c : Collector), w.collectors[index]? = some c →
        (∀ later : List Action, (∀ action ∈ later, action.keeps index = true) →
          ∃ c', (w.after host later).collectors[index]? = some c'
            ∧ resultBytes host c'.out + c.limit.used = resultBytes host c.out + c'.limit.used)
        ∧ (c.work = .idle → ∀ (call : Call) (later : List Action),
          (∀ action ∈ later, action.spares index = true) →
          ∃ c', (w.after host (.call index call :: later)).collectors[index]? = some c'
            ∧ (call.givenOperations.length + call.givenObservations.length + 2
              ≤ later.countP (·.advances index) → c'.work = .idle)
            ∧ (c'.work = .idle → ∃ ops obs, c'.out = extend c.out ops obs
              ∧ Added call c'.limit.limited ops obs
              ∧ (ops = call.givenOperations ∧ obs = call.givenObservations
                ∨ NeverComplete host (w.after host (.call index call :: later)) index))) := by
  intro w
  have h : Accounted w := accounted_after host settings actions
  refine ⟨h.fits, h.charged, h.within, fun index c hc =>
    ⟨fun later hkeeps => World.after_grown hc hkeeps, fun hidle call later hspares => ?_⟩⟩
  have hbegun : (w.step host (.call index call)).collectors[index]? = some (c.begin call) := by
    rw [World.step, hc]
    dsimp only
    rw [if_pos hidle]
    exact List.getElem?_set_self (List.getElem?_eq_some_iff.mp hc).1
  obtain ⟨c', hc', hdoing⟩ := World.after_doing hbegun (c.begin_doing call) hspares
  obtain ⟨d, hd, hremaining⟩ := World.after_remaining hbegun hspares
  obtain rfl : c' = d := Option.some.inj (hc'.symm.trans hd)
  have hbegin := c.remaining_begin call
  refine ⟨c', hc', fun hcount => Collector.idle_of_remaining (by omega), fun hended => ?_⟩
  rw [Collector.Doing, hended] at hdoing
  obtain ⟨ops, obs, hout, hadded⟩ := hdoing
  refine ⟨ops, obs, hout, hadded, ?_⟩
  cases hlimited : c'.limit.limited with
  | false => exact .inl (hadded.whole hlimited)
  | true =>
      refine .inr fun rest => ?_
      obtain ⟨e, he, hstays⟩ := World.after_limited hc' hlimited rest
      exact ⟨e, he, fun required clock => e.finish_limited hstays required clock⟩

namespace Sample

/-- Three of the four kilobytes of a collection are the limit's. -/
def tight : Settings := { Settings.default with memoryBytes := 8192, concurrency := 1 }

def sizes : Host where
  observationJson := fun _ => 200
  observationSize := 200
  operationSize := 100
  previousOccurrence := fun _ _ _ => none

def empty : CheckResult where
  target := "cloud"
  check := .inventory
  revision := "1"
  startedAt := 0
  finishedAt := 0
  operations := []
  observations := []

def reported (resource : String) : Observation where
  resource
  operation := "instances"
  observedAt := 0
  data := .activity "list" .ready none

/-- An operation that reports three resources, of which two fit. -/
def listing : CheckResult :=
  { empty with
    operations := [{ id := "instances", coverage := .complete, observedAt := 0 }]
    observations := ["a", "b", "c"].map reported }

def opened : List Action := [.open tight true empty]

/-- Enough steps for the call. -/
def steps : List Action := List.replicate 6 (.advance 0)

end Sample

open Sample in
/-- The third observation is refused. -/
theorem collections_accounted_refused :
    NeverComplete sizes
      (World.after sizes (World.after sizes (.new tight) opened) (.call 0 (.merge listing) :: steps))
      0 := by
  obtain ⟨c', hc', hidle, hended⟩ := ((collections_accounted sizes tight opened).2.2.2 0
    { limit := .new tight true, out := empty, work := .idle } rfl).2 rfl (.merge listing) steps
      (by decide)
  obtain ⟨ops, obs, hout, -, ⟨-, hall⟩ | hnever⟩ := hended (hidle (by decide))
  · have htwo : ((World.after sizes (World.after sizes (.new tight) opened)
        (.call 0 (.merge listing) :: steps)).collectors[0]?).map (·.out.observations.length)
          = some 2 := by
      decide +kernel
    rw [hc', Option.map_some, hout, hall] at htwo
    cases htwo
  · exact hnever

end CollectionBudget

end HealthMonitor
