import HealthMonitor.History.Records
import HealthMonitor.Library.Process

/-!
# Journal

The journal between the collectors and the database: submissions fill batches and send
them through a bounded channel, one worker takes the batches, adds a gap for the losses
counted so far, and writes them until the write succeeds or is rejected. Every load,
store, swap and addition on a shared counter is a step of its own, and so is every
operation on the channel; the steps of the submissions, the worker and a call of
`flush` interleave in any order.

Whether a record fits the budget, and what a write returns, is decided by the
environment. The fields `submitted` to `abandonedGaps` say what has become of the
records and gaps; no step reads them.
-/

namespace HealthMonitor.History

/-- What the loss counters count: `events` are events and query records. -/
inductive Kind where
  | events | runs
  deriving DecidableEq, Repr

inductive Item (α : Type) where
  | run (value : α)
  | event (value : α)
  | record (value : α)
  deriving DecidableEq, Repr

def Item.kind {α : Type} : Item α → Kind
  | .run _ => .runs
  | .event _ => .events
  | .record _ => .events

/-- The records of a kind among the items. -/
def losses {α : Type} (kind : Kind) (items : List (Item α)) : Nat :=
  items.countP (·.kind = kind)

/-! ## Gaps and batches -/

def i64Max : Nat := 2 ^ 63 - 1

structure Gap where
  time : Time
  count : Kind → Nat

/-- `Gap::new`. -/
def Gap.new (time : Time) (events runs : Nat) : Except Error Gap :=
  if events ≤ i64Max ∧ runs ≤ i64Max then
    .ok { time, count := fun | .events => events | .runs => runs }
  else .error .record

def gapLosses (kind : Kind) (gaps : List Gap) : Nat :=
  (gaps.map (·.count kind)).sum

structure Batch (α : Type) where
  revision : String
  runs : List α := []
  events : List α := []
  records : List α := []
  gaps : List Gap := []

namespace Batch

variable {α : Type}

def items (batch : Batch α) : List (Item α) :=
  batch.runs.map .run ++ batch.events.map .event ++ batch.records.map .record

def isEmpty (batch : Batch α) : Bool :=
  batch.records.isEmpty && batch.runs.isEmpty && batch.events.isEmpty

/-- The lists of a batch are bounded. -/
def hasRoom (batch : Batch α) : Item α → Bool
  | .run _ => batch.runs.length < 2048
  | .event _ => batch.events.length < 10000
  | .record _ => batch.records.length < 20000

def push (batch : Batch α) : Item α → Batch α
  | .run value => { batch with runs := batch.runs ++ [value] }
  | .event value => { batch with events := batch.events ++ [value] }
  | .record value => { batch with records := batch.records ++ [value] }

/-- The gap for the losses taken from the pending counters, if it can be built. -/
def addGap (batch : Batch α) (time : Time) (events runs : Nat) : Batch α :=
  if events ≠ 0 ∨ runs ≠ 0 then
    match Gap.new time events runs with
    | .ok gap => { batch with gaps := batch.gaps ++ [gap] }
    | .error _ => batch
  else batch

end Batch

/-! ## Shared counters -/

/-- An underflow of `outstanding` shows as a negative value. -/
structure Status where
  outstanding : Int
  dropped : Kind → Nat
  pending : Kind → Nat

/-- An update of one counter. `drop_records` adds with saturation, the worker restores
the counts of a gap with `fetch_add`. -/
inductive Update where
  | drop (kind : Kind) (amount : Nat)
  | pend (kind : Kind) (amount : Nat)
  | restore (kind : Kind) (amount : Nat)
  deriving DecidableEq

namespace Status

def start : Status where
  outstanding := 0
  dropped _ := 0
  pending _ := 0

def apply (status : Status) : Update → Status
  | .drop kind amount =>
      { status with dropped :=
          Function.update status.dropped kind (saturatingAdd (status.dropped kind) amount) }
  | .pend kind amount =>
      { status with pending :=
          Function.update status.pending kind (saturatingAdd (status.pending kind) amount) }
  | .restore kind amount =>
      { status with pending :=
          Function.update status.pending kind ((status.pending kind + amount) % 2 ^ 64) }

end Status

/-- `drop_records`, one counter after another. -/
def dropRecords (events runs : Nat) : List Update :=
  [.drop .events events, .pend .events events, .drop .runs runs, .pend .runs runs]

/-- The counts of a rejected batch. -/
def Batch.dropUpdates {α : Type} (batch : Batch α) : List Update :=
  dropRecords (batch.events.length + batch.records.length) batch.runs.length

def Item.dropUpdates {α : Type} : Item α → List Update
  | .run _ => dropRecords 0 1
  | .event _ => dropRecords 1 0
  | .record _ => dropRecords 1 0

def Gap.restoreUpdates (gap : Gap) : List Update :=
  [.restore .events (gap.count .events), .restore .runs (gap.count .runs)]

/-! ## Submissions -/

inductive Stage where
  | filling | checkingEvents | checkingRuns | sending | leaving
  deriving DecidableEq, Repr

/-- A call of `submit_queries` in progress. -/
structure Submission (α : Type) where
  rest : List (Item α)
  batch : Batch α
  updates : List Update
  stage : Stage

/-! ## The worker -/

inductive Worker (α : Type) where
  | starting
  | head
  | headRuns
  | waiting
  | creating (revision : String)
  | takingEvents (batch : Batch α)
  | takingRuns (batch : Batch α) (events : Nat)
  | writing (batch : Batch α)
  | rejecting (batch : Batch α) (updates : List Update)
  | finishing
  | dropping
  | closing
  | draining
  | exited

/-- What the environment decides about a step of the worker. -/
inductive Signal where
  | go (time : Time)
  | stop
  | tick
  | receive
  | hangUp
  | wrote
  | failed
  | rejected
  deriving DecidableEq

/-! ## Flush -/

/-- A call of `flush`: which counter it reads next, or what it returned. -/
inductive Flush where
  | idle
  | outstanding
  | pendingEvents
  | pendingRuns
  | returned (flushed : Bool)
  deriving DecidableEq

/-! ## Steps -/

structure State (α : Type) where
  status : Status
  queue : List (Batch α)
  closed : Bool
  submissions : List (Submission α)
  worker : Worker α
  lastRevision : Option String
  stopped : Bool
  flush : Flush
  submitted : List (Item α)
  persisted : List (Item α)
  dropped : List (Item α)
  abandoned : List (Item α)
  persistedGaps : List Gap
  rejectedGaps : List Gap
  abandonedGaps : List Gap

inductive Action (α : Type) where
  | submit (revision : String) (runs events records : List α)
  | advance (index : Nat) (admitted : Bool)
  | work (signal : Signal)
  | cancel
  | flush
  | read
  | timeout

namespace State

variable {α : Type}

def start : State α where
  status := .start
  queue := []
  closed := false
  submissions := []
  worker := .starting
  lastRevision := none
  stopped := false
  flush := .idle
  submitted := []
  persisted := []
  dropped := []
  abandoned := []
  persistedGaps := []
  rejectedGaps := []
  abandonedGaps := []

/-- `Pending::new`. -/
def enter (s : State α) : State α :=
  { s with status := { s.status with outstanding := s.status.outstanding + 1 } }

/-- A batch is dropped, and its `Pending` with it. -/
def leave (s : State α) : State α :=
  { s with status := { s.status with outstanding := s.status.outstanding - 1 } }

/-- The next step of a submission: the state, and the submission unless it ended. -/
def advance (capacity : Nat) (s : State α) (x : Submission α) (admitted : Bool) :
    State α × Option (Submission α) :=
  match x.updates with
  | update :: updates =>
      ({ s with status := s.status.apply update }, some { x with updates := updates })
  | [] =>
      match x.stage with
      | .filling =>
          match x.rest with
          | item :: rest =>
              if admitted && x.batch.hasRoom item then
                (s, some { x with rest := rest, batch := x.batch.push item })
              else
                ({ s with dropped := s.dropped ++ [item] },
                  some { x with rest := rest, updates := item.dropUpdates })
          | [] =>
              (s, some { x with stage := if x.batch.isEmpty then .checkingEvents else .sending })
      | .checkingEvents =>
          (s, some { x with
            stage := if s.status.pending .events = 0 then .checkingRuns else .sending })
      | .checkingRuns =>
          (s, some { x with
            stage := if s.status.pending .runs = 0 then .leaving else .sending })
      | .sending =>
          if s.closed || capacity ≤ s.queue.length then
            ({ s with dropped := s.dropped ++ x.batch.items },
              some { x with updates := x.batch.dropUpdates, stage := .leaving })
          else
            ({ s with queue := s.queue ++ [x.batch] }, none)
      | .leaving => (s.leave, none)

/-- The worker returns with a batch in hand. -/
def abandon (s : State α) (batch : Batch α) : State α :=
  { s with
    worker := .dropping
    abandoned := s.abandoned ++ batch.items
    abandonedGaps := s.abandonedGaps ++ batch.gaps }

/-- What the worker does at the head of its loop. -/
def choose (s : State α) (pending : Bool) : State α :=
  match s.lastRevision with
  | some revision => { s with worker := if pending then .creating revision else .waiting }
  | none => { s with worker := .waiting }

/-- The next step of the worker, if the signal fits where it is. -/
def work (s : State α) (signal : Signal) : Option (State α) :=
  match s.worker, signal with
  | .starting, .go _ => some { s with worker := .head }
  | .starting, .stop => if s.stopped then some { s with worker := .closing } else none
  | .head, .go _ =>
      some (if s.status.pending .events ≠ 0 then s.choose true
        else { s with worker := .headRuns })
  | .headRuns, .go _ => some (s.choose (s.status.pending .runs ≠ 0))
  | .creating revision, .go _ =>
      some { s.enter with worker := .takingEvents { revision } }
  | .waiting, .stop => if s.stopped then some { s with worker := .closing } else none
  | .waiting, .tick => some { s with worker := .head }
  | .waiting, .receive =>
      match s.queue with
      | batch :: queue => some { s with queue := queue, worker := .takingEvents batch }
      | [] => none
  | .waiting, .hangUp =>
      if s.queue.isEmpty && s.submissions.isEmpty then some { s with worker := .closing }
      else none
  | .takingEvents batch, .go _ =>
      some { s with
        lastRevision := some batch.revision
        status := { s.status with pending := Function.update s.status.pending .events 0 }
        worker := .takingRuns batch (s.status.pending .events) }
  | .takingRuns batch events, .go time =>
      some { s with
        status := { s.status with pending := Function.update s.status.pending .runs 0 }
        worker := .writing (batch.addGap time events (s.status.pending .runs)) }
  | .writing batch, .stop => if s.stopped then some (s.abandon batch) else none
  | .writing batch, .wrote =>
      some { s with
        persisted := s.persisted ++ batch.items
        persistedGaps := s.persistedGaps ++ batch.gaps
        worker := .finishing }
  | .writing _, .failed => some s
  | .writing batch, .rejected =>
      -- An empty batch ends the worker; the counts of its gap are not restored.
      some { s with
        dropped := s.dropped ++ batch.items
        rejectedGaps := s.rejectedGaps ++ if batch.isEmpty then batch.gaps else []
        worker := .rejecting batch (batch.dropUpdates
          ++ if batch.isEmpty then [] else batch.gaps.flatMap Gap.restoreUpdates) }
  | .rejecting batch (update :: updates), .go _ =>
      some { s with status := s.status.apply update, worker := .rejecting batch updates }
  | .rejecting batch [], .go _ =>
      some { s with worker := if batch.isEmpty then .dropping else .finishing }
  | .finishing, .go _ => some { s.leave with worker := .head }
  | .dropping, .go _ => some { s.leave with worker := .closing }
  | .closing, .go _ => some { s with closed := true, worker := .draining }
  | .draining, .go _ =>
      match s.queue with
      | batch :: queue =>
          some { s.leave with queue := queue, abandoned := s.abandoned ++ batch.items }
      | [] => some { s with worker := .exited }
  | _, _ => none

/-- The next read of `flush`. -/
def read (s : State α) : State α :=
  match s.flush with
  | .outstanding =>
      if s.status.outstanding = 0 then { s with flush := .pendingEvents } else s
  | .pendingEvents =>
      { s with flush := if s.status.pending .events = 0 then .pendingRuns else .outstanding }
  | .pendingRuns =>
      { s with flush := if s.status.pending .runs = 0 then .returned true else .outstanding }
  | _ => s

def timeout (s : State α) : State α :=
  if s.flush = .outstanding then { s with flush := .returned false } else s

/-- A step of the system; an action that is not possible changes nothing. -/
def step (capacity : Nat) (s : State α) : Action α → State α
  | .submit revision runs events records =>
      { s.enter with
        submissions := s.submissions ++
          [{ rest := runs.map .run ++ events.map .event ++ records.map .record
             batch := { revision }
             updates := []
             stage := .filling }]
        submitted :=
          s.submitted ++ (runs.map .run ++ events.map .event ++ records.map .record) }
  | .advance index admitted =>
      match s.submissions[index]? with
      | none => s
      | some x =>
          match advance capacity s x admitted with
          | (t, some y) => { t with submissions := s.submissions.set index y }
          | (t, none) => { t with submissions := s.submissions.eraseIdx index }
  | .work signal => (s.work signal).getD s
  | .cancel => { s with stopped := true }
  | .flush =>
      match s.flush with
      | .idle => { s with flush := .outstanding }
      | .returned _ => { s with flush := .outstanding }
      | _ => s
  | .read => s.read
  | .timeout => s.timeout

/-- The journal of a channel with the given capacity. -/
def process (capacity : Nat) : Process (State α) (Action α) Unit where
  step s action := (s.step capacity action, [])

end State

end HealthMonitor.History
