import HealthMonitor.Core.Config

/-!
# Bounds

Conservative accounting for retained evidence. `Host` gathers what the crate
takes from outside its source: the serializer's byte counts, the two structure
sizes the compiler lays out, and the calendar library.
-/

namespace HealthMonitor

structure Host where
  /-- `serde_json::to_vec(observation).len()`. -/
  observationJson : Observation → Nat
  /-- `size_of::<Observation>()`. -/
  observationSize : Nat
  /-- `size_of::<Operation>()`. -/
  operationSize : Nat
  /-- The latest due instant of a cron schedule in a timezone, up to and
  including the given one; `none` when either text does not parse. -/
  previousOccurrence : String → String → Time → Option Time

/-! ## Sizes -/

/-- JSON size overestimates most strings; the multiplier reserves collection
and comparison copies. -/
def observationBytes (host : Host) (obs : Observation) : Nat :=
  host.observationJson obs * 4 + host.observationSize

def operationBytes (host : Host) (op : Operation) : Nat :=
  op.id.utf8ByteSize * 4 + (host.operationSize + 256)

def operationsBytes (host : Host) (ops : List Operation) : Nat :=
  (ops.map (operationBytes host)).sum

def observationsBytes (host : Host) (obs : List Observation) : Nat :=
  (obs.map (observationBytes host)).sum

def resultBytes (host : Host) (result : CheckResult) : Nat :=
  operationsBytes host result.operations + observationsBytes host result.observations

/-! ## Coverage downgrades -/

/-- Lower the operations that satisfy `p` from `Complete` to `coverage`. -/
def downgrade (p : Operation → Bool) (coverage : Coverage)
    (ops : List Operation) : List Operation :=
  ops.map fun op =>
    if p op && op.coverage == .complete then { op with coverage } else op

/-- Every `Complete` operation becomes `Truncated`. -/
def truncateOperations (ops : List Operation) : List Operation :=
  downgrade (fun _ => true) .truncated ops

/-! ## Truncation -/

/-- How many observations fit, counting from `used` bytes. -/
def fitting (host : Host) (bytes : Nat) : Nat → List Observation → Nat
  | _, [] => 0
  | used, obs :: rest =>
      let used := used + observationBytes host obs
      if bytes < used then 0 else fitting host bytes used rest + 1

def truncate (host : Host) (result : CheckResult) (bytes assets : Nat) :
    CheckResult :=
  let retained := fitting host bytes (operationsBytes host result.operations)
    (result.observations.take assets)
  if retained < result.observations.length then
    { result with
      observations := result.observations.take retained
      operations := truncateOperations result.operations }
  else result

/-! ## Source validation -/

/-- A job record that claims both terminal states. -/
def Data.contradictory : Data → Bool
  | .job run => run.complete && run.failed
  | _ => false

/-- One iteration of `validate_source`, at `obs`. -/
def validateObservation (freshness : Nat) (now : Time)
    (ops : List Operation) (obs : Observation) : List Operation :=
  let ops :=
    if obs.data.contradictory then
      ops.map fun op =>
        if op.id == obs.operation then { op with coverage := .malformed } else op
    else ops
  if numSeconds now obs.observedAt > freshness then
    downgrade (·.id == obs.operation) .stale ops
  else ops

/-- Invalid terminal states and stale timestamps cannot establish complete
coverage. -/
def validateSource (result : CheckResult) (freshness : Nat) (now : Time) :
    CheckResult :=
  { result with
    operations :=
      result.observations.foldl (validateObservation freshness now) result.operations }

end HealthMonitor
