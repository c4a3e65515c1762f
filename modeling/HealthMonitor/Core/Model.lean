import HealthMonitor.Core.Units
import HealthMonitor.Library.Table

/-!
# Model

The versioned evidence the monitor keeps: checks and their results, the
allowlisted observations, findings with their retained diagnostics, and the
snapshot that the state machine carries from one result to the next.
-/

namespace HealthMonitor

/-! ## Enumerations -/

inductive Provider where
  | gcp | aws | azure | kubernetes | github | edge | nats
  deriving DecidableEq, Repr

inductive Check where
  | preflight | discovery | inventory | kubernetes | edge | managed | queues
  | releases | github | metrics | logs | alerts | slo | flows
  deriving DecidableEq, Repr

/-- The name `format!("{check:?}")` prints. -/
def Check.debug : Check → String
  | preflight => "Preflight"
  | discovery => "Discovery"
  | inventory => "Inventory"
  | kubernetes => "Kubernetes"
  | edge => "Edge"
  | managed => "Managed"
  | queues => "Queues"
  | releases => "Releases"
  | github => "Github"
  | metrics => "Metrics"
  | logs => "Logs"
  | alerts => "Alerts"
  | slo => "Slo"
  | flows => "Flows"

inductive Expected where
  | active | dormant | scaleToZero | suspended
  deriving DecidableEq, Repr

inductive Health where
  | healthy | degraded | unhealthy | unknown | expectedInactive
  deriving DecidableEq, Repr

/-- `matches!(health, Healthy | ExpectedInactive)`. -/
def Health.clear : Health → Bool
  | healthy => true
  | expectedInactive => true
  | _ => false

inductive Severity where
  | info | warning | error
  deriving DecidableEq, Repr

/-- The derived order of the severities. -/
def Severity.rank : Severity → Nat
  | info => 0
  | warning => 1
  | error => 2

inductive Coverage where
  | complete | denied | unauthenticated | unavailable | unsupported | missing
  | truncated | timeout | cancelled | malformed | stale | inventoryOnly
  deriving DecidableEq, Repr

inductive Confidence where
  | direct | correlated | insufficient
  deriving DecidableEq, Repr

inductive ServiceState where
  | ready | starting | stopped | failed | unknown
  deriving DecidableEq, Repr

inductive LogClass where
  | import | panic | outOfMemory | connection | permission | timeout | warning
  | otherError
  deriving DecidableEq, Repr

inductive ManifestKind where
  | image | index | unknown
  deriving DecidableEq, Repr

/-! ## Observations -/

/-- Metadata that identifies and locates an infrastructure resource. -/
structure ResourceContext where
  provider : Provider
  scope : String
  service : String
  nativeId : String
  region : Option String
  zone : Option String
  cluster : Option String
  «namespace» : Option String
  name : Option String
  uid : Option String
  container : Option String
  reason : Option String
  exitCode : Option Int
  deriving DecidableEq, Repr

structure Artifact where
  manifest : ManifestKind
  children : List String
  image : String
  digest : String
  tags : List String
  revision : Option String
  repository : Option String
  built : Bool
  createdAt : Option Time
  deriving DecidableEq, Repr

structure Provenance where
  validUntil : Time
  observedDigests : List String
  desiredDigest : Option String
  pending : Bool
  revision : Option String
  repository : Option String
  registryVerified : Bool
  buildVerified : Bool
  commitVerified : Bool
  mismatch : Bool
  deriving DecidableEq, Repr

structure LogWindow where
  gapSeconds : Nat
  start : Time
  stop : Time
  scanned : Nat
  duplicates : Nat
  limit : Nat
  complete : Bool
  deriving DecidableEq, Repr

structure Recovery where
  lastAttempt : Option Time
  state : ServiceState
  enabled : Option Bool
  lastSuccess : Option Time
  retentionDays : Option Nat
  pointInTime : Option Bool
  geoRedundant : Option Bool
  deriving DecidableEq, Repr

structure EndpointProbe where
  dns : Bool
  tls : Bool
  status : Option Nat
  accepted : List Nat
  latencyMs : Nat
  expiresAt : Option Time
  deriving DecidableEq, Repr

structure JobRun where
  completedAt : Option Time
  scheduledAt : Option Time
  complete : Bool
  failed : Bool
  failedAttempts : Nat
  succeeded : Nat
  active : Nat
  createdAt : Option Time
  deriving DecidableEq, Repr

structure Workload where
  desired : Nat
  ready : Nat
  createdAt : Option Time
  draining : Bool
  node : Bool
  deriving DecidableEq, Repr

structure Pod where
  uid : String
  container : String
  ready : Bool
  restarts : Nat
  crashLoop : Bool
  createdAt : Option Time
  terminatedAt : Option Time
  deriving DecidableEq, Repr

structure Schedule where
  createdAt : Option Time
  startingDeadlineSeconds : Option Nat
  forbidOverlap : Bool
  schedule : String
  timezone : String
  suspended : Bool
  active : Nat
  lastSchedule : Option Time
  lastSuccess : Option Time
  deriving DecidableEq, Repr

structure Queue where
  backlog : Reading
  activation : Reading
  ready : Nat
  desired : Nat
  crashLoop : Bool
  scalerReady : Bool
  ageSeconds : Option Reading
  deadLetters : Option Reading
  deriving DecidableEq, Repr

structure Service where
  state : ServiceState
  replicas : Option Nat
  backupEnabled : Option Bool
  encrypted : Option Bool
  deriving DecidableEq, Repr

structure Metric where
  name : String
  value : Reading
  capacity : Option Reading
  warning : Option Reading
  error : Option Reading
  windowSeconds : Nat
  deriving DecidableEq, Repr

structure Build where
  superseded : Bool
  pipeline : String
  revision : String
  target : String
  state : ServiceState
  createdAt : Option Time
  deriving DecidableEq, Repr

structure Log where
  signature : LogClass
  count : Nat
  firstSeen : Time
  lastSeen : Time
  sampled : Bool
  deriving DecidableEq, Repr

structure Slo where
  goal : Reading
  compliance : Option Reading
  budget : Option Reading
  burnRate : Option Reading
  periodSeconds : Option Nat
  deriving DecidableEq, Repr

/-- Allowlisted observation variants. -/
inductive Data where
  | activity (operation : String) (state : ServiceState) (eventAt : Option Time)
  | networkPolicy (direction : Option String) (allowsPublic : Option Bool)
      (protocols ports : List String) (priority : Option Nat)
  | keyMetadata (enabled : Option Bool) (purpose : Option String)
      (rotatesAt expiresAt : Option Time)
  | maintenance (window : Option String) (pending : Bool)
  | synchronization (ready : Option Bool) (lastSync : Option Time)
      (intervalSeconds : Option Nat)
  | registry (host : String)
  | artifact (artifact : Artifact)
  | commit (repository revision : String) (reference : Option String)
  | provenance (provenance : Provenance)
  | sloDefinition (name : String) (goal : Option Reading)
      (periodSeconds : Option Nat)
  | slo (slo : Slo)
  | logWorkspace (workspaceId resourceId : String)
  | logWindow (window : LogWindow)
  | certificate (issued : Option Bool) (expiresAt : Option Time)
  | recovery (recovery : Recovery)
  | metricResource (resourceId «namespace» : String)
  | quota (region code : String) (limit : Reading)
  | progress (state : Health)
  | scaler («namespace» name worker metric : String) (activation : Reading)
      (ready : Bool)
  | owner (uid : String) (ownerUid : Option String)
  | advertisedEndpoint (url : String)
  | endpoint (probe : EndpointProbe)
  | job (run : JobRun)
  | workload (workload : Workload)
  | pod (pod : Pod)
  | schedule (schedule : Schedule)
  | queue (queue : Queue)
  | service (service : Service)
  | metric (metric : Metric)
  | build (build : Build)
  | image (desired : String) (observedDigest revision : Option String)
  | log (log : Log)
  | inventory (family : String) (supported : Bool)
  | condition (rule : String) (healthy : Option Bool)
  | identity (scope : String)
  deriving DecidableEq, Repr

/-- Inventory and collection metadata do not imply resource health. -/
def Data.isHealthEvidence : Data → Bool
  | activity .. => false
  | networkPolicy .. => false
  | keyMetadata .. => false
  | maintenance .. => false
  | registry .. => false
  | artifact .. => false
  | commit .. => false
  | sloDefinition .. => false
  | logWorkspace .. => false
  | logWindow .. => false
  | metricResource .. => false
  | quota .. => false
  | owner .. => false
  | inventory .. => false
  | identity .. => false
  | scaler .. => false
  | advertisedEndpoint .. => false
  | _ => true

structure Operation where
  id : String
  coverage : Coverage
  observedAt : Time
  records : Nat := 1
  pages : Nat := 1
  attempts : Nat := 1
  required : Bool := true
  deriving DecidableEq, Repr

structure Observation where
  context : Option ResourceContext := none
  resource : String
  operation : String
  observedAt : Time
  expected : Expected := .active
  data : Data
  deriving DecidableEq, Repr

/-! ## Findings -/

/-- The triggering evidence a finding retains; detection times belong to a
finding episode, not to later recovery evaluations. -/
structure Diagnostic where
  firstDetectedAt : Option Time
  lastDetectedAt : Time
  observation : Observation
  previousRestarts : Option Nat
  graceSeconds : Nat
  deriving DecidableEq, Repr

structure Finding where
  diagnostic : Option Diagnostic
  check : Option Check
  id : String
  resource : String
  rule : String
  severity : Severity
  evidence : List String
  observedAt : Time
  expected : Expected
  confidence : Confidence
  stale : Bool
  clearCount : Nat
  validUntil : Option Time
  deriving DecidableEq, Repr

inductive TransitionKind where
  | new | worsened | recovered | stale | removed | reappeared
  deriving DecidableEq, Repr

structure Transition where
  time : Time
  finding : String
  kind : TransitionKind
  deriving DecidableEq, Repr

structure RemovalConfirmation where
  count : Nat
  lastAt : Time
  deriving DecidableEq, Repr

/-! ## Results and snapshots -/

structure CheckResult where
  target : String
  check : Check
  revision : String
  startedAt : Time
  finishedAt : Time
  operations : List Operation
  observations : List Observation
  deriving DecidableEq, Repr

/-- A one-operation result for a check that could not run; `clock` is the wall
clock that `Utc::now` reads. -/
def CheckResult.failure (target : String) (check : Check) (revision : String)
    (coverage : Coverage) (clock : Time) : CheckResult :=
  { target, check, revision
    startedAt := clock
    finishedAt := clock
    operations :=
      [{ id := check.debug, coverage, observedAt := clock
         records := 0, pages := 0 }]
    observations := [] }

/-- Sustained-pressure clock of one resource. -/
structure Pressure where
  lastSeen : Time
  warningSince : Option Time
  errorSince : Option Time
  warning : Reading
  error : Reading
  deriving DecidableEq, Repr

/-- Progress record of one pipeline stage. -/
structure Progress where
  value : Reading
  lastSeen : Time
  lastProgress : Time
  established : Bool
  deriving DecidableEq, Repr

/-- What `Job::observation_scope` prints: the fields that decide which
evidence a job may keep. -/
structure ObservationScope where
  provider : Provider
  scope : String
  context : Option String
  cluster : Option String
  clusterLocation : Option String
  credential : Option String
  regions : List String
  deriving DecidableEq, Repr

structure Snapshot where
  version : Nat := 1
  revision : String
  capturedAt : Time
  selectedScope : List String
  collectionOnly : List String := []
  scopeFingerprints : Table ObservationScope := ∅
  samples : Table Nat := ∅
  selectors : Table (List String) := ∅
  regions : Table (List String) := ∅
  freshness : Table Nat := ∅
  results : Table CheckResult := ∅
  findings : Table Finding := ∅
  health : Table Health := ∅
  pressure : Table Pressure := ∅
  progress : Table Progress := ∅
  retired : Table Transition := ∅
  confirmations : Table RemovalConfirmation := ∅
  persistenceFault : Bool := false
  droppedTransitions : Nat := 0

end HealthMonitor
