import HealthMonitor.Core.Config

/-!
# Patch

Sparse settings and the order they are laid over each other in, the limits that
settings of one check keep among themselves, and the memory the effective
configuration may take.
-/

namespace HealthMonitor

/-! ## Overlays -/

structure SettingsPatch where
  sloBurnWindow : Option Span := none
  sloBurnRateError : Option (Option Reading) := none
  logDedupEntries : Option Nat := none
  logOverlap : Option Span := none
  certificateWarning : Option Span := none
  recoveryAgeError : Option (Option Span) := none
  interval : Option Span := none
  samples : Option Nat := none
  sampleInterval : Option Span := none
  connectTimeout : Option Span := none
  attemptTimeout : Option Span := none
  operationTimeout : Option Span := none
  attempts : Option Nat := none
  concurrency : Option Nat := none
  scopeConcurrency : Option Nat := none
  subprocesses : Option Nat := none
  readyQueue : Option Nat := none
  jitterPercent : Option Nat := none
  maxAssets : Option Nat := none
  maxFindings : Option Nat := none
  memoryBytes : Option Nat := none
  responseBytes : Option Nat := none
  maxPages : Option Nat := none
  pageSize : Option Nat := none
  maxSeries : Option Nat := none
  logWindow : Option Span := none
  logEntries : Option Nat := none
  runtimeWindow : Option Span := none
  runtimeEntries : Option Nat := none
  metricWindow : Option Span := none
  historyInterval : Option Span := none
  historyAge : Option Span := none
  historyCount : Option Nat := none
  historyBytes : Option Nat := none
  nodeGrace : Option Span := none
  rolloutGrace : Option Span := none
  capacityWarning : Option Reading := none
  capacityError : Option Reading := none
  capacitySustain : Option Span := none
  recoverConfirmations : Option Nat := none
  removalConfirmations : Option Nat := none
  staleAfter : Option (Option Span) := none
  queueAgeError : Option (Option Reading) := none
  latencyErrorMs : Option (Option Reading) := none
  enabled : Option Bool := none
  required : Option Bool := none
  deriving DecidableEq, Repr

/-- Apply only the values the patch provides. -/
def Settings.overlay (s : Settings) (patch : SettingsPatch) : Settings where
  sloBurnWindow := patch.sloBurnWindow.getD s.sloBurnWindow
  sloBurnRateError := patch.sloBurnRateError.getD s.sloBurnRateError
  logDedupEntries := patch.logDedupEntries.getD s.logDedupEntries
  logOverlap := patch.logOverlap.getD s.logOverlap
  certificateWarning := patch.certificateWarning.getD s.certificateWarning
  recoveryAgeError := patch.recoveryAgeError.getD s.recoveryAgeError
  interval := patch.interval.getD s.interval
  samples := patch.samples.getD s.samples
  sampleInterval := patch.sampleInterval.getD s.sampleInterval
  connectTimeout := patch.connectTimeout.getD s.connectTimeout
  attemptTimeout := patch.attemptTimeout.getD s.attemptTimeout
  operationTimeout := patch.operationTimeout.getD s.operationTimeout
  attempts := patch.attempts.getD s.attempts
  concurrency := patch.concurrency.getD s.concurrency
  scopeConcurrency := patch.scopeConcurrency.getD s.scopeConcurrency
  subprocesses := patch.subprocesses.getD s.subprocesses
  readyQueue := patch.readyQueue.getD s.readyQueue
  jitterPercent := patch.jitterPercent.getD s.jitterPercent
  maxAssets := patch.maxAssets.getD s.maxAssets
  maxFindings := patch.maxFindings.getD s.maxFindings
  memoryBytes := patch.memoryBytes.getD s.memoryBytes
  responseBytes := patch.responseBytes.getD s.responseBytes
  maxPages := patch.maxPages.getD s.maxPages
  pageSize := patch.pageSize.getD s.pageSize
  maxSeries := patch.maxSeries.getD s.maxSeries
  logWindow := patch.logWindow.getD s.logWindow
  logEntries := patch.logEntries.getD s.logEntries
  runtimeWindow := patch.runtimeWindow.getD s.runtimeWindow
  runtimeEntries := patch.runtimeEntries.getD s.runtimeEntries
  metricWindow := patch.metricWindow.getD s.metricWindow
  historyInterval := patch.historyInterval.getD s.historyInterval
  historyAge := patch.historyAge.getD s.historyAge
  historyCount := patch.historyCount.getD s.historyCount
  historyBytes := patch.historyBytes.getD s.historyBytes
  nodeGrace := patch.nodeGrace.getD s.nodeGrace
  rolloutGrace := patch.rolloutGrace.getD s.rolloutGrace
  capacityWarning := patch.capacityWarning.getD s.capacityWarning
  capacityError := patch.capacityError.getD s.capacityError
  capacitySustain := patch.capacitySustain.getD s.capacitySustain
  recoverConfirmations := patch.recoverConfirmations.getD s.recoverConfirmations
  removalConfirmations := patch.removalConfirmations.getD s.removalConfirmations
  staleAfter := patch.staleAfter.getD s.staleAfter
  queueAgeError := patch.queueAgeError.getD s.queueAgeError
  latencyErrorMs := patch.latencyErrorMs.getD s.latencyErrorMs
  enabled := patch.enabled.getD s.enabled
  required := patch.required.getD s.required

/-! ## Limits -/

/-- What `Settings::validate` refuses. The products it compares cannot matter
beyond the widths they saturate at, so they are taken exactly. -/
def Settings.invalid (s : Settings) : Bool :=
  decide (50 < s.jitterPercent)
  || s.sloBurnRateError.any (fun value => !value.isFinite || value.le (.finite 0))
  || decide (s.logDedupEntries = 0)
  || decide (200000 < s.logDedupEntries)
  || decide (s.logWindow.seconds < s.logOverlap.seconds)
  || decide (s.runtimeWindow.seconds < s.logOverlap.seconds)
  || decide (s.concurrency = 0)
  || decide (256 < s.concurrency)
  || decide (s.scopeConcurrency = 0)
  || decide (s.concurrency < s.scopeConcurrency)
  || decide (s.subprocesses = 0)
  || decide (s.concurrency < s.subprocesses)
  || decide (s.attempts = 0)
  || decide (10 < s.attempts)
  || decide (s.samples = 0)
  || decide (100 < s.samples)
  || decide (s.attemptTimeout.seconds < s.connectTimeout.seconds)
  || decide (s.operationTimeout.seconds < s.attemptTimeout.seconds)
  || decide (s.interval.seconds = 0)
  || decide (s.sampleInterval.seconds = 0)
  || decide (s.maxPages = 0)
  || decide (1000 < s.maxPages)
  || decide (s.pageSize = 0)
  || decide (1000 < s.pageSize)
  || decide (s.maxAssets = 0)
  || decide (1000000 < s.maxAssets)
  || decide (s.maxFindings = 0)
  || decide (s.maxAssets < s.maxFindings)
  || decide (s.readyQueue < s.concurrency)
  || decide (65536 < s.readyQueue)
  || decide (s.responseBytes < 1024)
  || decide (16 * 1024 * 1024 < s.responseBytes)
  || decide (s.memoryBytes < s.responseBytes * s.concurrency * 4)
  || decide (s.memoryBytes < s.maxAssets * 1024)
  || decide (4 * 1024 * 1024 * 1024 < s.memoryBytes)
  || decide (s.historyCount = 0)
  || decide (10000 < s.historyCount)
  || decide (s.historyAge.seconds < s.historyInterval.seconds)
  || decide (s.historyBytes < s.responseBytes)
  || decide (100 * 1024 * 1024 * 1024 < s.historyBytes)
  || decide (s.maxSeries = 0)
  || decide (s.maxAssets < s.maxSeries)
  || decide (s.logEntries = 0)
  || decide (50000 < s.logEntries)
  || decide (s.runtimeEntries = 0)
  || decide (50000 < s.runtimeEntries)
  || !s.capacityWarning.isFinite
  || !s.capacityError.isFinite
  || s.capacityWarning.le (.finite 0)
  || s.capacityError.le s.capacityWarning
  || Reading.lt (.finite 100) s.capacityError
  || decide (s.recoverConfirmations = 0)
  || decide (s.removalConfirmations = 0)

def Settings.validate (s : Settings) : Except String Unit :=
  if s.invalid then .error "inconsistent or excessive collection/retention limits" else .ok ()

/-! ## Configured targets -/

/-- A target with the parts of its configuration that decide which checks it gets. -/
structure ConfiguredTarget extends Target where
  settings : SettingsPatch := {}
  checks : Check → Option SettingsPatch := fun _ => none
  endpoints : List String := []
  repositories : List String := []
  artifactTargets : List String := []
  sloGoals : Table Reading := ∅
  flowsRequired : Bool := false

/-! ## Shared memory -/

/-- The lengths of encoded parts of the configuration. -/
structure Encoding where
  target : ConfiguredTarget → Nat
  selectors : List String → Nat
  severity : Table Severity → Nat

/-- Memory taken so far and the tightest limit on it. -/
structure Footprint where
  used : Nat := 0
  limit : Nat := 18446744073709551615
  deriving DecidableEq, Repr

def Footprint.add (encoding : Encoding) (footprint : Footprint) (target : ConfiguredTarget)
    (settings : Settings) (selectors : List String) (severity : Table Severity) :
    Except String Footprint :=
  let plain := encoding.target target
  let bytes :=
    if selectors.isEmpty then plain
    else plain - encoding.selectors target.resources + encoding.selectors selectors
  let next : Footprint :=
    { used := footprint.used + (bytes + encoding.severity severity + 4096) * 4
      limit := min footprint.limit (settings.memoryBytes / 8) }
  if next.limit < next.used then
    .error "effective configuration exceeds the shared memory budget"
  else .ok next

end HealthMonitor
