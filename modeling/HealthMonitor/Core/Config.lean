import HealthMonitor.Core.Model
import HealthMonitor.Library.Text
import Mathlib.Data.List.Sort
import Mathlib.Data.List.Dedup

/-!
# Config

Settings with their defaults, targets, and the jobs a resolved configuration
hands to the scheduler. A target carries the proof that its name is a valid
identifier without the separators of resource names, so `Job.key` and the
prefixes built from it can be taken apart again.
-/

namespace HealthMonitor

def u32Max : Nat := 4294967295

/-- `u32::saturating_add(n, 1)`. -/
def saturatingSucc (n : Nat) : Nat := min (n + 1) u32Max

structure Settings where
  interval : Span := { seconds := 300 }
  samples : Nat := 5
  sampleInterval : Span := { seconds := 30 }
  connectTimeout : Span := { seconds := 10 }
  attemptTimeout : Span := { seconds := 30 }
  operationTimeout : Span := { seconds := 90 }
  attempts : Nat := 3
  concurrency : Nat := 16
  scopeConcurrency : Nat := 4
  subprocesses : Nat := 2
  readyQueue : Nat := 1024
  jitterPercent : Nat := 10
  maxAssets : Nat := 50000
  maxFindings : Nat := 10000
  memoryBytes : Nat := 256 * 1024 * 1024
  responseBytes : Nat := 2 * 1024 * 1024
  maxPages : Nat := 50
  pageSize : Nat := 100
  maxSeries : Nat := 1000
  logWindow : Span := { seconds := 3600 }
  logOverlap : Span := { seconds := 120 }
  logDedupEntries : Nat := 4096
  logEntries : Nat := 500
  runtimeWindow : Span := { seconds := 86400 }
  runtimeEntries : Nat := 250
  metricWindow : Span := { seconds := 900 }
  sloBurnWindow : Span := { seconds := 3600 }
  sloBurnRateError : Option Reading := none
  historyInterval : Span := { seconds := 300 }
  historyAge : Span := { seconds := 86400 }
  historyCount : Nat := 288
  historyBytes : Nat := 1024 * 1024 * 1024
  nodeGrace : Span := { seconds := 300 }
  rolloutGrace : Span := { seconds := 600 }
  capacityWarning : Reading := .finite 80
  capacityError : Reading := .finite 90
  capacitySustain : Span := { seconds := 600 }
  certificateWarning : Span := { seconds := 14 * 86400 }
  recoveryAgeError : Option Span := none
  recoverConfirmations : Nat := 2
  removalConfirmations : Nat := 2
  staleAfter : Option Span := none
  queueAgeError : Option Reading := none
  latencyErrorMs : Option Reading := none
  enabled : Bool := true
  required : Bool := true
  deriving DecidableEq, Repr

/-- The settings of a configuration that sets nothing. -/
def Settings.default : Settings := {}

def Resolve.intervalSeconds : Check → Span
  | .preflight => { seconds := 30 }
  | .kubernetes => { seconds := 30 }
  | .edge => { seconds := 30 }
  | .queues => { seconds := 30 }
  | .flows => { seconds := 30 }
  | .inventory => { seconds := 900 }
  | .managed => { seconds := 900 }
  | .discovery => { seconds := 3600 }
  | _ => { seconds := 300 }

/-- How long evidence of these settings stays current, in seconds. Spans are
bounded, so neither operation saturates. -/
def Settings.freshness (s : Settings) : Nat :=
  match s.staleAfter with
  | some span => span.seconds
  | none => s.interval.seconds * 2 + s.operationTimeout.seconds

/-! ## Targets -/

/-- Identifiers cannot inject query syntax, path traversal, or terminal
control codes. -/
def identifier (value : String) : Bool :=
  value ≠ "" && value.utf8ByteSize ≤ 512 && !Text.contains value ".."
    && value.toList.all fun c => c.isAlphanum || "-_./:@".toList.contains c

/-- Target names are identifiers without `/`, `:` and `@`. -/
def targetName (value : String) : Bool :=
  identifier value && !value.toList.any ['/', ':', '@'].contains

inductive SignalMode where
  | counter | rate
  deriving DecidableEq, Repr

structure FlowStage where
  name : String
  progress : String
  mode : SignalMode
  workload : Option String
  deriving DecidableEq, Repr

structure Flow where
  name : String
  demand : String
  idleAfter : Span
  stages : List FlowStage
  deriving DecidableEq, Repr

structure Target where
  name : String
  valid : targetName name = true
  provider : Provider
  scope : String
  credential : Option String := none
  regions : List String := []
  context : Option String := none
  cluster : Option String := none
  clusterLocation : Option String := none
  expected : Expected := .active
  resources : List String := []
  buildTargets : Table String := ∅
  buildRepositories : Table String := ∅
  flows : List Flow := []

/-- What every resource of the target starts with. -/
def Target.root (t : Target) : String := t.name ++ "/"

/-- The progress key of a stage, which is also its resource. -/
def Target.stageKey (t : Target) (flow : Flow) (stage : FlowStage) : String :=
  t.root ++ "flows/" ++ flow.name ++ "/" ++ stage.name

/-! ## Jobs -/

structure Job where
  target : Target
  check : Check
  settings : Settings := {}
  revision : String := ""
  artifactOnly : Bool := false
  assessHealth : Bool := true
  flowsEnabled : Bool := false
  flowSettings : Option Settings := none
  severity : Table Severity := ∅

/-- The key a job is resolved with, `"{target}/{check:?}"`. -/
def Job.key (job : Job) : String := job.target.root ++ job.check.debug

/-- `Vec::sort_unstable` followed by `dedup`. -/
def sortDedup (texts : List String) : List String :=
  (texts.insertionSort (· ≤ ·)).dedup

def Job.observationScope (job : Job) : ObservationScope :=
  { provider := job.target.provider
    scope := job.target.scope
    context := job.target.context
    cluster := job.target.cluster
    clusterLocation := job.target.clusterLocation
    credential := job.target.credential
    regions := sortDedup job.target.regions }

/-! ## Keys can be taken apart -/

theorem Target.bar_notMem_name (t : Target) : '|' ∉ t.name.toList := by
  intro h
  have hv := t.valid
  simp only [targetName, identifier, Bool.and_eq_true, List.all_eq_true] at hv
  have := hv.1.2 '|' h
  revert this
  decide

theorem Target.slash_notMem_name (t : Target) : '/' ∉ t.name.toList := by
  intro h
  have hv := t.valid
  simp only [targetName, Bool.and_eq_true, Bool.not_eq_true', List.any_eq_false] at hv
  have := hv.2 '/' h
  revert this
  decide

theorem Check.bar_notMem_debug (c : Check) : '|' ∉ c.debug.toList := by
  cases c <;> decide

theorem Job.bar_notMem_key (job : Job) : '|' ∉ job.key.toList := by
  simp only [Job.key, Target.root, String.toList_append, List.mem_append, not_or]
  exact ⟨⟨job.target.bar_notMem_name, by decide⟩, job.check.bar_notMem_debug⟩

end HealthMonitor
