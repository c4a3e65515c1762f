import HealthMonitor.Core.Capacity
import HealthMonitor.Core.Correlation
import HealthMonitor.Core.Diagnostics
import HealthMonitor.Core.Flows
import HealthMonitor.Core.PartialResults
import HealthMonitor.Core.Releases

/-!
# State

Bounded current state and confirmed transitions, independent of persistence.
The source's `State` is a snapshot and nothing else, so the model carries the
snapshot itself. `State::apply` is one long loop body; here it is the
composition of its stages, in the order of the source:

  gather → bound → rewrite → limitAssets → scan → settle → retire → store → expire

An `Application` names what every stage leaves, `collect` is the composition,
and `apply` follows it with the nested flow application.
-/

namespace HealthMonitor.State

/-! ## Gathering the result -/

/-- The book-keeping of the job that reports. -/
def register (snapshot : Snapshot) (job : Job) : Snapshot :=
  { snapshot with
    regions := snapshot.regions.insert job.target.name job.target.regions
    collectionOnly :=
      if job.assessHealth then snapshot.collectionOnly.filter (· != job.key)
      else snapshot.collectionOnly.insert job.key
    scopeFingerprints := snapshot.scopeFingerprints.insert job.key job.observationScope
    samples := snapshot.samples.insert job.key
      (saturatingSucc ((snapshot.samples[job.key]?).getD 0)) }

/-- Flow jobs evaluate the stored results instead of the result they are
given; release jobs enrich theirs. -/
def derive (snapshot : Snapshot) (job : Job) (result : CheckResult)
    (now clock : Time) : Snapshot × CheckResult :=
  let (snapshot, result) :=
    if job.check = .flows then Flows.evaluate snapshot job now clock
    else (snapshot, result)
  let result :=
    if job.check = .releases ∧ job.artifactOnly = false then
      Releases.enrich snapshot job result now
    else result
  (snapshot, result)

/-- The state and the result before any limit is applied. -/
def gather (host : Host) (snapshot : Snapshot) (job : Job) (result : CheckResult)
    (now clock : Time) : Snapshot × CheckResult :=
  let (snapshot, result) := derive (register snapshot job) job result now clock
  let result := PartialResults.retain host job snapshot result
  let result := LogRecovery.reconcile job snapshot result
  ({ snapshot with
      freshness := snapshot.freshness.insert job.key job.settings.freshness },
    result)

/-! ## Limits -/

/-- The stored results of every other job. -/
def others (snapshot : Snapshot) (job : Job) : List CheckResult :=
  (snapshot.results.toList.filter (·.1 != job.key)).map Prod.snd

def otherBytes (host : Host) (snapshot : Snapshot) (job : Job) : Nat :=
  ((others snapshot job).map (resultBytes host)).sum

def otherAssets (snapshot : Snapshot) (job : Job) : Nat :=
  ((others snapshot job).map fun r => r.observations.length).sum

/-- The bytes and assets the other results leave. -/
def bound (host : Host) (snapshot : Snapshot) (job : Job) (result : CheckResult) :
    CheckResult :=
  truncate host result (job.settings.memoryBytes / 2 - otherBytes host snapshot job)
    job.settings.maxAssets

/-- The passes over a bounded result. -/
def rewrite (job : Job) (result : CheckResult) (now : Time) : CheckResult :=
  let result := { result with observations := Provenance.markRetries result.observations }
  let result := SchedulePolicy.correlate result
  let result := { result with observations := Recovery.consolidate result.observations }
  validateSource result job.settings.freshness now

def prepare (host : Host) (snapshot : Snapshot) (job : Job) (result : CheckResult)
    (now clock : Time) : Snapshot × CheckResult :=
  let (snapshot, result) := gather host snapshot job result now clock
  (snapshot, rewrite job (bound host snapshot job result) now)

/-- The assets the other results leave. -/
def limitAssets (snapshot : Snapshot) (job : Job) (result : CheckResult) : CheckResult :=
  let remaining := job.settings.maxAssets - otherAssets snapshot job
  if remaining < result.observations.length then
    { result with
      observations := result.observations.take remaining
      operations := truncateOperations result.operations }
  else result

/-! ## The scan -/

/-- What the scan over the observations of a result carries. -/
structure Scan where
  pressure : Table Pressure
  health : Table Health
  index : Index
  /-- The operations of the scanned result: a refused finding truncates them. -/
  operations : List Operation
  /-- The ids detected in this result. -/
  current : List String
  diagnosticBytes : Nat
  findings : Table Finding
  retired : Table Transition
  transitions : List Transition

/-- Release jobs assess builds and provenance only. -/
def assessed (job : Job) (obs : Observation) : Bool :=
  job.assessHealth && (job.check != .releases
    || match obs.data with
       | .build _ => true
       | .provenance _ => true
       | _ => false)

def evaluateObservation (host : Host) (job : Job) (now : Time)
    (pressure : Table Pressure) (prior : Option Observation) (complete : Bool)
    (obs : Observation) : Table Pressure × Evaluation :=
  if assessed job obs then
    match Capacity.evaluate pressure obs job.settings complete now with
    | (pressure, some evaluation) => (pressure, evaluation)
    | (pressure, none) =>
        (pressure, Policy.evaluate host obs prior job.settings now)
  else (pressure, Policy.result .unknown)

/-- The health to record: incomplete evidence establishes nothing clear. -/
def recordedHealth (complete : Bool) (health : Health) : Health :=
  if !complete && health.clear then .unknown else health

/-- The check, the validity and the configured severity of a detection. -/
def stamp (job : Job) (obs : Observation) (finding : Finding) : Finding :=
  let validUntil := checkedAdd finding.observedAt job.settings.freshness
  { finding with
    check := some job.check
    validUntil := match obs.data with
      | .provenance p => validUntil.map (min · p.validUntil)
      | _ => validUntil
    severity := (job.severity[finding.rule]?).getD finding.severity }

def graceSeconds (job : Job) (obs : Observation) : Nat :=
  match obs.data with
  | .workload w =>
      if w.node then job.settings.nodeGrace.seconds else job.settings.rolloutGrace.seconds
  | _ => job.settings.rolloutGrace.seconds

/-- The transition a detection causes. -/
def detectionKind (previous : Option Finding) (retired : Bool) (severity : Severity) :
    Option TransitionKind :=
  match previous with
  | none => some (if retired then .reappeared else .new)
  | some old =>
      if old.stale then some .reappeared
      else if old.severity.rank < severity.rank then some .worsened
      else none

/-- The limit leaves no room for one more finding. -/
def refuses (job : Job) (findings : Table Finding) (id : String) : Bool :=
  findings[id]?.isNone && job.settings.maxFindings ≤ findings.size

/-- The diagnostic a detection keeps, and the bytes that remain. -/
def admission (host : Host) (job : Job) (prior : Option Observation) (obs : Observation)
    (scan : Scan) (id : String) : Option Diagnostic × Nat :=
  (Diagnostic.capture obs prior scan.findings[id]? (graceSeconds job obs)).admitted host
    scan.findings[id]? scan.diagnosticBytes

/-- The finding a detection stores. -/
def recorded (host : Host) (job : Job) (prior : Option Observation) (obs : Observation)
    (scan : Scan) (finding : Finding) : Finding :=
  { stamp job obs finding with
    diagnostic := (admission host job prior obs scan finding.id).1
    clearCount := 0 }

/-- One detected finding. A new one is refused when the limit is reached, and
the result then loses its complete coverage. -/
def detect (host : Host) (job : Job) (now : Time) (prior : Option Observation)
    (obs : Observation) (scan : Scan) (finding : Finding) : Scan :=
  let current := finding.id :: scan.current
  let diagnosticBytes := (admission host job prior obs scan finding.id).2
  if refuses job scan.findings finding.id then
    { scan with
      current, diagnosticBytes
      operations := truncateOperations scan.operations }
  else
    let finding := recorded host job prior obs scan finding
    let kind := detectionKind scan.findings[finding.id]?
      (scan.retired.contains finding.id) finding.severity
    { scan with
      current, diagnosticBytes
      transitions := scan.transitions
        ++ (kind.map fun kind => { time := now, finding := finding.id, kind }).toList
      retired := scan.retired.erase finding.id
      findings := scan.findings.insert finding.id finding }

/-- The pressure and the verdict on one observation, seen from a scan. -/
def evaluated (host : Host) (job : Job) (now : Time) (scan : Scan) (obs : Observation) :
    Table Pressure × Evaluation :=
  evaluateObservation host job now scan.pressure scan.index.prior[obs.resource]?
    (scan.index.isComplete obs) obs

/-- What a verdict leaves before its findings are looked at. -/
def note (host : Host) (job : Job) (now : Time) (scan : Scan) (obs : Observation) : Scan :=
  let (pressure, evaluation) := evaluated host job now scan obs
  { scan with
    pressure
    health :=
      if assessed job obs && obs.data.isHealthEvidence then
        scan.health.insert obs.resource
          (recordedHealth (scan.index.isComplete obs) evaluation.health)
      else scan.health
    index := scan.index.recordClear obs evaluation.health }

/-- One iteration of the scan. -/
def scanObservation (host : Host) (job : Job) (now : Time) (scan : Scan)
    (obs : Observation) : Scan :=
  (evaluated host job now scan obs).2.findings.foldl
    (detect host job now scan.index.prior[obs.resource]? obs)
    (note host job now scan obs)

/-- The diagnostic bytes that the findings leave. -/
def diagnosticBytes (host : Host) (findings : Table Finding) : Nat :=
  findings.total fun finding => Diagnostic.charge host finding.diagnostic

/-- The scan before its first observation. The index sees the operations as
they were before the assets were limited. -/
def startScan (host : Host) (snapshot : Snapshot) (job : Job)
    (prepared limited : CheckResult) : Scan :=
  { pressure := snapshot.pressure
    health := snapshot.health
    index := Index.new snapshot.results[job.key]? prepared.operations
    operations := limited.operations
    current := []
    diagnosticBytes := job.settings.memoryBytes / 4 - diagnosticBytes host snapshot.findings
    findings := snapshot.findings
    retired := snapshot.retired
    transitions := [] }

def scan (host : Host) (snapshot : Snapshot) (job : Job) (prepared limited : CheckResult)
    (now : Time) : Scan :=
  limited.observations.foldl (scanObservation host job now)
    (startScan host snapshot job prepared limited)

/-! ## Settling the findings that were not detected -/

/-- The removal counter of a job for a finding. -/
def confirmationKey (job : Job) (id : String) : String := job.key ++ "|" ++ id

/-- What the loop over the findings reads. -/
structure Settling where
  job : Job
  index : Index
  current : List String
  oldResources : List String
  stored : CheckResult

/-- The result reports the resource. -/
def CheckResult.reports (result : CheckResult) (resource : String) : Bool :=
  result.observations.any (·.resource == resource)

/-- One more clearing observation, at `time`. -/
def cleared (job : Job) (finding : Finding) (time : Time) : Finding :=
  { finding with
    clearCount := saturatingSucc finding.clearCount
    observedAt := time
    validUntil := checkedAdd time job.settings.freshness
    stale := false }

/-- Only inventories are authoritative about what no longer exists. -/
def removable (s : Settling) (finding : Finding) (confirmed : Bool) : Bool :=
  (s.job.check == .inventory || s.job.check == .kubernetes)
    && s.index.canRemove finding
    && (s.oldResources.contains finding.resource || confirmed)
    && !CheckResult.reports s.stored finding.resource
    && Text.startsWith finding.resource s.job.target.root

/-- The instant an absence is observed at. -/
def absentAt (stored : CheckResult) (finding : Finding) : Time :=
  (((stored.operations.filter fun op => finding.evidence.contains op.id).map
    Operation.observedAt).max?).getD stored.startedAt

/-- The removal counter after one more absence. -/
def confirm (finding : Finding) (confirmation : Option RemovalConfirmation)
    (time : Time) : RemovalConfirmation :=
  let c := confirmation.getD { count := 0, lastAt := finding.observedAt }
  if c.lastAt < time then { count := saturatingSucc c.count, lastAt := time } else c

/-- One iteration of the loop: the finding with its removal counter. -/
def settleFinding (s : Settling) (id : String) (finding : Finding)
    (confirmation : Option RemovalConfirmation) :
    Table.Visit Finding RemovalConfirmation (String × TransitionKind) :=
  let confirmation :=
    if CheckResult.reports s.stored finding.resource then none else confirmation
  if s.current.contains id then ⟨finding, confirmation, []⟩
  else
    match s.index.clearFor finding with
    | some time =>
        let finding := cleared s.job finding time
        ⟨finding, confirmation,
          if s.job.settings.recoverConfirmations ≤ finding.clearCount then
            [(id, .recovered)]
          else []⟩
    | none =>
        if removable s finding confirmation.isSome then
          let confirmation := confirm finding confirmation (absentAt s.stored finding)
          ⟨finding, some confirmation,
            if s.job.settings.removalConfirmations ≤ confirmation.count then
              [(id, .removed)]
            else []⟩
        else ⟨finding, confirmation, []⟩

def settle (s : Settling) (findings : Table Finding)
    (confirmations : Table RemovalConfirmation) :
    Table.Swept Finding RemovalConfirmation (String × TransitionKind) :=
  Table.sweep (confirmationKey s.job) (settleFinding s) findings confirmations

/-! ## Retiring -/

/-- The tables that retiring a finding touches. -/
structure Retirement where
  findings : Table Finding
  confirmations : Table RemovalConfirmation
  retired : Table Transition

def retireStep (now : Time) (r : Retirement) (removed : String × TransitionKind) :
    Retirement :=
  { findings := r.findings.erase removed.1
    confirmations :=
      r.confirmations.retain fun key _ => !Text.endsWith key ("|" ++ removed.1)
    retired := r.retired.insert removed.1
      { time := now, finding := removed.1, kind := removed.2 } }

def retire (now : Time) (r : Retirement) (removed : List (String × TransitionKind)) :
    Retirement :=
  removed.foldl (retireStep now) r

/-- The derived order of `(DateTime, String)`. -/
def older (a b : Time × String) : Prop := a.1 < b.1 ∨ (a.1 = b.1 ∧ a.2 ≤ b.2)

instance : DecidableRel older := fun a b =>
  inferInstanceAs (Decidable (a.1 < b.1 ∨ (a.1 = b.1 ∧ a.2 ≤ b.2)))

/-- The retired entries above the limit, oldest first. -/
def trimmed (retired : Table Transition) (limit : Nat) : List String :=
  (((retired.toList.map fun e => (e.2.time, e.1)).insertionSort older).take
    (retired.size - limit)).map Prod.snd

def trimRetired (retired : Table Transition) (limit : Nat) : Table Transition :=
  (trimmed retired limit).foldl (fun table key => table.erase key) retired

/-! ## Expiry -/

/-- An observation that is no longer current at `now`. -/
def outdated (limit : Nat) (now : Time) (obs : Observation) : Bool :=
  decide (numSeconds now obs.observedAt > limit)
    || match obs.data with
       | .provenance p => decide (p.validUntil < now)
       | _ => false

/-- One observation of the expiry loop. -/
def expireObservation (limit : Nat) (now : Time)
    (state : List Operation × Table Health) (obs : Observation) :
    List Operation × Table Health :=
  if outdated limit now obs && state.2.contains obs.resource then
    (downgrade (·.id == obs.operation) .stale state.1, state.2.insert obs.resource .unknown)
  else state

def expireResult (limit : Nat) (now : Time) (result : CheckResult)
    (health : Table Health) : CheckResult × Table Health :=
  let (operations, health) := result.observations.foldl (expireObservation limit now)
    (downgrade (fun op => numSeconds now op.observedAt > limit) .stale result.operations,
      health)
  ({ result with operations }, health)

/-- One stored result of the expiry loop. -/
def expireStep (freshnessOf : Table Nat) (freshness : Nat) (now : Time)
    (state : Table CheckResult × Table Health) (entry : String × CheckResult) :
    Table CheckResult × Table Health :=
  let limit := (freshnessOf[entry.1]?).getD freshness
  let (result, health) := expireResult limit now entry.2 state.2
  (state.1.insert entry.1 result, health)

/-- The finding has outlived its validity. -/
def aged (freshness : Nat) (now : Time) (finding : Finding) : Bool :=
  !finding.stale
    && match finding.validUntil with
       | some until' => decide (until' < now)
       | none => decide (numSeconds now finding.observedAt > freshness)

def age (freshness : Nat) (now : Time) (finding : Finding) : Finding :=
  if aged freshness now finding then { finding with stale := true } else finding

def expire (snapshot : Snapshot) (freshness : Nat) (now : Time) :
    Snapshot × List Transition :=
  let (results, health) := snapshot.results.toList.foldl
    (expireStep snapshot.freshness freshness now) (snapshot.results, snapshot.health)
  ({ snapshot with
      results, health
      findings := snapshot.findings.map fun _ finding => age freshness now finding },
    (snapshot.findings.toList.filter fun e => aged freshness now e.2).map fun e =>
      { time := now, finding := e.2.id, kind := .stale })

/-! ## Apply -/

/-- Some stored result reports the resource. -/
def observed (results : Table CheckResult) (resource : String) : Bool :=
  results.toList.any fun e => CheckResult.reports e.2 resource

/-- What one pass over `State::apply` is given. -/
structure Application where
  before : Snapshot
  job : Job
  result : CheckResult
  now : Time
  clock : Time

namespace Application

variable (host : Host) (a : Application)

/-- The state and the result when the scan is set up. -/
def prepared : Snapshot × CheckResult :=
  prepare host a.before a.job a.result a.now a.clock

/-- The result the scan walks over. -/
def limited : CheckResult :=
  limitAssets (a.prepared host).1 a.job (a.prepared host).2

/-- The scan before its first observation. -/
def start : Scan :=
  startScan host (a.prepared host).1 a.job (a.prepared host).2 (a.limited host)

def scanned : Scan :=
  scan host (a.prepared host).1 a.job (a.prepared host).2 (a.limited host) a.now

/-- The result that is stored. -/
def stored : CheckResult :=
  { a.limited host with operations := (a.scanned host).operations }

/-- The index after the coverage of the stored result is known, and the
health it leaves. -/
def reconciled : Index × Table Health :=
  (a.scanned host).index.reconcile (a.stored host).operations (a.stored host).observations
    (a.scanned host).health

/-- The result the job stored last. -/
def replaced : Option CheckResult := (a.prepared host).1.results[a.job.key]?

def settling : Settling :=
  { job := a.job
    index := (a.reconciled host).1
    current := (a.scanned host).current
    oldResources := match a.replaced host with
      | some old => old.observations.map Observation.resource
      | none => []
    stored := a.stored host }

def settled : Table.Swept Finding RemovalConfirmation (String × TransitionKind) :=
  settle (a.settling host) (a.scanned host).findings (a.prepared host).1.confirmations

def retirement : Retirement :=
  retire a.now
    { findings := (a.settled host).entries
      confirmations := (a.settled host).slots
      retired := (a.scanned host).retired } (a.settled host).reports

def results : Table CheckResult :=
  (a.prepared host).1.results.insert a.job.key (a.stored host)

/-- The state before its expiry. -/
def pending : Snapshot :=
  { (a.prepared host).1 with
    results := a.results host
    findings := (a.retirement host).findings
    confirmations := (a.retirement host).confirmations
    retired := trimRetired (a.retirement host).retired a.job.settings.maxFindings
    health := (a.reconciled host).2.retain fun resource _ =>
      observed (a.results host) resource
    pressure := (a.scanned host).pressure.retain fun resource _ =>
      observed (a.results host) resource
    capturedAt := a.now
    revision := a.job.revision }

def expired : Snapshot × List Transition :=
  expire (a.pending host) a.job.settings.freshness a.now

/-- The state after the pass. -/
def after : Snapshot := (a.expired host).1

def transitions : List Transition :=
  (a.scanned host).transitions
    ++ (a.settled host).reports.map (fun (finding, kind) => { time := a.now, finding, kind })
    ++ (a.expired host).2

/-! ### The fields of the stages -/

variable {host a}

theorem scanned_eq : a.scanned host
    = (a.limited host).observations.foldl (scanObservation host a.job a.now)
        (a.start host) := by
  rw [scanned, scan, start]

theorem stored_observations :
    (a.stored host).observations = (a.limited host).observations := by
  rw [stored]

theorem stored_operations : (a.stored host).operations = (a.scanned host).operations := by
  rw [stored]

@[simp] theorem settling_current :
    (a.settling host).current = (a.scanned host).current := rfl

@[simp] theorem settling_job : (a.settling host).job = a.job := rfl

@[simp] theorem settling_index : (a.settling host).index = (a.reconciled host).1 := rfl

@[simp] theorem settling_stored : (a.settling host).stored = a.stored host := rfl

theorem pending_results : (a.pending host).results = a.results host := by
  rw [pending]

theorem pending_findings : (a.pending host).findings = (a.retirement host).findings := by
  rw [pending]

theorem pending_confirmations :
    (a.pending host).confirmations = (a.retirement host).confirmations := by
  rw [pending]

theorem pending_retired : (a.pending host).retired
    = trimRetired (a.retirement host).retired a.job.settings.maxFindings := by
  rw [pending]

theorem pending_health : (a.pending host).health
    = (a.reconciled host).2.retain fun resource _ => observed (a.results host) resource := by
  rw [pending]

theorem pending_pressure : (a.pending host).pressure
    = (a.scanned host).pressure.retain fun resource _ =>
        observed (a.results host) resource := by
  rw [pending]

theorem pending_progress :
    (a.pending host).progress = (a.prepared host).1.progress := by
  rw [pending]

theorem pending_freshness :
    (a.pending host).freshness = (a.prepared host).1.freshness := by
  rw [pending]

theorem after_eq :
    a.after host = (expire (a.pending host) a.job.settings.freshness a.now).1 := by
  rw [after, expired]

end Application

-- The stages are read through the lemmas above; unfolding them on the way of a
-- definitional check would evaluate a whole pass.
attribute [irreducible] Application.prepared Application.limited Application.scanned
  Application.reconciled Application.settled Application.retirement Application.pending

/-- The body of `State::apply` up to its nested flow application. -/
def collect (host : Host) (snapshot : Snapshot) (job : Job) (result : CheckResult)
    (now clock : Time) : Snapshot × List Transition :=
  let a : Application := { before := snapshot, job, result, now, clock }
  (a.after host, a.transitions host)

/-- The flow job of the same target. -/
def flowJob (job : Job) : Job :=
  { job with
    settings := job.flowSettings.getD job.settings
    check := .flows
    flowsEnabled := false }

/-- `apply_derived` puts the sample count of the job back. -/
def restoreSamples (snapshot : Snapshot) (key : String) (samples : Option Nat) :
    Snapshot :=
  { snapshot with samples := Table.put snapshot.samples key samples }

/-- Failed and truncated operations cannot clear findings or imply removals.
`clock` is the wall clock that stamps failures. -/
def apply (host : Host) (snapshot : Snapshot) (job : Job) (result : CheckResult)
    (now clock : Time) : Snapshot × List Transition :=
  let (snapshot, transitions) := collect host snapshot job result now clock
  if job.flowsEnabled = true ∧ job.check ≠ .flows then
    let flow := flowJob job
    let (snapshot, result) := Flows.evaluate snapshot flow now clock
    let samples := snapshot.samples[flow.key]?
    let (snapshot, derived) := collect host snapshot flow result now clock
    (restoreSamples snapshot flow.key samples, transitions ++ derived)
  else (snapshot, transitions)

end HealthMonitor.State
