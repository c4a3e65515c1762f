import HealthMonitor.Core.State

/-!
# StateLifecycle

Freshness and selection lifecycle of the state: the refresh of release
correlations, the start of a run, and the reload that keeps the evidence of
the selected jobs.
-/

namespace HealthMonitor

/-- The errors a reload can end with. -/
inductive Error where
  | evidence
  | config (message : String)
  deriving DecidableEq, Repr

namespace State

def new (revision : String) (scope : List String) (clock : Time) : Snapshot :=
  { revision, capturedAt := clock, selectedScope := scope }

/-! ## Refreshing releases -/

/-- The job correlates releases and has its evidence from a provider. -/
def refreshes (job : Job) : Bool :=
  job.check == .releases && !job.artifactOnly && job.target.provider != .github

def refreshStep (host : Host) (now : Time) (clock : Job → Time)
    (state : Snapshot × List Transition) (job : Job) : Snapshot × List Transition :=
  match state.1.results[job.key]? with
  | none => state
  | some result =>
      let samples := state.1.samples[job.key]?
      let (snapshot, transitions) := apply host state.1 job result now (clock job)
      (restoreSamples snapshot job.key samples, state.2 ++ transitions)

/-- Reference facts can arrive after runtime inventories during a one-off
collection. -/
def refreshReleases (host : Host) (snapshot : Snapshot) (jobs : List Job) (now : Time)
    (clock : Job → Time) : Snapshot × List Transition :=
  (jobs.filter refreshes).foldl (refreshStep host now clock) (snapshot, [])

/-! ## Runs and reloads -/

/-- A one-off run establishes its own sampling baseline while retaining
unresolved findings. -/
def beginRun (snapshot : Snapshot) : Snapshot :=
  { snapshot with
    results := ∅, health := ∅, pressure := ∅, progress := ∅, confirmations := ∅
    samples := ∅ }

/-- The finding was detected by the job's check, or by an unknown one. -/
def detectedBy (job : Job) (finding : Finding) : Bool :=
  finding.check.all (· == job.check)

/-- A job whose observation scope changed keeps none of its evidence; one
whose selectors changed keeps no result. -/
def forgetJob (snapshot : Snapshot) (job : Job) : Snapshot :=
  let within (resource : String) : Bool := Text.startsWith resource job.target.root
  let snapshot :=
    if snapshot.scopeFingerprints[job.key]? = some job.observationScope then snapshot
    else
      { snapshot with
        results := snapshot.results.erase job.key
        retired := snapshot.retired.retain fun id _ => !within id
        findings := snapshot.findings.retain fun _ finding =>
          !(within finding.resource && detectedBy job finding)
        pressure := snapshot.pressure.retain fun resource _ => !within resource
        progress := snapshot.progress.retain fun resource _ => !within resource }
  if (snapshot.selectors[job.key]?).any (· ≠ job.target.resources) then
    { snapshot with results := snapshot.results.erase job.key }
  else snapshot

/-- A table with one entry a job; the last job of a key wins. -/
def byKey {α : Type} (jobs : List Job) (value : Job → α) (table : Table α) : Table α :=
  jobs.foldl (fun table job => table.insert job.key (value job)) table

/-- The regions of every target, as its first job states them. -/
def regionsOf (jobs : List Job) : Table (List String) :=
  jobs.foldl (fun table job =>
    if table.contains job.target.name then table
    else table.insert job.target.name job.target.regions) ∅

/-- The progress keys of the stages that some job follows. -/
def flowKeys (jobs : List Job) : List String :=
  (jobs.filter Job.flowsEnabled).flatMap fun job =>
    job.target.flows.flatMap fun flow =>
      flow.stages.map (job.target.stageKey flow)

/-- The job's selection covers the finding. -/
def covers (job : Job) (finding : Finding) : Bool :=
  job.assessHealth && Text.startsWith finding.resource job.target.root
    && detectedBy job finding
    && (job.target.resources.isEmpty
      || job.target.resources.any (Text.contains finding.resource))

/-- The finding id in a confirmation key. -/
def confirmedId (key : String) : String :=
  match Text.splitOnce key "|" with
  | some (_, id) => id
  | none => key

/-- The stored results that some health-assessing job still selects report the
resource. -/
def selected (jobs : List Job) (results : Table CheckResult) (resource : String) : Bool :=
  (jobs.filter Job.assessHealth).any fun job =>
    (results[job.key]?).any fun result => CheckResult.reports result resource

/-- Keep the evidence that belongs to the selected jobs. -/
def retainScope (snapshot : Snapshot) (jobs : List Job) : Snapshot :=
  let reset := jobs.head?.any (·.revision ≠ snapshot.revision)
  let snapshot := { snapshot with
    regions := regionsOf jobs
    pressure := if reset then ∅ else snapshot.pressure
    progress := if reset then ∅ else snapshot.progress }
  let snapshot := jobs.foldl forgetJob snapshot
  let keys := jobs.map Job.key
  let results := snapshot.results.retain fun key _ => keys.contains key
  let findings := snapshot.findings.retain fun _ finding => jobs.any (covers · finding)
  { snapshot with
    results, findings
    selectors := byKey jobs (·.target.resources) ∅
    scopeFingerprints := byKey jobs Job.observationScope ∅
    progress := snapshot.progress.retain fun key _ => (flowKeys jobs).contains key
    health := snapshot.health.retain fun resource _ => selected jobs results resource
    freshness := byKey jobs (·.settings.freshness)
      (snapshot.freshness.retain fun key _ => keys.contains key)
    samples := snapshot.samples.retain fun key _ => keys.contains key
    confirmations := snapshot.confirmations.retain fun key _ =>
      findings.contains (confirmedId key)
    selectedScope := keys
    collectionOnly := ((jobs.filter (!·.assessHealth)).map Job.key).dedup }

/-- The message a reload is refused with. -/
def limitsMessage : String :=
  "replacement limits cannot retain current evidence; previous configuration retained"

/-- A reload cannot silently discard unresolved evidence to satisfy a smaller
budget. -/
def reconfigured (host : Host) (snapshot : Snapshot) (jobs : List Job) :
    Except Error Snapshot :=
  let next := retainScope snapshot jobs
  match jobs with
  | [] => .error .evidence
  | job :: _ =>
      let next := { next with retired := trimRetired next.retired job.settings.maxFindings }
      let results := next.results.toList.map Prod.snd
      let assets := (results.map fun r => r.observations.length).sum
      let bytes := (results.map (resultBytes host)).sum
      if job.settings.maxAssets < assets || job.settings.maxFindings < next.findings.size
          || job.settings.memoryBytes / 2 < bytes then
        .error (.config limitsMessage)
      else .ok { next with revision := job.revision }

end State

end HealthMonitor
