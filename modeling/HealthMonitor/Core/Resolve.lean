import HealthMonitor.Core.Patch

/-!
# Resolve

The jobs of a selection: for each selected target the checks that apply to it
with their prerequisites, then jobs that are only there to be referred to, for
the artifact targets and the source repositories of release checks. The
passes that follow change settings only.
-/

namespace HealthMonitor.Resolve

/-! ## Configuration -/

structure Profile where
  checks : Option (List Check) := none
  settings : SettingsPatch := {}

/-- A validated configuration: its targets have different names. -/
structure Config where
  settings : SettingsPatch := {}
  /-- The providers of the discovery roots. -/
  discovery : List Provider := []
  profiles : Table Profile := ∅
  checks : Check → Option SettingsPatch := fun _ => none
  severity : Table Severity := ∅
  targets : List ConfiguredTarget
  distinct : (targets.map fun target => target.name).Nodup

structure Selection where
  profile : Option String := none
  targets : List String := []
  checks : List Check := []
  resources : List String := []
  overrides : SettingsPatch := {}

structure Job where
  artifactOnly : Bool
  assessHealth : Bool
  requestedChecks : List Check
  kubeOnly : Bool
  samplingExplicit : Bool
  intervalExplicit : Bool
  target : ConfiguredTarget
  check : Check
  settings : Settings
  revision : String
  flowsEnabled : Bool
  flowSettings : Option Settings := none
  severity : Table Severity

def Job.key (job : Job) : String := job.target.toTarget.root ++ job.check.debug

/-- `format!("{:?}/{}", provider, scope)` as a value. -/
def Job.scope (job : Job) : Provider × String := (job.target.provider, job.target.scope)

structure Effective where
  revision : String
  jobs : List Job

/-! ## Checks of a target -/

/-- `Check::ALL`, in the order of the checks. -/
def allChecks : List Check :=
  [.preflight, .discovery, .inventory, .kubernetes, .edge, .managed, .queues, .releases, .github,
    .metrics, .logs, .alerts, .slo, .flows]

/-- Select meaningful checks while preserving explicit unsupported provider outcomes. -/
def applicable (target : ConfiguredTarget) (check : Check) : Bool :=
  let otherwise : Bool :=
    match target.provider with
    | .edge => false
    | .github => [.discovery, .inventory, .releases].contains check
    | .kubernetes => [.inventory, .queues, .releases, .managed].contains check
    | .nats => check == .queues
    | _ => true
  match check with
  | .slo => if target.provider = .azure then !target.sloGoals.isEmpty else otherwise
  | .flows => target.flowsRequired || !target.flows.isEmpty
  | .preflight => true
  | .kubernetes => target.context.isSome || target.provider == .kubernetes
  | .edge => !target.endpoints.isEmpty ||
      [.gcp, .aws, .azure, .kubernetes, .edge].contains target.provider
  | .github => target.provider == .github || !target.repositories.isEmpty
  | _ => otherwise

/-- A set of checks, run through in the order of the checks. -/
abbrev CheckSet := Check → Bool

def CheckSet.toList (checks : CheckSet) : List Check := allChecks.filter checks

def CheckSet.insert (checks : CheckSet) (check : Check) : CheckSet :=
  fun other => other == check || checks other

def CheckSet.remove (checks : CheckSet) (check : Check) : CheckSet :=
  fun other => other != check && checks other

/-- `checks.insert(check)` under a condition. -/
def CheckSet.insertIf (checks : CheckSet) (condition : Bool) (check : Check) : CheckSet :=
  if condition then checks.insert check else checks

@[simp] theorem CheckSet.insert_apply (checks : CheckSet) (check other : Check) :
    checks.insert check other = (other == check || checks other) := rfl

@[simp] theorem CheckSet.remove_apply (checks : CheckSet) (check other : Check) :
    checks.remove check other = (other != check && checks other) := rfl

@[simp] theorem CheckSet.insertIf_apply (checks : CheckSet) (condition : Bool)
    (check other : Check) :
    checks.insertIf condition check other = (condition && other == check || checks other) := by
  cases condition <;> rfl

def requested (profile : Profile) (selection : Selection) (target : ConfiguredTarget) :
    CheckSet :=
  let selected :=
    if selection.checks.isEmpty then profile.checks.getD allChecks else selection.checks
  fun check => selected.contains check && applicable target check

def kubeOnly (target : ConfiguredTarget) (checks : CheckSet) : Bool :=
  target.context.isSome && checks.toList.any (· != .preflight) &&
    checks.toList.all fun check => [Check.preflight, .kubernetes, .queues].contains check

/-- The checks a target gets: those requested and their prerequisites. -/
def plan (config : Config) (profile : Profile) (selection : Selection) (metadataOnly : Bool)
    (target : ConfiguredTarget) : CheckSet :=
  let checks := requested profile selection target
  let checks :=
    if target.provider != .github && !selection.checks.contains .discovery &&
        !config.discovery.contains target.provider then
      checks.remove .discovery
    else checks
  let checks := checks.insert .preflight
  let prerequisites := !metadataOnly && (checks .managed || checks .releases) &&
    target.provider != .edge
  let checks := checks.insertIf (prerequisites && applicable target .inventory) .inventory
  let checks :=
    checks.insertIf (prerequisites && target.context.isSome && checks .releases) .kubernetes
  let checks :=
    checks.insertIf (target.context.isSome && (checks .queues || checks .edge)) .kubernetes
  let flows := checks .flows && !target.flows.isEmpty
  let checks := checks.insertIf flows .metrics
  let checks := checks.insertIf (flows && target.context.isSome) .kubernetes
  checks.insertIf (flows && target.context.isSome) .queues

/-! ## Settings of a check -/

/-- Global, profile, target, global check, target check, command line. -/
def patches (config : Config) (profile : Profile) (selection : Selection)
    (target : ConfiguredTarget) (check : Check) : List SettingsPatch :=
  [config.settings, profile.settings, target.settings, (config.checks check).getD {},
    (target.checks check).getD {}, selection.overrides]

def settingsFor (config : Config) (profile : Profile) (selection : Selection)
    (target : ConfiguredTarget) (check : Check) : Settings :=
  let base : Settings :=
    { Settings.default with
      interval := intervalSeconds check
      samples := if check = .queues || check = .flows && !target.flows.isEmpty then 5 else 1 }
  (patches config profile selection target check).foldl Settings.overlay base

/-! ## Collecting jobs -/

def selects (selection : Selection) (target : ConfiguredTarget) : Bool :=
  selection.targets.isEmpty || selection.targets.contains target.name

/-- Jobs so far, and the memory their configuration takes. -/
structure Collected where
  jobs : List Job := []
  footprint : Footprint := {}

section

variable (encoding : Encoding) (config : Config) (profile : Profile) (selection : Selection)
  (metadataOnly : Bool) (revision : String)

def collectCheck (target : ConfiguredTarget) (collected : Collected) (check : Check) :
    Except String Collected := do
  let settings := settingsFor config profile selection target check
  settings.validate
  if settings.enabled then
    let footprint ← collected.footprint.add encoding target settings selection.resources
      config.severity
    let given := patches config profile selection target check
    let requestedChecks := requested profile selection target
    let resources := if selection.resources.isEmpty then target.resources else selection.resources
    let job : Job :=
      { artifactOnly := metadataOnly
        assessHealth := requestedChecks check || check == .preflight
        requestedChecks := requestedChecks.toList
        kubeOnly := kubeOnly target requestedChecks
        samplingExplicit := given.any (·.samples.isSome)
        intervalExplicit := given.any (·.interval.isSome)
        target := { target with resources }
        check
        settings
        revision
        flowsEnabled := plan config profile selection metadataOnly target .flows
        severity := config.severity }
    return { jobs := collected.jobs ++ [job], footprint }
  else return collected

def collectTarget (collected : Collected) (target : ConfiguredTarget) :
    Except String Collected :=
  (plan config profile selection metadataOnly target).toList.foldlM
    (collectCheck encoding config profile selection metadataOnly revision target) collected

def collect : Except String Collected :=
  (config.targets.filter (selects selection)).foldlM
    (collectTarget encoding config profile selection metadataOnly revision) {}

end

/-! ## Passes over the settings -/

def spanMin (a b : Span) : Span := if b.seconds < a.seconds then b else a

/-- Whether the job is a prerequisite of a check on its target. -/
def dependent (job : Job) (check : Check) : Bool :=
  job.check == .kubernetes || check == .flows && [Check.metrics, .queues].contains job.check

/-- Let one repeated check of the same target set the pace of a prerequisite. -/
def follow (job : Job) (source : Job) : Job :=
  if source.target.name = job.target.name then
    let settings :=
      if dependent job source.check && !job.samplingExplicit then
        { job.settings with
          samples := max job.settings.samples source.settings.samples
          sampleInterval := spanMin job.settings.sampleInterval source.settings.sampleInterval }
      else job.settings
    if source.check = .flows ∧ job.check = .metrics ∧ job.intervalExplicit = false then
      { job with settings :=
          { settings with interval := spanMin settings.interval source.settings.interval } }
    else { job with settings }
  else job

def sampling (jobs : List Job) : Except String (List Job) :=
  let sources := jobs.filter fun job =>
    job.check == .queues || job.check == .flows && !job.target.flows.isEmpty
  let paced := jobs.map fun job => sources.foldl follow job
  if sources.any fun source => decide (1 < source.settings.samples) &&
      decide (source.settings.freshness < source.settings.sampleInterval.seconds) then
    .error "sampling interval exceeds evidence freshness"
  else if sources.any fun source => source.check == .flows && paced.any fun job =>
      job.target.name == source.target.name && job.check == .metrics &&
        decide (source.settings.freshness < job.settings.interval.seconds) then
    .error "flow freshness must cover its metric collection interval"
  else .ok paced

/-- The tightest of the ceilings all jobs share. -/
def tighten (shared settings : Settings) : Settings :=
  { shared with
    concurrency := min shared.concurrency settings.concurrency
    subprocesses := min shared.subprocesses settings.subprocesses
    memoryBytes := min shared.memoryBytes settings.memoryBytes
    maxAssets := min shared.maxAssets settings.maxAssets
    maxFindings := min shared.maxFindings settings.maxFindings
    historyInterval := spanMin shared.historyInterval settings.historyInterval
    historyAge := spanMin shared.historyAge settings.historyAge
    historyCount := min shared.historyCount settings.historyCount
    historyBytes := min shared.historyBytes settings.historyBytes }

/-- The tightest concurrency of a scope. -/
def scopeLimit (jobs : List Job) (scope : Provider × String) : Nat :=
  match jobs.filter (·.scope = scope) with
  | [] => 1
  | job :: rest =>
      rest.foldl (fun limit job => min limit job.settings.scopeConcurrency)
        job.settings.scopeConcurrency

def normalized (shared : Settings) (limit : Nat) (settings : Settings) : Settings :=
  { settings with
    concurrency := shared.concurrency
    subprocesses := shared.subprocesses
    memoryBytes := shared.memoryBytes
    maxAssets := shared.maxAssets
    maxFindings := shared.maxFindings
    maxSeries := min settings.maxSeries shared.maxAssets
    historyInterval := shared.historyInterval
    historyAge := shared.historyAge
    historyCount := shared.historyCount
    historyBytes := shared.historyBytes
    scopeConcurrency := min limit shared.concurrency }

def normalize (encoding : Encoding) (jobs : List Job) : Except String (List Job) := do
  let _ ← jobs.foldlM (fun footprint job =>
    Footprint.add encoding footprint job.target job.settings [] job.severity) {}
  match jobs with
  | [] => return []
  | first :: _ =>
      let shared := jobs.foldl (fun shared job => tighten shared job.settings) first.settings
      let next := jobs.map fun job =>
        { job with settings := normalized shared (scopeLimit jobs job.scope) job.settings }
      if next.any (·.settings.invalid) then
        .error "selected checks exceed their shared runtime limits"
      else return next

/-- Every job learns the settings of its target's flow check. -/
def withFlows (jobs : List Job) : List Job :=
  let flows := (jobs.filter (·.check == .flows)).reverse
  jobs.map fun job =>
    let flowSettings := (flows.find? (·.target.name == job.target.name)).map (·.settings)
    { job with flowSettings, flowsEnabled := flowSettings.isSome }

/-! ## References -/

/-- The artifact targets of release checks that have no release check of their own. -/
def dependencies (jobs : List Job) : List String :=
  let names := (jobs.filter (·.check == .releases)).flatMap (·.target.artifactTargets)
  let missing := names.filter fun name =>
    !jobs.any fun job => job.target.name == name && job.check == .releases
  sortDedup missing

/-- The source repositories without a check that observes them. -/
def sources (config : Config) (jobs : List Job) : List String :=
  (config.targets.filter fun target => target.provider == .github &&
    !jobs.any fun job => job.target.name == target.name &&
      [Check.github, .releases, .inventory].contains job.check).map fun target => target.name

/-- A job that is only there to be referred to. -/
def asReference (revision : String) (job : Job) : Job :=
  { job with revision, assessHealth := false }

section

variable (encoding : Encoding) (digest : Selection → String) (config : Config)

def checkSelection (selection : Selection) : Except String Profile :=
  if 1024 < selection.resources.length || selection.resources.any (!identifier ·) then
    .error "invalid or excessive CLI resource selectors"
  else
    match config.profiles[selection.profile.getD "full"]? with
    | none => .error "unknown profile"
    | some profile =>
        if selection.targets.any fun name => !config.targets.any (·.name == name) then
          .error "unknown target"
        else .ok profile

/-- The jobs a list of names is resolved to by `nested`, as references. -/
def referenceJobs (nested : Selection → Except String Effective) (selection : Selection)
    (revision : String) (names : List String) : Except String (List Job) :=
  if names.isEmpty then .ok []
  else (nested { selection with targets := names }).map fun effective =>
    effective.jobs.map (asReference revision)

/-- `Config::resolve_inner`. References are resolved by a nested call; the fuel
bounds how deep these calls go. -/
def resolveInner : Nat → Selection → Bool → Except String Effective
  | 0, _, _ => .error "out of fuel"
  | fuel + 1, selection, metadataOnly => do
      let profile ← checkSelection config selection
      let revision := digest selection
      let collected ← collect encoding config profile selection metadataOnly revision
      let jobs ← sampling collected.jobs
      let artifacts ← referenceJobs (resolveInner fuel · true)
        { selection with checks := [.releases] } revision
        (if metadataOnly then [] else dependencies jobs)
      let jobs := jobs ++ artifacts
      let released := jobs.any fun job =>
        job.check == .releases && job.target.provider != .github
      let repositories ← referenceJobs (resolveInner fuel · false)
        { selection with checks := [.github], resources := [] } revision
        (if !metadataOnly && released then sources config jobs else [])
      let jobs ← normalize encoding (jobs ++ repositories)
      if jobs.isEmpty || 4096 < jobs.length then .error "select between 1 and 4096 checks"
      else return { revision, jobs := withFlows jobs }

/-- `Config::resolve`. A nested call makes at most one more, so three are enough. -/
def resolve (selection : Selection) : Except String Effective :=
  resolveInner encoding digest config 3 selection false

end

end HealthMonitor.Resolve
