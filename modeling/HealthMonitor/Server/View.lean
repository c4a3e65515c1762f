import HealthMonitor.Core.Silence
import HealthMonitor.Core.StateLifecycle

/-!
# View

The read models of the dashboard, built from a snapshot and the configuration in effect: its
targets, one row for each check, the active findings, and one catalog entry for each
resource with the evidence of every check that reports it. What an observation says in words
is a parameter, `facts`.
-/

namespace HealthMonitor.Server

/-! ## Read models -/

namespace View

structure Fact where
  label : String
  value : String
  deriving DecidableEq, Repr

structure Evidence where
  id : String
  check : Check
  operation : String
  observedAt : Time
  expiresAt : Time
  context : Option ResourceContext
  facts : List Fact
  deriving DecidableEq, Repr

structure DiagnosticView where
  firstDetectedAt : Option Time
  lastDetectedAt : Time
  context : Option ResourceContext
  facts : List Fact
  deriving DecidableEq, Repr

structure Resource where
  checks : List Check
  context : Option ResourceContext
  evidence : List Evidence
  id : String
  target : String
  check : Check
  health : Health
  expected : Expected
  observedAt : Time
  expiresAt : Time
  facts : List Fact
  deriving DecidableEq, Repr

structure Target where
  name : String
  provider : Provider
  scope : String
  regions : List String
  deriving DecidableEq, Repr

structure FindingView where
  check : Option Check
  diagnostic : Option DiagnosticView
  id : String
  target : String
  resource : String
  rule : String
  severity : Severity
  observedAt : Time
  validUntil : Option Time
  expected : Expected
  confidence : Confidence
  stale : Bool
  evidence : List String
  deriving DecidableEq, Repr

structure Failure where
  operation : String
  coverage : Coverage
  required : Bool
  deriving DecidableEq, Repr

structure CheckView where
  required : Bool
  startedAt : Option Time
  requiredFailures : Nat
  optionalGaps : Nat
  prerequisite : Bool
  operations : List Operation
  key : String
  target : String
  check : Check
  intervalSeconds : Nat
  finishedAt : Option Time
  expiresAt : Option Time
  complete : Bool
  observations : Nat
  failures : List Failure
  deriving DecidableEq, Repr

structure ResultStamp where
  revision : String
  startedAt : Time
  finishedAt : Time
  deriving DecidableEq, Repr

def ResultStamp.of (result : CheckResult) : ResultStamp where
  revision := result.revision
  startedAt := result.startedAt
  finishedAt := result.finishedAt

def ResultStamp.matches (stamp : ResultStamp) (result : CheckResult) : Bool :=
  stamp == .of result

end View

structure View where
  generation : Nat
  revision : String
  capturedAt : Time
  targets : List View.Target
  checks : List View.CheckView
  resources : List View.Resource
  findings : List View.FindingView
  resultStamps : Table View.ResultStamp
  persistenceFault : Bool
  droppedTransitions : Nat

namespace View

/-- A job of the configuration in effect, with the checks its target was asked for. -/
structure EffectiveJob extends Job where
  requestedChecks : List Check := []

structure Effective where
  revision : String
  jobs : List EffectiveJob

/-! ## Targets -/

/-- The targets of the jobs, each as its first job states it. -/
def targetsOf (jobs : List EffectiveJob) : Table Target :=
  jobs.foldl (fun table job =>
    if table.contains job.target.name then table
    else
      table.insert job.target.name
        { name := job.target.name
          provider := job.target.provider
          scope := job.target.scope
          regions := job.target.regions }) ∅

/-- `strip_prefix` of the name leaves a suffix that starts with `/`. -/
def Target.owns (t : Target) (resource : String) : Bool :=
  Text.startsWith resource (t.name ++ "/")

/-- `max_by_key` keeps the last of the longest names. -/
def Target.longer (best : Option Target) (t : Target) : Option Target :=
  match best with
  | none => some t
  | some other =>
      if other.name.utf8ByteSize ≤ t.name.utf8ByteSize then some t else some other

def target (resource : String) (targets : List Target) : String :=
  match (targets.filter (·.owns resource)).foldl Target.longer none with
  | some t => t.name
  | none => "unknown"

/-! ## Evidence -/

/-- Relations between resources, which are no evidence about one. -/
def relates : Data → Bool
  | .owner .. => true
  | .scaler .. => true
  | _ => false

/-- The debug form of `mem::discriminant`. -/
def discriminant (data : Data) : String :=
  "Discriminant(" ++ toString data.ctorIdx ++ ")"

def component : Data → String
  | .pod pod => pod.uid ++ "/" ++ pod.container
  | _ => ""

section

variable (facts : Data → List Fact)

def Evidence.new (obs : Observation) (check : Check) (expiresAt : Time) : Evidence where
  id := check.debug ++ "/" ++ obs.operation ++ "/" ++ discriminant obs.data ++ "/"
    ++ component obs.data
  check := check
  operation := obs.operation
  observedAt := obs.observedAt
  expiresAt := expiresAt
  context := obs.context
  facts := facts obs.data

def DiagnosticView.from (value : Diagnostic) : DiagnosticView where
  firstDetectedAt := value.firstDetectedAt
  lastDetectedAt := value.lastDetectedAt
  context := value.observation.context
  facts :=
    facts value.observation.data
      ++ (value.previousRestarts.map fun prior =>
          { label := "Previous restart count (same container UID)"
            value := toString prior : Fact }).toList
      ++ match value.observation.data with
        | .pod _ | .workload _ =>
            [{ label := "Startup grace", value := toString value.graceSeconds ++ " seconds" }]
        | _ => []

/-- Put evidence in the place of older evidence with its id. -/
def renew (evidence : Evidence) : List Evidence → List Evidence
  | [] => [evidence]
  | old :: rest =>
      if old.id = evidence.id then
        (if old.observedAt < evidence.observedAt then evidence else old) :: rest
      else old :: renew evidence rest

/-- Keep separate check and component observations, even if a different source is newer. -/
def attach (resource : Resource) (evidence : Evidence) : Resource :=
  { resource with
    checks :=
      if resource.checks.contains evidence.check then resource.checks
      else resource.checks ++ [evidence.check]
    context := resource.context.or evidence.context
    evidence := renew evidence resource.evidence }

/-! ## Resources -/

def expiryOf (obs : Observation) (freshness : Nat) : Time :=
  let expiresAt := obs.observedAt + freshness * nanosPerSecond
  match obs.data with
  | .provenance p => min expiresAt p.validUntil
  | _ => expiresAt

/-- How long the results of a job stay current. -/
def freshnessOf (snapshot : Snapshot) (job : EffectiveJob) : Nat :=
  (snapshot.freshness[job.key]?).getD job.settings.freshness

/-- The catalog entry of a resource, made from the first observation of it. -/
def Resource.new (snapshot : Snapshot) (job : EffectiveJob) (obs : Observation)
    (evidence : Evidence) : Resource where
  id := obs.resource
  target := job.target.name
  check := job.check
  checks := []
  context := obs.context
  evidence := []
  health := (snapshot.health[obs.resource]?).getD .unknown
  expected := obs.expected
  observedAt := obs.observedAt
  expiresAt := evidence.expiresAt
  facts := evidence.facts

/-- The newest observation says what the resource is. -/
def Resource.observe (resource : Resource) (job : EffectiveJob) (obs : Observation)
    (evidence : Evidence) : Resource :=
  if resource.observedAt < obs.observedAt then
    { resource with
      observedAt := obs.observedAt
      expiresAt := evidence.expiresAt
      facts := evidence.facts
      check := job.check
      context := obs.context.or resource.context }
  else resource

def addObservation (snapshot : Snapshot) (job : EffectiveJob) (resources : Table Resource)
    (obs : Observation) : Table Resource :=
  if relates obs.data then resources
  else
    let evidence := Evidence.new facts obs job.check (expiryOf obs (freshnessOf snapshot job))
    let resource := (resources[obs.resource]?).getD (.new snapshot job obs evidence)
    resources.insert obs.resource (attach (resource.observe job obs evidence) evidence)

/-- The observations that are stored for a job. -/
def stored (snapshot : Snapshot) (job : EffectiveJob) : List Observation :=
  (snapshot.results[job.key]?).toList.flatMap (·.observations)

def addJob (snapshot : Snapshot) (resources : Table Resource) (job : EffectiveJob) :
    Table Resource :=
  (stored snapshot job).foldl (addObservation facts snapshot job) resources

/-- The catalog entry of a resource that is not reported any more. -/
def Resource.ofFinding (finding : Finding) (diagnostic : Diagnostic) (job : EffectiveJob) :
    Resource :=
  let obs := diagnostic.observation
  let expiresAt := obs.observedAt + job.settings.freshness * nanosPerSecond
  let evidence := Evidence.new facts obs job.check expiresAt
  { id := finding.resource
    target := job.target.name
    check := job.check
    checks := [job.check]
    context := obs.context
    evidence := [evidence]
    health := .unknown
    expected := finding.expected
    observedAt := obs.observedAt
    expiresAt
    facts := evidence.facts }

/-- A failed inventory may no longer contain a resource whose finding is still active. -/
def addFinding (jobs : List EffectiveJob) (resources : Table Resource) (finding : Finding) :
    Table Resource :=
  match finding.diagnostic with
  | none => resources
  | some diagnostic =>
      match jobs.find? fun job =>
        finding.check == some job.check && Text.startsWith finding.resource job.target.root with
      | none => resources
      | some job =>
          if resources.contains finding.resource then resources
          else resources.insert finding.resource (.ofFinding facts finding diagnostic job)

def Check.le (a b : Check) : Bool := a.ctorIdx ≤ b.ctorIdx

def Resource.sorted (resource : Resource) : Resource :=
  { resource with checks := resource.checks.mergeSort Check.le }

/-- The catalog, by resource. -/
def catalog (snapshot : Snapshot) (jobs : List EffectiveJob) : Table Resource :=
  let reported := jobs.foldl (addJob facts snapshot) ∅
  (snapshot.findings.toList.map Prod.snd).foldl (addFinding facts jobs) reported

def buildResources (snapshot : Snapshot) (effective : Effective) : List Resource :=
  (catalog facts snapshot effective.jobs).toList.map fun entry => entry.2.sorted

/-! ## The view -/

def FindingView.of (targets : List Target) (finding : Finding) : FindingView where
  check := finding.check
  diagnostic := finding.diagnostic.map (DiagnosticView.from facts)
  id := finding.id
  target := View.target finding.resource targets
  resource := finding.resource
  rule := finding.rule
  severity := finding.severity
  observedAt := finding.observedAt
  validUntil := finding.validUntil
  expected := finding.expected
  confidence := finding.confidence
  stale := finding.stale
  evidence := finding.evidence

/-- The finding an event is made from after it has left the snapshot. -/
def FindingView.source (f : FindingView) : Finding where
  diagnostic := none
  check := none
  id := f.id
  resource := f.resource
  rule := f.rule
  severity := f.severity
  evidence := f.evidence
  observedAt := f.observedAt
  expected := f.expected
  confidence := f.confidence
  stale := f.stale
  clearCount := 0
  validUntil := f.validUntil

def failuresOf (result : CheckResult) : List Failure :=
  (result.operations.filter (·.coverage != .complete)).map fun operation =>
    { operation := operation.id, coverage := operation.coverage, required := operation.required }

def CheckView.of (snapshot : Snapshot) (job : EffectiveJob) : CheckView :=
  let result := snapshot.results[job.key]?
  let failures := result.toList.flatMap failuresOf
  { required := job.settings.required
    startedAt := result.map (·.startedAt)
    requiredFailures := failures.countP (·.required)
    optionalGaps := failures.countP (!·.required)
    prerequisite := !job.requestedChecks.contains job.check
    operations := result.toList.flatMap (·.operations)
    key := job.key
    target := job.target.name
    check := job.check
    intervalSeconds := job.settings.interval.seconds
    finishedAt := result.map (·.finishedAt)
    expiresAt := result.map fun result =>
      result.finishedAt + freshnessOf snapshot job * nanosPerSecond
    complete := result.any (·.complete)
    observations := (result.toList.flatMap (·.observations)).length
    failures := failures.take 3 }

/-- The stamps of the stored results. -/
def stampsOf (snapshot : Snapshot) (jobs : List EffectiveJob) : Table ResultStamp :=
  jobs.foldl (fun stamps job =>
    match snapshot.results[job.key]? with
    | none => stamps
    | some result => stamps.insert job.key (.of result)) ∅

/-- `build_view::build`. -/
def build (snapshot : Snapshot) (effective : Effective) (generation : Nat) : View :=
  let targets := (targetsOf effective.jobs).toList.map Prod.snd
  { generation
    revision := snapshot.revision
    capturedAt := snapshot.capturedAt
    targets
    checks := effective.jobs.map (CheckView.of snapshot)
    resources := buildResources facts snapshot effective
    findings := snapshot.findings.toList.map fun entry => .of facts targets entry.2
    resultStamps := stampsOf snapshot effective.jobs
    persistenceFault := snapshot.persistenceFault
    droppedTransitions := snapshot.droppedTransitions }

end

/-- The health a reader is shown. -/
def currentHealth (health : Health) (expires now : Time) : Health :=
  if expires < now then .unknown else health

/-! ## What fades

The view of a snapshot that expiry was silent about shows the same rows. Only the coverage
and the health they show can be less. -/

/-- A row and the same row later. -/
structure CheckView.Fades (before after : CheckView) : Prop where
  same : { after with
    requiredFailures := before.requiredFailures
    optionalGaps := before.optionalGaps
    operations := before.operations
    complete := before.complete
    failures := before.failures } = before
  complete : after.complete = true → before.complete = true

/-- An entry and the same entry later. -/
structure Resource.Fades (before after : Resource) : Prop where
  same : after = { before with health := after.health }
  health : after.health = before.health ∨ after.health = .unknown

/-- A view and the view of the same snapshot later. -/
structure Fades (before after : View) : Prop where
  revision : after.revision = before.revision
  capturedAt : after.capturedAt = before.capturedAt
  targets : after.targets = before.targets
  findings : after.findings = before.findings
  checks : List.Forall₂ CheckView.Fades before.checks after.checks
  resources : List.Forall₂ Resource.Fades before.resources after.resources

section Fading

variable {before after : Snapshot}

theorem Resource.Fades.refl (resource : Resource) : Resource.Fades resource resource :=
  ⟨rfl, .inl rfl⟩

theorem Resource.observe_health (resource : Resource) (health : Health) (job : EffectiveJob)
    (obs : Observation) (evidence : Evidence) :
    { resource with health }.observe job obs evidence
      = { resource.observe job obs evidence with health } := by
  unfold observe
  split <;> rfl

theorem Resource.Fades.attach {old new : Resource} (h : old.Fades new) (job : EffectiveJob)
    (obs : Observation) (evidence : Evidence) :
    (View.attach (old.observe job obs evidence) evidence).Fades
      (View.attach (new.observe job obs evidence) evidence) := by
  have hhealth : ∀ resource : Resource,
      (View.attach (resource.observe job obs evidence) evidence).health = resource.health := by
    intro resource
    unfold View.attach observe
    split <;> rfl
  constructor
  · rw [hhealth, h.same, observe_health]
    rfl
  · rw [hhealth, hhealth]
    exact h.health

theorem stored_behind (h : Behind before after) (job : EffectiveJob) :
    stored after job = stored before job := by
  have hobs := h.observations job.key
  unfold stored
  cases hbefore : before.results[job.key]? <;> cases hafter : after.results[job.key]? <;>
    simp_all

theorem freshnessOf_behind (h : Behind before after) (job : EffectiveJob) :
    freshnessOf after job = freshnessOf before job := by
  rw [freshnessOf, h.freshness, freshnessOf]

/-- Two catalogs, entry by entry. -/
def Faded (old new : Table Resource) : Prop :=
  ∀ k : String, Option.Rel Resource.Fades old[k]? new[k]?

theorem Faded.insert {old new : Table Resource} (h : Faded old new) (k : String)
    {resource resource' : Resource} (hresource : resource.Fades resource') :
    Faded (old.insert k resource) (new.insert k resource') := by
  intro j
  rw [Std.ExtTreeMap.getElem?_insert, Std.ExtTreeMap.getElem?_insert]
  split
  · exact .some hresource
  · exact h j

variable {facts : Data → List Fact} {old new : Table Resource}

theorem Resource.new_behind (h : Behind before after) (job : EffectiveJob) (obs : Observation)
    (evidence : Evidence) :
    (Resource.new before job obs evidence).Fades (.new after job obs evidence) := by
  refine ⟨rfl, ?_⟩
  show (after.health[obs.resource]?).getD .unknown = (before.health[obs.resource]?).getD .unknown
    ∨ (after.health[obs.resource]?).getD .unknown = .unknown
  rcases h.health obs.resource with heq | ⟨-, hunknown⟩
  · exact .inl (by rw [heq])
  · exact .inr (by rw [hunknown]; rfl)

theorem Faded.addObservation (hfaded : Faded old new) (h : Behind before after)
    (job : EffectiveJob) (obs : Observation) :
    Faded (View.addObservation facts before job old obs)
      (View.addObservation facts after job new obs) := by
  unfold View.addObservation
  split
  · exact hfaded
  · rw [freshnessOf_behind h]
    apply hfaded.insert
    apply Resource.Fades.attach
    have hentry := hfaded obs.resource
    revert hentry
    generalize old[obs.resource]? = entry
    generalize new[obs.resource]? = entry'
    intro hentry
    cases hentry with
    | none => exact Resource.new_behind h job obs _
    | some hresource => exact hresource

theorem Faded.addJob (hfaded : Faded old new) (h : Behind before after) (job : EffectiveJob) :
    Faded (View.addJob facts before old job) (View.addJob facts after new job) := by
  unfold View.addJob
  rw [stored_behind h]
  induction stored before job generalizing old new with
  | nil => exact hfaded
  | cons obs rest ih => exact ih (hfaded.addObservation h job obs)

theorem Faded.addFinding (hfaded : Faded old new) (jobs : List EffectiveJob)
    (finding : Finding) :
    Faded (View.addFinding facts jobs old finding) (View.addFinding facts jobs new finding) := by
  have hcontains : new.contains finding.resource = old.contains finding.resource := by
    have hentry := hfaded finding.resource
    rw [Std.ExtTreeMap.contains_eq_isSome_getElem?, Std.ExtTreeMap.contains_eq_isSome_getElem?]
    revert hentry
    generalize old[finding.resource]? = entry
    generalize new[finding.resource]? = entry'
    intro hentry
    cases hentry <;> rfl
  unfold View.addFinding
  rw [hcontains]
  split
  · exact hfaded
  · split
    · exact hfaded
    · split
      · exact hfaded
      · exact hfaded.insert _ (.refl _)

theorem catalog_behind (h : Behind before after) (jobs : List EffectiveJob) :
    Faded (catalog facts before jobs) (catalog facts after jobs) := by
  have hreported : ∀ old new : Table Resource, Faded old new →
      Faded (jobs.foldl (addJob facts before) old) (jobs.foldl (addJob facts after) new) := by
    induction jobs with
    | nil => exact fun old new hfaded => hfaded
    | cons job rest ih => exact fun old new hfaded => ih _ _ (hfaded.addJob h job)
  unfold catalog
  rw [h.findings]
  have hstart := hreported ∅ ∅ fun k => by simp
  revert hstart
  dsimp only
  generalize jobs.foldl (addJob facts before) ∅ = old
  generalize jobs.foldl (addJob facts after) ∅ = new
  intro hfaded
  induction before.findings.toList.map Prod.snd generalizing old new with
  | nil => exact hfaded
  | cons finding rest ih => exact ih _ _ (hfaded.addFinding jobs finding)

theorem buildResources_behind (h : Behind before after) (effective : Effective) :
    List.Forall₂ Resource.Fades (buildResources facts before effective)
      (buildResources facts after effective) := by
  have hentries := Table.forall₂_toList (R := fun _ => Resource.Fades) (p := fun _ => true)
    fun k _ => @catalog_behind before after facts h effective.jobs k
  simp only [List.filter_true] at hentries
  unfold buildResources
  rw [List.forall₂_map_left_iff, List.forall₂_map_right_iff]
  refine hentries.imp fun entry entry' hentry => ?_
  obtain ⟨-, hfades⟩ := hentry
  refine ⟨?_, hfades.health⟩
  rw [hfades.same]
  rfl

theorem CheckView.of_behind (h : Behind before after) (job : EffectiveJob) :
    (CheckView.of before job).Fades (.of after job) := by
  have hrel := h.results job.key
  have hfreshness := freshnessOf_behind h job
  unfold CheckView.of
  rw [hfreshness]
  revert hrel
  generalize before.results[job.key]? = old
  generalize after.results[job.key]? = new
  intro hrel
  cases hrel with
  | none => exact ⟨rfl, fun h => h⟩
  | some hdimmed =>
      refine ⟨?_, fun hcomplete => hdimmed.complete hcomplete⟩
      obtain ⟨p, rfl⟩ := hdimmed
      rfl

/-- The view of a snapshot shows what the view of the same snapshot shows after expiries
that caused no transition, and it may show more coverage and health. -/
theorem build_behind (h : Behind before after) (effective : Effective)
    (generation generation' : Nat) :
    (build facts before effective generation).Fades
      (build facts after effective generation') where
  revision := h.revision
  capturedAt := h.capturedAt
  targets := rfl
  findings := by
    show after.findings.toList.map _ = before.findings.toList.map _
    rw [h.findings]
  checks := by
    show List.Forall₂ _ (effective.jobs.map _) (effective.jobs.map _)
    rw [List.forall₂_map_left_iff, List.forall₂_map_right_iff, List.forall₂_same]
    exact fun job _ => CheckView.of_behind h job
  resources := buildResources_behind h effective

end Fading

end View

end HealthMonitor.Server
