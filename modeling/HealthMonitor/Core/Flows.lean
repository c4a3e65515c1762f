import HealthMonitor.Core.EvaluationIndex

/-!
# Flows

Aggregate pipeline progress, derived from the stored results of one target.
A stage keeps a progress record between evaluations; its state is reported as
an observation of the resource `Target.stageKey`.
-/

namespace HealthMonitor

/-- The stored results that were collected for a target. -/
def Snapshot.ofTarget (snapshot : Snapshot) (target : Target) : List CheckResult :=
  (snapshot.results.toList.map Prod.snd).filter (·.target == target.name)

namespace Flows

/-! ## Signals -/

/-- The reading a selector picked so far. -/
structure Found where
  resource : String
  value : Reading
  time : Time
  deriving DecidableEq, Repr

def selects (selector : String) (obs : Observation) : Bool :=
  obs.resource == selector || Text.endsWith obs.resource ("/" ++ selector)
    || match obs.data with
       | .metric metric => metric.name == selector
       | _ => false

/-- The level a signal reads from an observation. -/
def level : Data → Option Reading
  | .metric metric => some metric.value
  | .queue queue => some queue.backlog
  | _ => none

/-- Neither older than the freshness limit nor from the future. -/
def current (job : Job) (now time : Time) : Bool :=
  decide (numSeconds now time ≤ job.settings.freshness) && decide (time ≤ now)

/-- One observation of the search; `none` once two resources match. -/
def signalStep (job : Job) (selector : String) (now : Time) (result : CheckResult)
    (found : Option Found) (obs : Observation) : Option (Option Found) :=
  if !selects selector obs || !result.backs obs || !current job now obs.observedAt then
    some found
  else
    match (level obs.data).filter Reading.isFinite, found with
    | none, _ => some found
    | some value, none => some (some ⟨obs.resource, value, obs.observedAt⟩)
    | some value, some old =>
        if old.resource ≠ obs.resource then none
        else if old.time < obs.observedAt then
          some (some ⟨obs.resource, value, obs.observedAt⟩)
        else some found

/-- The latest current reading of the one resource a selector names. -/
def signal (snapshot : Snapshot) (job : Job) (selector : String) (now : Time) :
    Option (Reading × Time) := do
  let found ← (snapshot.ofTarget job.target).foldlM (fun found result =>
    result.observations.foldlM (signalStep job selector now result) found) none
  found.map fun f => (f.value, f.time)

def workloadKnown (snapshot : Snapshot) (job : Job) (selector : String) (now : Time) :
    Bool :=
  (snapshot.ofTarget job.target).any fun result =>
    result.observations.any fun obs =>
      Text.endsWith obs.resource ("/" ++ selector)
        && (match obs.data with
            | .workload _ => true
            | _ => false)
        && result.backs obs && current job now obs.observedAt

/-! ## Stages -/

/-- The progress record after a newer reading. -/
def advance (settings : Settings) (mode : SignalMode) (previous : Progress)
    (value : Reading) (time : Time) : Progress :=
  let moved := match mode with
    | .counter => previous.value.lt value
    | .rate => (Reading.ofNat 0).lt value
  let restarts := numSeconds time previous.lastSeen > settings.freshness
    || (value.lt previous.value && mode == .counter)
  { value
    lastSeen := time
    lastProgress := if restarts || moved then time else previous.lastProgress
    established := !restarts }

/-- What one stage leaves behind: the progress table, the state to report with
its time, and whether the stage could be followed. -/
structure Stage where
  progress : Table Progress
  state : Health
  time : Time
  complete : Bool

/-- A stage with demand and a progress reading. -/
def follow (job : Job) (flow : Flow) (stage : FlowStage) (progress : Table Progress)
    (value : Reading) (time : Time) : Stage :=
  let key := job.target.stageKey flow stage
  match progress[key]? with
  | some previous =>
      let newer := decide (previous.lastSeen < time)
      let next := if newer then advance job.settings stage.mode previous value time
        else previous
      { progress := if newer then progress.insert key next else progress
        state :=
          if !next.established then .unknown
          else if numSeconds time next.lastProgress ≥ flow.idleAfter.seconds then .unhealthy
          else .healthy
        time, complete := true }
  | none =>
      if progress.size < job.settings.maxFindings then
        { progress := progress.insert key
            { value, lastSeen := time, lastProgress := time, established := false }
          state :=
            if stage.mode == .rate && (Reading.ofNat 0).lt value then .healthy else .unknown
          time, complete := true }
      else { progress, state := .unknown, time, complete := false }

/-- A stage whose workload is not known cannot be called healthy. -/
def Stage.checkWorkload (out : Stage) (known : Bool) : Stage :=
  if known then out else { out with state := .unknown, complete := false }

def evaluateStage (snapshot : Snapshot) (job : Job) (now : Time) (flow : Flow)
    (progress : Table Progress) (stage : FlowStage) : Stage :=
  if job.target.expected ≠ .active then
    { progress, state := .expectedInactive, time := now, complete := true }
  else
    match signal snapshot job flow.demand now, signal snapshot job stage.progress now with
    | some (demand, demandAt), reading =>
        if demand.le (Reading.ofNat 0) then
          { progress := progress.erase (job.target.stageKey flow stage)
            state := .expectedInactive, time := demandAt, complete := true }
        else
          match reading with
          | some (value, at') =>
              (follow job flow stage progress value (min at' demandAt)).checkWorkload
                (stage.workload.all fun w => workloadKnown snapshot job w now)
          | none => { progress, state := .unknown, time := now, complete := false }
    | none, _ => { progress, state := .unknown, time := now, complete := false }

/-! ## Evaluation -/

def operationId (flow : Flow) : String := "flow/" ++ flow.name

/-- The observation a stage is reported with. -/
def stageObservation (job : Job) (flow : Flow) (stage : FlowStage) (out : Stage) :
    Observation :=
  { resource := job.target.stageKey flow stage
    operation := operationId flow
    observedAt := out.time
    expected := job.target.expected
    data := .progress out.state }

/-- The stages of one flow seen so far. -/
structure Walk where
  progress : Table Progress
  complete : Bool
  observations : List Observation

def stageStep (snapshot : Snapshot) (job : Job) (now : Time) (flow : Flow)
    (walk : Walk) (stage : FlowStage) : Walk :=
  let out := evaluateStage snapshot job now flow walk.progress stage
  { progress := out.progress
    complete := walk.complete && out.complete
    observations := walk.observations ++ [stageObservation job flow stage out] }

def flowOperation (flow : Flow) (complete : Bool) (now : Time) : Operation :=
  { id := operationId flow
    coverage := if complete then .complete else .missing
    observedAt := now
    records := flow.stages.length
    pages := 0, attempts := 0 }

/-- The flows seen so far: progress, operations, observations. -/
structure Sweep where
  progress : Table Progress
  operations : List Operation
  observations : List Observation

def flowStep (snapshot : Snapshot) (job : Job) (now : Time) (sweep : Sweep)
    (flow : Flow) : Sweep :=
  let walk := flow.stages.foldl (stageStep snapshot job now flow)
    { progress := sweep.progress, complete := true, observations := [] }
  { progress := walk.progress
    operations := sweep.operations ++ [flowOperation flow walk.complete now]
    observations := sweep.observations ++ walk.observations }

/-- Evaluate every flow of the target against the stored results. `clock` is
the wall clock, which only stamps the result. -/
def evaluate (snapshot : Snapshot) (job : Job) (now clock : Time) :
    Snapshot × CheckResult :=
  let failure := CheckResult.failure job.target.name .flows job.revision .missing clock
  if job.target.flows.isEmpty then
    (snapshot, { failure with
      operations := failure.operations.map ({ · with id := "flow-configuration" }) })
  else
    let sweep := job.target.flows.foldl (flowStep snapshot job now)
      { progress := snapshot.progress, operations := [], observations := [] }
    ({ snapshot with progress := sweep.progress },
      { failure with
        finishedAt := now
        operations := sweep.operations
        observations := sweep.observations })

/-! ## What an evaluation can do -/

section Frame

variable {snapshot : Snapshot} {job : Job} {now clock : Time} {flow : Flow}
  {stage : FlowStage} {progress : Table Progress}

theorem follow_frame {value : Reading} {time : Time} {k : String}
    (hk : k ≠ job.target.stageKey flow stage) :
    (follow job flow stage progress value time).progress[k]? = progress[k]? := by
  unfold follow
  dsimp only
  split
  · dsimp only
    split
    · exact Table.getElem?_insert_ne hk
    · rfl
  · split
    · exact Table.getElem?_insert_ne hk
    · rfl

theorem follow_size {value : Reading} {time : Time}
    (h : progress.size ≤ job.settings.maxFindings) :
    (follow job flow stage progress value time).progress.size
      ≤ job.settings.maxFindings := by
  unfold follow
  dsimp only
  split
  · rename_i previous hp
    dsimp only
    split
    · rw [Table.size_insert_of_mem (Table.mem_iff_getElem?.mpr ⟨previous, hp⟩)]
      exact h
    · exact h
  · split
    · rename_i hlt
      exact (Table.size_insert_le ..).trans hlt
    · exact h

@[simp] theorem checkWorkload_progress (out : Stage) (known : Bool) :
    (out.checkWorkload known).progress = out.progress := by
  unfold Stage.checkWorkload
  split <;> rfl

/-- A stage touches no progress record but its own. -/
theorem evaluateStage_frame {k : String} (hk : k ≠ job.target.stageKey flow stage) :
    (evaluateStage snapshot job now flow progress stage).progress[k]? = progress[k]? := by
  unfold evaluateStage
  split
  · rfl
  · split
    · split
      · exact Table.getElem?_erase_ne hk
      · split
        · rw [checkWorkload_progress]
          exact follow_frame hk
        · rfl
    · rfl

theorem evaluateStage_size (h : progress.size ≤ job.settings.maxFindings) :
    (evaluateStage snapshot job now flow progress stage).progress.size
      ≤ job.settings.maxFindings := by
  unfold evaluateStage
  split
  · exact h
  · split
    · split
      · exact (Table.size_erase_le ..).trans h
      · split
        · rw [checkWorkload_progress]
          exact follow_size h
        · exact h
    · exact h

/-- `k` is the progress key of some stage of the job's target. -/
def IsStageKey (job : Job) (k : String) : Prop :=
  ∃ flow ∈ job.target.flows, ∃ stage ∈ flow.stages, k = job.target.stageKey flow stage

/-- What the walk over the stages of one flow keeps, from a starting table. -/
structure WalkInv (job : Job) (flow : Flow) (before : Table Progress) (walk : Walk) :
    Prop where
  frame : ∀ k, (∀ stage ∈ flow.stages, k ≠ job.target.stageKey flow stage) →
    walk.progress[k]? = before[k]?
  size : before.size ≤ job.settings.maxFindings →
    walk.progress.size ≤ job.settings.maxFindings
  resources : ∀ obs ∈ walk.observations, obs.operation = operationId flow
    ∧ ∃ stage ∈ flow.stages, obs.resource = job.target.stageKey flow stage

theorem walk_inv (snapshot : Snapshot) (job : Job) (now : Time) (flow : Flow)
    (before : Table Progress) :
    WalkInv job flow before (flow.stages.foldl (stageStep snapshot job now flow)
      { progress := before, complete := true, observations := [] }) := by
  refine List.foldlRecOn flow.stages _ ⟨fun _ _ => rfl, id, by simp⟩ ?_
  intro walk ih stage hstage
  refine ⟨fun k hk => ?_, fun h => evaluateStage_size (ih.size h), fun obs hobs => ?_⟩
  · exact (evaluateStage_frame (hk stage hstage)).trans (ih.frame k hk)
  · rcases List.mem_append.mp hobs with hobs | hobs
    · exact ih.resources obs hobs
    · rw [List.mem_singleton.mp hobs]
      exact ⟨rfl, stage, hstage, rfl⟩

/-- What the sweep over the flows keeps. -/
structure SweepInv (job : Job) (before : Table Progress) (sweep : Sweep) : Prop where
  frame : ∀ k, ¬ IsStageKey job k → sweep.progress[k]? = before[k]?
  size : before.size ≤ job.settings.maxFindings →
    sweep.progress.size ≤ job.settings.maxFindings
  resources : ∀ obs ∈ sweep.observations, ∃ flow ∈ job.target.flows,
    obs.operation = operationId flow
      ∧ ∃ stage ∈ flow.stages, obs.resource = job.target.stageKey flow stage

theorem sweep_inv (snapshot : Snapshot) (job : Job) (now : Time) :
    SweepInv job snapshot.progress (job.target.flows.foldl (flowStep snapshot job now)
      { progress := snapshot.progress, operations := [], observations := [] }) := by
  refine List.foldlRecOn job.target.flows _ ⟨fun _ _ => rfl, id, by simp⟩ ?_
  intro sweep ih flow hflow
  have hwalk := walk_inv snapshot job now flow sweep.progress
  refine ⟨fun k hk => ?_, fun h => hwalk.size (ih.size h), fun obs hobs => ?_⟩
  · exact (hwalk.frame k fun stage hs he => hk ⟨flow, hflow, stage, hs, he⟩).trans
      (ih.frame k hk)
  · rcases List.mem_append.mp hobs with hobs | hobs
    · exact ih.resources obs hobs
    · exact ⟨flow, hflow, hwalk.resources obs hobs⟩

/-- An evaluation changes nothing of the snapshot but the progress table. -/
theorem evaluate_snapshot (snapshot : Snapshot) (job : Job) (now clock : Time) :
    ∃ progress, (evaluate snapshot job now clock).1 = { snapshot with progress }
      ∧ (∀ k, ¬ IsStageKey job k → progress[k]? = snapshot.progress[k]?)
      ∧ (snapshot.progress.size ≤ job.settings.maxFindings →
          progress.size ≤ job.settings.maxFindings) := by
  unfold evaluate
  dsimp only
  split
  · exact ⟨snapshot.progress, rfl, fun _ _ => rfl, id⟩
  · have h := sweep_inv snapshot job now
    exact ⟨_, rfl, h.frame, h.size⟩

/-- Every observation of an evaluation reports a stage of the job's target,
under the operation of its flow. -/
theorem evaluate_resources :
    ∀ obs ∈ (evaluate snapshot job now clock).2.observations,
      ∃ flow ∈ job.target.flows, obs.operation = operationId flow
        ∧ ∃ stage ∈ flow.stages, obs.resource = job.target.stageKey flow stage := by
  unfold evaluate
  dsimp only
  split
  · intro obs hobs
    simp [CheckResult.failure] at hobs
  · exact (sweep_inv snapshot job now).resources

end Frame

theorem stageKey_root (target : Target) (flow : Flow) (stage : FlowStage) :
    Text.startsWith (target.stageKey flow stage) target.root = true :=
  Text.startsWith_iff.mpr ⟨"flows/" ++ flow.name ++ "/" ++ stage.name, by
    simp only [Target.stageKey, String.append_assoc]⟩

end Flows

end HealthMonitor
