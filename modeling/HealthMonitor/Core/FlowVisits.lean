import HealthMonitor.Core.Flows
import HealthMonitor.Library.Process
import Mathlib.Algebra.Order.Ring.Unbundled.Rat

/-!
# Flow visits

An evaluation of flows visits the stages of the target one after the other, with
the progress table as its state. What a visit does depends on the table, and on
what the stored results say about the stage: its demand, a reading of its
progress, and whether its workload is known.
-/

namespace HealthMonitor.Flows

/-- A stage of a flow. -/
abbrev Place := Flow × FlowStage

/-- The stages of the target, in the order they are visited. -/
def places (target : Target) : List Place :=
  target.flows.flatMap fun flow => flow.stages.map (flow, ·)

def key (target : Target) (place : Place) : String :=
  target.stageKey place.1 place.2

/-- The visits of one evaluation; each hands on what it reports. -/
def visiting (snapshot : Snapshot) (job : Job) (now : Time) :
    Process (Table Progress) Place (Place × Stage) where
  step progress place :=
    ((evaluateStage snapshot job now place.1 progress place.2).progress,
      [(place, evaluateStage snapshot job now place.1 progress place.2)])

/-- The observation of a visit. -/
def reported (job : Job) (visit : Place × Stage) : Observation :=
  stageObservation job visit.1.1 visit.1.2 visit.2

section Run

variable (snapshot : Snapshot) (job : Job) (now : Time)

theorem walk_run (flow : Flow) (stages : List FlowStage) (walk : Walk) :
    stages.foldl (stageStep snapshot job now flow) walk
      = let out := (visiting snapshot job now).run walk.progress (stages.map (flow, ·))
        { progress := out.1
          complete := walk.complete && out.2.all (·.2.complete)
          observations := walk.observations ++ out.2.map (reported job) } := by
  induction stages generalizing walk with
  | nil => simp
  | cons stage stages ih =>
      rw [List.foldl_cons, ih, List.map_cons, Process.run_cons]
      simp [stageStep, visiting, reported, Bool.and_assoc]

/-- The visits to one flow, from a table. -/
def walkRun (progress : Table Progress) (flow : Flow) :
    Table Progress × List (Place × Stage) :=
  (visiting snapshot job now).run progress (flow.stages.map (flow, ·))

theorem flowStep_eq (sweep : Sweep) (flow : Flow) :
    flowStep snapshot job now sweep flow
      = { progress := (walkRun snapshot job now sweep.progress flow).1
          operations := sweep.operations
            ++ [flowOperation flow
                ((walkRun snapshot job now sweep.progress flow).2.all (·.2.complete)) now]
          observations := sweep.observations
            ++ (walkRun snapshot job now sweep.progress flow).2.map (reported job) } := by
  rw [flowStep, walk_run]
  simp [walkRun]

theorem sweep_run (flows : List Flow) (sweep : Sweep) :
    (flows.foldl (flowStep snapshot job now) sweep).progress
        = ((visiting snapshot job now).run sweep.progress
            (flows.flatMap fun flow => flow.stages.map (flow, ·))).1
      ∧ (flows.foldl (flowStep snapshot job now) sweep).observations
        = sweep.observations ++ ((visiting snapshot job now).run sweep.progress
            (flows.flatMap fun flow => flow.stages.map (flow, ·))).2.map (reported job) := by
  induction flows generalizing sweep with
  | nil => simp
  | cons flow flows ih =>
      rw [List.foldl_cons, flowStep_eq, List.flatMap_cons, Process.run_append]
      obtain ⟨hprogress, hobservations⟩ := ih
        { progress := (walkRun snapshot job now sweep.progress flow).1
          operations := sweep.operations
            ++ [flowOperation flow
                ((walkRun snapshot job now sweep.progress flow).2.all (·.2.complete)) now]
          observations := sweep.observations
            ++ (walkRun snapshot job now sweep.progress flow).2.map (reported job) }
      refine ⟨hprogress, hobservations.trans ?_⟩
      rw [List.map_append, ← List.append_assoc]
      rfl

variable {snapshot job now}

/-- The progress table an evaluation leaves is the one its visits leave. -/
theorem evaluate_progress (clock : Time) :
    (evaluate snapshot job now clock).1
      = { snapshot with
          progress := ((visiting snapshot job now).run snapshot.progress
            (places job.target)).1 } := by
  unfold evaluate
  dsimp only
  split
  · rename_i hnone
    rw [places, List.isEmpty_iff.mp hnone]
    rfl
  · rw [(sweep_run snapshot job now job.target.flows _).1]
    rfl

theorem evaluate_observations (clock : Time) :
    (evaluate snapshot job now clock).2.observations
      = ((visiting snapshot job now).run snapshot.progress
          (places job.target)).2.map (reported job) := by
  unfold evaluate
  dsimp only
  split
  · rename_i hnone
    simp [places, List.isEmpty_iff.mp hnone, CheckResult.failure]
  · rw [(sweep_run snapshot job now job.target.flows _).2, List.nil_append]
    rfl

end Run

/-- The visits do not look at the progress table of the snapshot. -/
theorem visiting_results {snapshot : Snapshot} {job : Job} {now : Time}
    (progress : Table Progress) :
    visiting { snapshot with progress } job now = visiting snapshot job now := rfl

/-- Every place is visited once, in order. -/
theorem visiting_places {snapshot : Snapshot} {job : Job} {now : Time}
    (progress : Table Progress) (ps : List Place) :
    ((visiting snapshot job now).run progress ps).2.map Prod.fst = ps := by
  induction ps generalizing progress with
  | nil => rfl
  | cons place ps ih =>
      rw [Process.run_cons, List.map_append, ih]
      rfl

/-! ## What the stored results say about a stage -/

/-- A reading of the progress of a stage, with the demand it met. Its time is the
earlier of the two. -/
structure Joint where
  demand : Reading
  value : Reading
  time : Time
  deriving DecidableEq, Repr

/-- What a visit goes by. -/
inductive Sign where
  | idle (time : Time)
  | joint (sample : Joint)
  | missing
  deriving DecidableEq, Repr

def sign (snapshot : Snapshot) (job : Job) (now : Time) (place : Place) : Sign :=
  match signal snapshot job place.1.demand now, signal snapshot job place.2.progress now with
  | some (demand, demandAt), reading =>
      if demand.le (Reading.ofNat 0) then .idle demandAt
      else
        match reading with
        | some (value, at') => .joint { demand, value, time := min at' demandAt }
        | none => .missing
  | none, _ => .missing

def known (snapshot : Snapshot) (job : Job) (now : Time) (place : Place) : Bool :=
  place.2.workload.all fun w => workloadKnown snapshot job w now

/-- A visit to a stage of an active target, by its sign. -/
theorem evaluateStage_sign {snapshot : Snapshot} {job : Job} {now : Time} {place : Place}
    {progress : Table Progress} (hactive : job.target.expected = .active) :
    evaluateStage snapshot job now place.1 progress place.2
      = match sign snapshot job now place with
        | .idle time =>
            { progress := progress.erase (key job.target place)
              state := .expectedInactive, time, complete := true }
        | .joint sample =>
            (follow job place.1 place.2 progress sample.value sample.time).checkWorkload
              (known snapshot job now place)
        | .missing => { progress, state := .unknown, time := now, complete := false } := by
  unfold evaluateStage sign
  rw [if_neg (not_not.mpr hactive)]
  cases signal snapshot job place.1.demand now with
  | none => rfl
  | some demand =>
      dsimp only
      split
      · rfl
      · cases signal snapshot job place.2.progress now with
        | none => rfl
        | some reading => rfl

/-- A target that is not active is not followed. -/
theorem evaluateStage_inactive {snapshot : Snapshot} {job : Job} {now : Time} {place : Place}
    {progress : Table Progress} (hactive : job.target.expected ≠ .active) :
    evaluateStage snapshot job now place.1 progress place.2
      = { progress, state := .expectedInactive, time := now, complete := true } := by
  unfold evaluateStage
  rw [if_pos hactive]

/-! ## Signals are finite -/

theorem signalStep_finite {job : Job} {selector : String} {now : Time} {result : CheckResult}
    {found out : Option Found} {obs : Observation}
    (h : signalStep job selector now result found obs = some out)
    (hfound : ∀ f ∈ found, f.value.isFinite = true) : ∀ f ∈ out, f.value.isFinite = true := by
  unfold signalStep at h
  split at h
  · cases h
    exact hfound
  · cases hlevel : (level obs.data).filter Reading.isFinite with
    | none =>
        rw [hlevel] at h
        cases h
        exact hfound
    | some value =>
        have hvalue := (Option.filter_eq_some_iff.mp hlevel).2
        have hnew : ∀ f ∈ some (Found.mk obs.resource value obs.observedAt),
            f.value.isFinite = true := by
          rintro f ⟨⟩
          exact hvalue
        rw [hlevel] at h
        cases found with
        | none =>
            cases h
            exact hnew
        | some old =>
            dsimp only at h
            split at h
            · cases h
            split at h
            · cases h
              exact hnew
            · cases h
              exact hfound

/-- What every step of a fold that may fail keeps, a fold that succeeds keeps. -/
theorem foldlM_keeps {α β : Type} {P : β → Prop} {f : β → α → Option β}
    (hstep : ∀ b a b', f b a = some b' → P b → P b') (as : List α) {b b' : β}
    (h : as.foldlM f b = some b') (hb : P b) : P b' := by
  induction as generalizing b with
  | nil =>
      cases h
      exact hb
  | cons a as ih =>
      rw [List.foldlM_cons] at h
      obtain ⟨next, hnext, h⟩ := Option.bind_eq_some_iff.mp h
      exact ih h (hstep b a next hnext hb)

theorem signal_finite {snapshot : Snapshot} {job : Job} {selector : String} {now : Time}
    {reading : Reading × Time} (h : signal snapshot job selector now = some reading) :
    reading.1.isFinite = true := by
  unfold signal at h
  obtain ⟨found, hfound, h⟩ := Option.bind_eq_some_iff.mp h
  obtain ⟨f, hf, rfl⟩ := Option.map_eq_some_iff.mp h
  have hall : ∀ f ∈ found, f.value.isFinite = true := by
    refine foldlM_keeps (P := fun found : Option Found => ∀ f ∈ found, f.value.isFinite = true)
      (fun found result found' hresult => ?_) _ hfound (by rintro f ⟨⟩)
    exact foldlM_keeps (fun _ _ _ => signalStep_finite) result.observations hresult
  exact hall f hf

/-- A joint sample met demand, and its reading is a number. -/
theorem joint_of_sign {snapshot : Snapshot} {job : Job} {now : Time} {place : Place}
    {sample : Joint} (h : sign snapshot job now place = .joint sample) :
    (Reading.ofNat 0).lt sample.demand = true ∧ sample.value.isFinite = true
      ∧ ∃ demandAt valueAt,
        signal snapshot job place.1.demand now = some (sample.demand, demandAt)
        ∧ signal snapshot job place.2.progress now = some (sample.value, valueAt)
        ∧ sample.time = min valueAt demandAt := by
  unfold sign at h
  cases hdemand : signal snapshot job place.1.demand now with
  | none =>
      rw [hdemand] at h
      cases h
  | some demand =>
      rw [hdemand] at h
      dsimp only at h
      split at h
      · cases h
      rename_i hnot
      cases hprogress : signal snapshot job place.2.progress now with
      | none =>
          rw [hprogress] at h
          cases h
      | some reading =>
          rw [hprogress] at h
          cases h
          have hfinite := signal_finite hdemand
          refine ⟨?_, signal_finite hprogress, demand.2, reading.2, rfl, rfl, rfl⟩
          cases hvalue : demand.1 with
          | finite v =>
              rw [hvalue] at hnot
              simp only [Reading.le, Reading.lt, Reading.eq, Reading.ofNat, Bool.or_eq_true,
                decide_eq_true_eq, not_or] at hnot ⊢
              exact lt_of_le_of_ne (not_lt.mp hnot.1) (Ne.symm hnot.2)
          | posInf => rw [hvalue] at hfinite; cases hfinite
          | negInf => rw [hvalue] at hfinite; cases hfinite
          | nan => rw [hvalue] at hfinite; cases hfinite

end HealthMonitor.Flows
