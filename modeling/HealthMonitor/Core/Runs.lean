import HealthMonitor.Core.StateLifecycle
import HealthMonitor.Library.Process

/-!
# Runs

The monitor as a process. Its steps are the public operations on the state; a
step is carried out by passes, the indivisible parts that the operations share:
one pass over a result, one evaluation of the flows, one expiry, and the
restored sample count of a derived application. Every run of the monitor is the
run of its passes, and the journal of a run lists the passes that can emit
transitions, each with the state it found.
-/

namespace HealthMonitor

inductive Action where
  | collect (job : Job) (result : CheckResult) (now clock : Time)
  | evaluateFlows (job : Job) (now clock : Time)
  | restoreSamples (key : String) (samples : Option Nat)
  | expire (freshness : Nat) (now : Time)

/-- A pass that can emit transitions, with the state before it. -/
inductive Entry where
  | applied (a : State.Application)
  | expired (before : Snapshot) (freshness : Nat) (now : Time)

open State

def Entry.before : Entry → Snapshot
  | applied a => a.before
  | expired before _ _ => before

def Entry.after (host : Host) : Entry → Snapshot
  | applied a => a.after host
  | expired before freshness now => (expire before freshness now).1

def Entry.transitions (host : Host) : Entry → List Transition
  | applied a => a.transitions host
  | expired before freshness now => (expire before freshness now).2

/-- The process of the passes. -/
def passes (host : Host) : Process Snapshot Action Entry where
  step snapshot
    | .collect job result now clock =>
        let a : Application := { before := snapshot, job, result, now, clock }
        (a.after host, [.applied a])
    | .evaluateFlows job now clock => ((Flows.evaluate snapshot job now clock).1, [])
    | .restoreSamples key samples => (restoreSamples snapshot key samples, [])
    | .expire freshness now =>
        ((expire snapshot freshness now).1, [.expired snapshot freshness now])

/-! ## The operations as runs of passes -/

/-- The passes of `apply`. -/
def applyActions (host : Host) (snapshot : Snapshot) (job : Job) (result : CheckResult)
    (now clock : Time) : List Action :=
  .collect job result now clock ::
    if job.flowsEnabled = true ∧ job.check ≠ .flows then
      let after := (collect host snapshot job result now clock).1
      let evaluated := Flows.evaluate after (flowJob job) now clock
      [.evaluateFlows (flowJob job) now clock,
        .collect (flowJob job) evaluated.2 now clock,
        .restoreSamples (flowJob job).key evaluated.1.samples[(flowJob job).key]?]
    else []

/-- The passes that refresh one release job. -/
def refreshActions (host : Host) (now : Time) (clock : Job → Time) (snapshot : Snapshot)
    (job : Job) : List Action :=
  match snapshot.results[job.key]? with
  | none => []
  | some result =>
      applyActions host snapshot job result now (clock job)
        ++ [.restoreSamples job.key snapshot.samples[job.key]?]

/-- The public operations. -/
inductive Step where
  | apply (job : Job) (result : CheckResult) (now clock : Time)
  | expire (freshness : Nat) (now : Time)
  | refreshReleases (jobs : List Job) (now : Time) (clock : Job → Time)

def Step.perform (host : Host) (snapshot : Snapshot) : Step → Snapshot × List Transition
  | apply job result now clock => State.apply host snapshot job result now clock
  | expire freshness now => State.expire snapshot freshness now
  | refreshReleases jobs now clock => State.refreshReleases host snapshot jobs now clock

def Step.actions (host : Host) (snapshot : Snapshot) : Step → List Action
  | apply job result now clock => applyActions host snapshot job result now clock
  | expire freshness now => [.expire freshness now]
  | refreshReleases jobs now clock =>
      (passes host).expand (refreshActions host now clock) snapshot (jobs.filter refreshes)

/-- The monitor: a process whose steps are the public operations. -/
def monitor (host : Host) : Process Snapshot Step Transition where
  step := Step.perform host

/-- The passes of a whole run. -/
def actions (host : Host) (snapshot : Snapshot) (steps : List Step) : List Action :=
  (passes host).expand (Step.actions host) snapshot steps

/-- The journal of a run. -/
def journal (host : Host) (snapshot : Snapshot) (steps : List Step) : List Entry :=
  ((passes host).run snapshot (actions host snapshot steps)).2

variable {host : Host}

theorem apply_eq (snapshot : Snapshot) (job : Job) (result : CheckResult)
    (now clock : Time) :
    State.apply host snapshot job result now clock
      = (((passes host).run snapshot (applyActions host snapshot job result now clock)).1,
          ((passes host).run snapshot
            (applyActions host snapshot job result now clock)).2.flatMap
              (Entry.transitions host)) := by
  unfold State.apply applyActions
  dsimp only [collect]
  split
  · simp [Process.run, passes, Entry.transitions]
  · simp [Process.run, passes, Entry.transitions]

/-- Refreshing is the expansion of its jobs. -/
theorem refreshReleases_eq (snapshot : Snapshot) (jobs : List Job) (now : Time)
    (clock : Job → Time) :
    State.refreshReleases host snapshot jobs now clock
      = (((passes host).run snapshot ((passes host).expand (refreshActions host now clock)
            snapshot (jobs.filter refreshes))).1,
          ((passes host).run snapshot ((passes host).expand (refreshActions host now clock)
            snapshot (jobs.filter refreshes))).2.flatMap (Entry.transitions host)) := by
  have hstep : ∀ (s : Snapshot) (log : List Transition) (job : Job),
      refreshStep host now clock (s, log) job
        = (((passes host).run s (refreshActions host now clock s job)).1,
            log ++ ((passes host).run s (refreshActions host now clock s job)).2.flatMap
              (Entry.transitions host)) := by
    intro s log job
    unfold refreshStep refreshActions
    cases s.results[job.key]? with
    | none => simp
    | some result =>
        dsimp only
        rw [apply_eq, Process.run_append]
        simp [Process.run, passes]
  have key : ∀ (jobs : List Job) (s : Snapshot) (log : List Transition),
      jobs.foldl (refreshStep host now clock) (s, log)
        = (((passes host).run s ((passes host).expand (refreshActions host now clock) s
              jobs)).1,
            log ++ ((passes host).run s ((passes host).expand
              (refreshActions host now clock) s jobs)).2.flatMap
                (Entry.transitions host)) := by
    intro jobs
    induction jobs with
    | nil => intro s log; simp [Process.expand]
    | cons job jobs ih =>
        intro s log
        rw [List.foldl_cons, hstep, ih, Process.expand, Process.run_append]
        simp only [List.flatMap_append, List.append_assoc]
  rw [State.refreshReleases, key, List.nil_append]

/-- A step is the run of its passes. -/
theorem perform_eq (snapshot : Snapshot) (step : Step) :
    (monitor host).step snapshot step
      = (((passes host).run snapshot (step.actions host snapshot)).1,
          ((passes host).run snapshot (step.actions host snapshot)).2.flatMap
            (Entry.transitions host)) := by
  cases step with
  | apply job result now clock => exact apply_eq ..
  | expire freshness now => simp [monitor, Step.perform, Step.actions, passes, Entry.transitions]
  | refreshReleases jobs now clock => exact refreshReleases_eq ..

/-- A run is the run of its passes, and its transitions are those of its
journal. -/
theorem run_eq (snapshot : Snapshot) (steps : List Step) :
    (monitor host).run snapshot steps
      = (((passes host).run snapshot (actions host snapshot steps)).1,
          (journal host snapshot steps).flatMap (Entry.transitions host)) :=
  @Process.run_expand _ _ _ _ (passes host) _ (monitor host) (Step.actions host)
    (fun log => log.flatMap (Entry.transitions host))
    (fun _ _ => List.flatMap_append) rfl perform_eq snapshot steps

/-- The journal of a run goes on where its first steps end. -/
theorem journal_append (snapshot : Snapshot) (steps more : List Step) :
    journal host snapshot (steps ++ more)
      = journal host snapshot steps
        ++ journal host ((monitor host).run snapshot steps).1 more := by
  rw [run_eq]
  unfold journal actions
  rw [Process.expand_append, Process.run_append]

/-- The journal of an application without a nested one. -/
theorem journal_apply (s : Snapshot) (job : Job) (result : CheckResult) (now clock : Time)
    (h : job.flowsEnabled = false) :
    journal host s [.apply job result now clock]
      = [.applied { before := s, job, result, now, clock }] := by
  simp [journal, actions, Process.expand, Step.actions, applyActions, h, passes]

/-! ## The jobs of a run -/

/-- The jobs a step names. -/
def Step.jobs : Step → List Job
  | apply job _ _ _ => [job]
  | expire _ _ => []
  | refreshReleases jobs _ _ => jobs

/-- Every job of the action satisfies `p`. -/
def Action.For (p : Job → Prop) : Action → Prop
  | collect job _ _ _ => p job
  | evaluateFlows job _ _ => p job
  | restoreSamples _ _ => True
  | expire _ _ => True

theorem applyActions_for {p : Job → Prop} {job : Job} (h : p job) (hflow : p (flowJob job))
    (snapshot : Snapshot) (result : CheckResult) (now clock : Time) :
    ∀ a ∈ applyActions host snapshot job result now clock, a.For p := by
  intro a ha
  rcases List.mem_cons.mp ha with rfl | ha
  · exact h
  · split at ha
    · simp only [List.mem_cons, List.not_mem_nil, or_false] at ha
      rcases ha with rfl | rfl | rfl
      · exact hflow
      · exact hflow
      · trivial
    · cases ha

/-- The passes of a step are about the jobs it names and their flow jobs. -/
theorem Step.actions_for {p : Job → Prop} {step : Step}
    (h : ∀ job ∈ step.jobs, p job ∧ p (flowJob job)) (snapshot : Snapshot) :
    ∀ a ∈ step.actions host snapshot, a.For p := by
  cases step with
  | apply job result now clock =>
      obtain ⟨hjob, hflow⟩ := h job (by simp [Step.jobs])
      exact applyActions_for hjob hflow snapshot result now clock
  | expire freshness now =>
      intro a ha
      rw [Step.actions, List.mem_singleton] at ha
      subst ha
      trivial
  | refreshReleases jobs now clock =>
      have key : ∀ (js : List Job), (∀ job ∈ js, p job ∧ p (flowJob job)) →
          ∀ s, ∀ a ∈ (passes host).expand (refreshActions host now clock) s js, a.For p := by
        intro js
        induction js with
        | nil => intro _ s a ha; cases ha
        | cons job js ih =>
            intro hjs s a ha
            rcases List.mem_append.mp ha with ha | ha
            · obtain ⟨hjob, hflow⟩ := hjs job (by simp)
              unfold refreshActions at ha
              split at ha
              · cases ha
              · rcases List.mem_append.mp ha with ha | ha
                · exact applyActions_for hjob hflow _ _ _ _ a ha
                · rw [List.mem_singleton.mp ha]
                  trivial
            · exact ih (fun j hj => hjs j (by simp [hj])) _ a ha
      exact key _ (fun job hj => h job (List.mem_filter.mp hj).1) snapshot

/-! ## A small world

One target, its inventory and its managed services, and conditions of
resources: enough to run the monitor on. -/

namespace Sample

/-- The sizes of a 64-bit build. A condition prints in 145 bytes around its two
names, one more when it is false. -/
def machine : Host where
  observationJson obs :=
    obs.resource.utf8ByteSize + obs.operation.utf8ByteSize
      + match obs.data with
        | .condition _ (some false) => 146
        | _ => 145
  observationSize := 592
  operationSize := 72
  previousOccurrence _ _ _ := none

def target : Target where
  name := "app"
  valid := by decide
  provider := .kubernetes
  scope := "prod"

def job (check : Check) : Job := { target, check, settings := .default }

/-- So many seconds after the epoch. -/
def sec (seconds : Nat) : Time := seconds * nanosPerSecond

def operation (id : String) (time : Time) (coverage : Coverage := .complete) : Operation :=
  { id, coverage, observedAt := time }

def condition (resource operation : String) (time : Time) (healthy : Bool) : Observation :=
  { resource, operation, observedAt := time, data := .condition "ready" (some healthy) }

def result (check : Check) (time : Time) (operations : List Operation)
    (observations : List Observation) : CheckResult :=
  { target := "app", check, revision := "", startedAt := time, finishedAt := time
    operations, observations }

/-- The check reports one condition of one resource, as it is observed. -/
def sighting (check : Check) (resource op : String) (time : Time) (healthy : Bool) : Step :=
  .apply (job check)
    (result check time [operation op time] [condition resource op time healthy]) time time

def start : Snapshot := State.new "" ["app"] 0

end Sample

end HealthMonitor
