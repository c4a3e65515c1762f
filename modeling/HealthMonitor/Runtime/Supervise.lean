import HealthMonitor.Core.Runs
import HealthMonitor.Runtime.Publication
import HealthMonitor.Server.Bus

/-!
# Supervise

The loop of the supervisor: it applies the results of the checks, expires evidence on two
ticks, reloads the configuration, and tells the observer after every step. The queue of
transitions and its background writer are those of `Publication`; what is awaited, the
clocks, the results and the configurations that are read are decided by the environment.
-/

namespace HealthMonitor.Runtime

open Server
open Server.View (Effective EffectiveJob Fact)

/-- The two counts of the snapshot that the queue keeps are those of `supervisor`. -/
structure Monitor where
  snapshot : Snapshot
  effective : Effective
  supervisor : Supervisor
  bus : Bus

inductive Event where
  | history (now started : Time)
  | disk (now : Time) (result : Option Bool) (polled started : Time)
  | result (job : EffectiveJob) (result : CheckResult) (now clock later : Time)
      (clocks : Job → Time)
  | reload (loaded : Option Effective)
  | finish (ending : Ending)

namespace Monitor

/-- The settings of the first job. -/
def settings (m : Monitor) : Settings :=
  (m.effective.jobs.head?.map fun job => job.settings).getD .default

def jobs (effective : Effective) : List Job := effective.jobs.map (·.toJob)

/-- The snapshot as the observer is shown it. -/
def shown (m : Monitor) : Snapshot :=
  { m.snapshot with
    persistenceFault := m.supervisor.persistenceFault
    droppedTransitions := m.supervisor.droppedTransitions }

section

variable (host : Host) (facts : Data → List Fact)

/-- `observer.update`. -/
def update (m : Monitor) (transitions : List Transition) : Monitor × List Submission :=
  let updated := m.bus.update facts m.shown m.effective transitions
  ({ m with bus := updated.1 }, updated.2.toList)

def append (m : Monitor) (incoming : List Transition) : Monitor :=
  { m with supervisor := m.supervisor.append incoming m.settings.maxFindings }

/-- What both ticks begin with. -/
def expire (m : Monitor) (now : Time) : Monitor × List Submission :=
  let expired := State.expire m.snapshot m.settings.freshness now
  let updated := { m with snapshot := expired.1 }.update facts expired.2
  (updated.1.append expired.2, updated.2)

/-- The checks whose results release jobs correlate. -/
def correlated : Check → Bool
  | .inventory | .kubernetes | .github | .releases => true
  | _ => false

/-- A result and, where release jobs depend on it, their refresh. -/
def applied (m : Monitor) (job : Job) (result : CheckResult) (now clock later : Time)
    (clocks : Job → Time) : Snapshot × List Transition :=
  let applied := State.apply host m.snapshot job result now clock
  if correlated job.check then
    let refreshed := State.refreshReleases host applied.1 (jobs m.effective) later clocks
    (refreshed.1, applied.2 ++ refreshed.2)
  else applied

/-- The job is one of the configuration in effect. -/
def serves (m : Monitor) (job : Job) : Bool :=
  m.effective.jobs.any fun other => other.key == job.key && other.revision == job.revision

def step (m : Monitor) : Event → Monitor × List Submission
  | .history now started =>
      let expired := m.expire facts now
      let requested := (expired.1.supervisor.step .request).1
      ({ expired.1 with supervisor := (requested.step (.start started)).1 }, expired.2)
  | .disk now result polled started =>
      let expired := m.expire facts now
      let settled := (expired.1.supervisor.step (.poll result polled)).1
      ({ expired.1 with supervisor := (settled.step (.start started)).1 }, expired.2)
  | .result job result now clock later clocks =>
      if m.serves job.toJob then
        let applied := m.applied host job.toJob result now clock later clocks
        let updated := { m with snapshot := applied.1 }.update facts applied.2
        (updated.1.append applied.2, updated.2)
      else (m, [])
  | .reload loaded =>
      match loaded with
      | none => (m, [])
      | some replacement =>
          match State.reconfigured host m.snapshot (jobs replacement) with
          | .error _ => (m, [])
          | .ok candidate =>
              { m with snapshot := candidate, effective := replacement }.update facts []
  | .finish ending =>
      { m with supervisor := (m.supervisor.step (.finish ending)).1 }.update facts []

/-- `monitor`, up to its loop. -/
def start (latest : Option Snapshot) (once : Bool) (effective : Effective)
    (clock now : Time) : Except Error (Monitor × List Submission) :=
  let restored :=
    latest.getD (State.new effective.revision ((jobs effective).map Job.key) clock)
  let begun := if once then State.beginRun restored else restored
  match State.reconfigured host begun (jobs effective) with
  | .error error => .error error
  | .ok snapshot =>
      let supervisor : Supervisor :=
        { publisher := .new now
          transitions := []
          persistenceFault := snapshot.persistenceFault
          droppedTransitions := snapshot.droppedTransitions }
      .ok (update facts { snapshot, effective, supervisor, bus := {} } [])

end

end Monitor

/-! ## Times and revisions -/

section Stamps

variable {host : Host}

theorem apply_capturedAt (snapshot : Snapshot) (job : Job) (result : CheckResult)
    (now clock : Time) : (State.apply host snapshot job result now clock).1.capturedAt = now := by
  have hcollect : ∀ (snapshot : Snapshot) (job : Job) (result : CheckResult),
      (State.collect host snapshot job result now clock).1.capturedAt = now := by
    intro snapshot job result
    show (State.Application.after host
      { before := snapshot, job, result, now, clock }).capturedAt = now
    rw [State.Application.after_eq, State.expire_capturedAt, State.Application.pending]
  unfold State.apply
  dsimp only
  split
  · exact hcollect ..
  · exact hcollect ..

theorem refresh_capturedAt (snapshot : Snapshot) (jobs : List Job) (now : Time)
    (clocks : Job → Time) :
    (State.refreshReleases host snapshot jobs now clocks).1.capturedAt = snapshot.capturedAt
      ∨ (State.refreshReleases host snapshot jobs now clocks).1.capturedAt = now := by
  unfold State.refreshReleases
  generalize ([] : List Transition) = transitions
  induction jobs.filter State.refreshes generalizing snapshot transitions with
  | nil => exact .inl rfl
  | cons job rest ih =>
      rw [List.foldl_cons, State.refreshStep]
      cases snapshot.results[job.key]? with
      | none => exact ih snapshot transitions
      | some result =>
          dsimp only
          rcases ih _ _ with hkept | hnow
          · refine .inr (hkept.trans ?_)
            exact apply_capturedAt snapshot job result now (clocks job)
          · exact .inr hnow

/-- A reload takes over the revision of the jobs. -/
theorem reconfigured_revision {snapshot candidate : Snapshot} {jobs : List Job}
    (h : State.reconfigured host snapshot jobs = .ok candidate) :
    ∃ job ∈ jobs, candidate.revision = job.revision := by
  unfold State.reconfigured at h
  cases jobs with
  | nil => cases h
  | cons job rest =>
      dsimp only at h
      split at h
      · cases h
      · cases h
        exact ⟨job, List.mem_cons_self, rfl⟩

end Stamps

/-! ## Runs -/

/-- What is asked of the environment of a step: a result is applied at a time that no result
was applied at before, and a reload brings another configuration. -/
def Monitor.Admits (m : Monitor) : Event → Prop
  | .result _ _ now _ later _ => m.snapshot.capturedAt < now ∧ now ≤ later
  | .reload (some replacement) =>
      ∀ job ∈ replacement.jobs, job.revision ≠ m.snapshot.revision
  | _ => True

/-- The states of a monitor from its start on. -/
inductive Reached (host : Host) (facts : Data → List Fact) : Monitor → Prop
  | start {latest : Option Snapshot} {once : Bool} {effective : Effective} {clock now : Time}
      {m : Monitor} {submissions : List Submission}
      (h : Monitor.start host facts latest once effective clock now = .ok (m, submissions)) :
      Reached host facts m
  | step {m : Monitor} {event : Event} (h : Reached host facts m) (hadmits : m.Admits event) :
      Reached host facts (m.step host facts event).1

/-- The view that is out was built from a snapshot that the current one is behind. -/
def Monitor.Published (facts : Data → List Fact) (m : Monitor) : Prop :=
  ∃ before, m.bus.view = some (View.build facts before m.effective m.bus.generation)
    ∧ Behind before m.snapshot

namespace Monitor

variable {host : Host} {facts : Data → List Fact} {m : Monitor}

/-- An update after a step that the view can be behind of. -/
theorem Published.update_behind {snapshot : Snapshot} {transitions : List Transition}
    (h : m.Published facts) (hbehind : transitions = [] → Behind m.snapshot snapshot) :
    ({ m with snapshot }.update facts transitions).1.Published facts := by
  rcases @Bus.update_cases facts m.bus { m with snapshot }.shown m.effective transitions with
    ⟨hnone, -, hsame⟩ | hnext
  · obtain ⟨before, hview, hbefore⟩ := h
    refine ⟨before, ?_, hbefore.trans (hbehind hnone)⟩
    rw [update, hsame]
    exact hview
  · refine ⟨{ m with snapshot }.shown, ?_, ?_⟩
    · rw [update, hnext]
    · exact ⟨rfl, rfl, rfl, rfl, fun key => relDimmed_refl _, fun resource => .inl rfl⟩

/-- An update after a step that the view cannot pass for. -/
theorem update_published {m : Monitor} {transitions : List Transition}
    (h : m.bus.current m.shown = false) : (m.update facts transitions).1.Published facts := by
  refine ⟨m.shown, ?_, ?_⟩
  · rw [update, Bus.update_of_not_current h]
  · exact ⟨rfl, rfl, rfl, rfl, fun key => relDimmed_refl _, fun resource => .inl rfl⟩

/-- What only changes the queue changes nothing that is published. -/
theorem Published.supervisor (h : m.Published facts) (supervisor : Supervisor) :
    { m with supervisor }.Published facts := h

theorem Published.expire (h : m.Published facts) (now : Time) :
    (m.expire facts now).1.Published facts := by
  rw [Monitor.expire]
  exact (h.update_behind fun hnone => .of_expire hnone).supervisor _

theorem Published.not_current_of_capturedAt {snapshot : Snapshot} (h : m.Published facts)
    (hlater : snapshot.capturedAt ≠ m.snapshot.capturedAt) :
    m.bus.current { m with snapshot }.shown = false := by
  obtain ⟨before, hview, hbehind⟩ := h
  rw [Bus.current, hview]
  have hne : before.capturedAt ≠ snapshot.capturedAt := by
    rw [← hbehind.capturedAt]
    exact hlater.symm
  simp [View.build, shown, hne]

theorem Published.not_current_of_revision {candidate : Snapshot} {replacement : Effective}
    (h : m.Published facts) (hrevision : candidate.revision ≠ m.snapshot.revision) :
    m.bus.current { m with snapshot := candidate, effective := replacement }.shown = false := by
  obtain ⟨before, hview, hbehind⟩ := h
  rw [Bus.current, hview]
  have hne : before.revision ≠ candidate.revision := by
    rw [← hbehind.revision]
    exact hrevision.symm
  simp [View.build, shown, hne]

theorem applied_capturedAt {job : Job} {result : CheckResult} {now clock later : Time}
    {clocks : Job → Time} (hnow : m.snapshot.capturedAt < now) (hlater : now ≤ later) :
    (m.applied host job result now clock later clocks).1.capturedAt
      ≠ m.snapshot.capturedAt := by
  have happlied := @apply_capturedAt host m.snapshot job result now clock
  unfold applied
  dsimp only
  split
  · rcases @refresh_capturedAt host (State.apply host m.snapshot job result now clock).1
      (jobs m.effective) later clocks with h | h
    · rw [h, happlied]
      exact Int.ne_of_gt hnow
    · rw [h]
      exact Int.ne_of_gt (Int.lt_of_lt_of_le hnow hlater)
  · rw [happlied]
    exact Int.ne_of_gt hnow

theorem Published.step (h : m.Published facts) {event : Event} (hadmits : m.Admits event) :
    (m.step host facts event).1.Published facts := by
  cases event with
  | history now started => exact (h.expire now).supervisor _
  | disk now result polled started => exact (h.expire now).supervisor _
  | result job result now clock later clocks =>
      rw [Monitor.step]
      split
      · have hlater := @applied_capturedAt host m job.toJob result now clock later clocks
          hadmits.1 hadmits.2
        have hout := h.not_current_of_capturedAt hlater
        exact (update_published hout).supervisor _
      · exact h
  | reload loaded =>
      cases loaded with
      | none => exact h
      | some replacement =>
          rw [Monitor.step]
          cases hreload : State.reconfigured host m.snapshot (jobs replacement) with
          | error error => exact h
          | ok candidate =>
              obtain ⟨job, hjob, hrevision⟩ := reconfigured_revision hreload
              obtain ⟨selected, hselected, rfl⟩ := List.mem_map.mp hjob
              apply update_published
              apply h.not_current_of_revision
              rw [hrevision]
              exact hadmits selected hselected
  | finish ending => exact (h.supervisor _).update_behind fun _ => .refl _

theorem published_of_reached (h : Reached host facts m) : m.Published facts := by
  induction h with
  | start h =>
      unfold Monitor.start at h
      dsimp only at h
      split at h
      · cases h
      · cases h
        exact update_published rfl
  | step _ hadmits ih => exact ih.step hadmits

end Monitor

/-! ## A silent expiry -/

namespace Watch

open HealthMonitor.Sample

def inventory : EffectiveJob := { job .inventory with requestedChecks := [.inventory] }

def effective : Effective where
  revision := ""
  jobs := [inventory]

def facts (_ : Data) : List Fact := []

def begun : Except Error (Monitor × List Submission) :=
  Monitor.start machine facts none false effective 0 0

/-- A result comes in, and expires later without a transition. -/
def after (m : Monitor) : Monitor :=
  let found :=
    result .inventory (sec 1) [operation "list" (sec 1)]
      [condition "app/web" "list" (sec 1) true]
  let applied := m.step machine facts (.result inventory found (sec 2) (sec 2) (sec 2) fun _ => 0)
  (applied.1.step machine facts (.history (sec 50000) 0)).1

theorem begun_ok :
    ∃ m submissions, begun = .ok (m, submissions) ∧ m.snapshot.capturedAt = 0 :=
  ⟨_, _, rfl, rfl⟩

theorem reached {m : Monitor} {submissions : List Submission}
    (hbegun : begun = .ok (m, submissions)) (hcaptured : m.snapshot.capturedAt = 0) :
    Reached machine facts (after m) := by
  apply Reached.step
  · apply Reached.step
    · exact Reached.start hbegun
    · show m.snapshot.capturedAt < sec 2 ∧ _
      rw [hcaptured]
      decide
  · trivial

/-- The resource is healthy in the view and unknown in the state. -/
theorem after_unknown :
    begun.toOption.all (fun begun =>
      (after begun.1).bus.view.all (fun view =>
          view.resources.map (fun resource => (resource.id, resource.health))
            == [("app/web", .healthy)])
        && (after begun.1).snapshot.health["app/web"]? == some .unknown) = true := by
  decide +kernel

end Watch

end HealthMonitor.Runtime
