import HealthMonitor.Runtime.Supervise
import HealthMonitor.Server.Overview

/-!
# Reading

What a reader of the dashboard may conclude about the state of the monitor at the time the
view is read, however long ago the view was published.
-/

namespace HealthMonitor.Runtime

open Server
open Server.View (Effective EffectiveJob Fact freshnessOf expiryOf stored relates)

/-- The row of a job shows the result that was stored when the view was built. -/
structure Shows (row : View.CheckView) (job : EffectiveJob) (published : CheckResult) : Prop where
  key : row.key = job.key
  target : row.target = job.target.name
  check : row.check = job.check
  finishedAt : row.finishedAt = some published.finishedAt
  operations : row.operations = published.operations
  complete : row.complete = published.complete

/-- The state that a target is shown well for by a view: none of its active findings is an
error or a warning, and each of its jobs has a result that is not too old, was complete when
the view was published, and reports no resource that is known to be ill. -/
structure Monitor.Bears (m : Monitor) (view : View) (t : View.Target) (now : Time) : Prop where
  findings : ∀ (id : String) (finding : Finding), m.snapshot.findings[id]? = some finding →
    t.owns finding.resource = true → finding.severity = .info
  checked : ∃ job ∈ m.effective.jobs, job.target.name = t.name
  results : ∀ job ∈ m.effective.jobs, job.target.name = t.name →
    ∃ result, m.snapshot.results[job.key]? = some result
      ∧ now ≤ result.finishedAt + freshnessOf m.snapshot job * nanosPerSecond
      ∧ ∃ published, Dimmed published result ∧ published.complete = true
        ∧ ∃ row ∈ view.checks, Shows row job published
  resources : ∀ job ∈ m.effective.jobs, job.target.name = t.name →
    ∀ obs ∈ stored m.snapshot job, relates obs.data = false →
      (∃ health, m.snapshot.health[obs.resource]? = some health
        ∧ (health.clear = true ∨ health = .unknown))
      ∧ ∃ other source, View.Stored m.snapshot m.effective.jobs other source
        ∧ other.resource = obs.resource
        ∧ now ≤ expiryOf other (freshnessOf m.snapshot source)

namespace Monitor

variable {host : Host} {facts : Data → List Fact} {m : Monitor} {before : Snapshot}
  {t : View.Target} {now : Time} {generation : Nat}

theorem shows_of {job : EffectiveJob} {published : CheckResult}
    (hpublished : before.results[job.key]? = some published) :
    Shows (.of before job) job published := by
  constructor <;> simp [View.CheckView.of, hpublished]

theorem checked_of_well
    (hwell : Overview.Well (View.build facts before m.effective generation) t.name now) :
    ∃ job ∈ m.effective.jobs, job.target.name = t.name := by
  obtain ⟨check, hcheck, hname⟩ := hwell.checked
  obtain ⟨job, hjob, rfl⟩ := List.mem_map.mp hcheck
  exact ⟨job, hjob, hname⟩

section

variable (hwell : Overview.Well (View.build facts before m.effective generation) t.name now)
  (hbehind : Behind before m.snapshot)
include hwell hbehind

theorem findings_of_well
    (ht : t ∈ (View.build facts before m.effective generation).targets)
    {id : String} {finding : Finding} (hfinding : m.snapshot.findings[id]? = some finding)
    (howns : t.owns finding.resource = true) : finding.severity = .info := by
  rw [hbehind.findings] at hfinding
  refine hwell.findings (View.FindingView.of facts _ finding) ?_ (View.target_eq ht howns)
  exact List.mem_map.mpr ⟨(id, finding), Table.mem_toList.mpr hfinding, rfl⟩

theorem result_of_well {job : EffectiveJob} (hjob : job ∈ m.effective.jobs)
    (hname : job.target.name = t.name) :
    ∃ result, m.snapshot.results[job.key]? = some result
      ∧ now ≤ result.finishedAt + freshnessOf m.snapshot job * nanosPerSecond
      ∧ ∃ published, Dimmed published result ∧ published.complete = true
        ∧ ∃ row ∈ (View.build facts before m.effective generation).checks,
          Shows row job published := by
  have hrow : View.CheckView.of before job
      ∈ (View.build facts before m.effective generation).checks := List.mem_map_of_mem hjob
  obtain ⟨hcomplete, time, htime, hnow⟩ := hwell.complete (.of before job) hrow hname
  have hrel := hbehind.results job.key
  rw [View.freshnessOf_behind hbehind]
  cases hpublished : before.results[job.key]? with
  | none =>
      simp [View.CheckView.of, hpublished] at hcomplete
  | some published =>
      rw [hpublished] at hrel
      have hshows := shows_of hpublished
      simp only [View.CheckView.of, hpublished, Option.any_some, Option.map_some] at hcomplete htime
      cases htime
      revert hrel
      generalize m.snapshot.results[job.key]? = found
      intro hrel
      cases hrel with
      | some hdimmed =>
          refine ⟨_, rfl, ?_, published, hdimmed, hcomplete, _, hrow, hshows⟩
          obtain ⟨p, rfl⟩ := hdimmed
          exact hnow

theorem resource_of_well {job : EffectiveJob} (hjob : job ∈ m.effective.jobs)
    (hname : job.target.name = t.name)
    (hown : ∀ job ∈ m.effective.jobs, ∀ obs ∈ stored m.snapshot job,
      job.target.Owns obs.resource)
    {obs : Observation} (hobs : obs ∈ stored m.snapshot job) (hrelates : relates obs.data = false) :
    (∃ health, m.snapshot.health[obs.resource]? = some health
        ∧ (health.clear = true ∨ health = .unknown))
      ∧ ∃ other source, View.Stored m.snapshot m.effective.jobs other source
        ∧ other.resource = obs.resource
        ∧ now ≤ expiryOf other (freshnessOf m.snapshot source) := by
  have hsame : ∀ job, stored m.snapshot job = stored before job := View.stored_behind hbehind
  rw [hsame] at hobs
  obtain ⟨resource, hresource, hreported⟩ :=
    @View.catalog_reported before m.effective.jobs facts obs job ⟨hjob, hobs, hrelates⟩
  -- the entry belongs to the target, since its name is in that of the resource
  obtain ⟨first, source, hfirst, hsource, htarget⟩ := hreported.target
  have howned : source.target.name = job.target.name := by
    have hone := hown source hfirst.1 first (by rw [hsame]; exact hfirst.2.1)
    rw [hsource] at hone
    exact Target.owns_unique hone (hown job hjob obs (by rw [hsame]; exact hobs))
  obtain ⟨hnow, hclear⟩ := hwell.current resource.sorted
    (View.mem_buildResources hresource) (htarget.trans (howned.trans hname))
  constructor
  · change resource.health.clear = true at hclear
    rw [hreported.health] at hclear
    cases hhealth : before.health[obs.resource]? with
    | none =>
        rw [hhealth] at hclear
        cases hclear
    | some health =>
        rw [hhealth] at hclear
        rcases hbehind.health obs.resource with heq | ⟨-, hunknown⟩
        · exact ⟨health, heq.trans hhealth, .inl hclear⟩
        · exact ⟨.unknown, hunknown, .inr rfl⟩
  · obtain ⟨other, source, hother, hid, hexpiry⟩ := hreported.expiry
    refine ⟨other, source, ⟨hother.1, by rw [hsame]; exact hother.2.1, hother.2.2⟩, hid, ?_⟩
    rw [View.freshnessOf_behind hbehind, ← hexpiry]
    exact hnow

end

/-- **A target that is shown well is well.** Whatever the monitor did since its view was
published, a target that the overview shows as healthy or as inactive by intent at the time
it is read has no error and no warning among the findings of the state, and every one of its
checks has stored a result that was complete when the view was published, is not too old, and
reports no resource that is known to be ill. -/
theorem shown_well (h : Reached host facts m) {view : View} (hview : m.bus.view = some view)
    (ht : t ∈ view.targets)
    (hown : ∀ job ∈ m.effective.jobs, ∀ obs ∈ stored m.snapshot job,
      job.target.Owns obs.resource)
    (hhealth : (Overview.summary view t now).health.clear = true) :
    m.Bears view t now := by
  obtain ⟨before, hbuilt, hbehind⟩ := published_of_reached h
  rw [hview] at hbuilt
  cases hbuilt
  have hwell := Overview.well_of_summary hhealth
  exact
    { findings := fun _ _ hfinding => findings_of_well hwell hbehind ht hfinding
      checked := checked_of_well hwell
      results := fun _ => result_of_well hwell hbehind
      resources := fun _ hjob hname _ => resource_of_well hwell hbehind hjob hname hown }

end Monitor

namespace Watch

open HealthMonitor.Sample

/-- The result of two requests, one of them answered earlier. -/
def partly : CheckResult :=
  result .inventory (sec 1000) [operation "list" (sec 1000), operation "network" (sec 500)]
    [condition "app/web" "list" (sec 1000) true]

/-- The older request expires at the tick after the result. -/
def ticked (m : Monitor) : Monitor :=
  let event := Event.result inventory partly (sec 1000) (sec 1000) (sec 1000) fun _ => 0
  ((m.step machine facts event).1.step machine facts (.history (sec 1200) 0)).1

theorem reached_ticked {m : Monitor} {submissions : List Submission}
    (hbegun : begun = .ok (m, submissions)) (hcaptured : m.snapshot.capturedAt = 0) :
    Reached machine facts (ticked m) := by
  apply Reached.step
  · apply Reached.step
    · exact Reached.start hbegun
    · show m.snapshot.capturedAt < sec 1000 ∧ _
      rw [hcaptured]
      decide
  · trivial

/-- The view is read after the tick. -/
def read (m : Monitor) : Option (View × View.Target × Health) :=
  (ticked m).bus.view.bind fun view =>
    view.targets.head?.map fun t => (view, t, (Overview.summary view t (sec 1250)).health)

theorem read_well :
    begun.toOption.all (fun begun =>
        (read begun.1).any (fun found => found.2.2.clear)
          && (ticked begun.1).effective.jobs.all fun job =>
            (stored (ticked begun.1).snapshot job).all fun obs =>
              decide (job.target.Owns obs.resource)) = true := by
  decide +kernel

/-- The result that is stored is not complete any more. -/
theorem ticked_incomplete :
    begun.toOption.all (fun begun =>
      ((ticked begun.1).snapshot.results[inventory.key]?).any (!·.complete)) = true := by
  decide +kernel

end Watch

/-- The one target of the watch is shown as healthy, and an expiry has not been noticed. -/
theorem shown_well_watched :
    ∃ m submissions, Watch.begun = .ok (m, submissions)
      ∧ ((Watch.ticked m).snapshot.results[Watch.inventory.key]?).any (!·.complete) = true
      ∧ ∃ view t, (Watch.ticked m).bus.view = some view
        ∧ (Watch.ticked m).Bears view t (HealthMonitor.Sample.sec 1250) := by
  obtain ⟨m, submissions, hbegun, hcaptured⟩ := Watch.begun_ok
  have hwell := Watch.read_well
  have hincomplete := Watch.ticked_incomplete
  rw [hbegun] at hwell hincomplete
  simp only [Except.toOption, Option.all_some, Bool.and_eq_true, Option.any_eq_true] at hwell
  obtain ⟨⟨⟨view, t, health⟩, hread, hclear⟩, hown⟩ := hwell
  obtain ⟨found, hview, hread⟩ := Option.bind_eq_some_iff.mp hread
  obtain ⟨first, hfirst, hread⟩ := Option.map_eq_some_iff.mp hread
  cases hread
  refine ⟨m, submissions, hbegun, hincomplete, view, t, hview, ?_⟩
  have hreached := Watch.reached_ticked hbegun hcaptured
  apply Monitor.shown_well hreached hview (List.mem_of_head? hfirst) _ hclear
  intro job hjob obs hobs
  rw [List.all_eq_true] at hown
  have hjobs := hown job hjob
  rw [List.all_eq_true] at hjobs
  exact of_decide_eq_true (hjobs obs hobs)

end HealthMonitor.Runtime
