import HealthMonitor.Core.State

/-!
# Gathering

What the stages before the scan can do: they touch no table of the snapshot
that the scan and the settlement work on, they complete no operation, and every
observation they hand on has a known origin.
-/

namespace HealthMonitor.State

variable {host : Host} {snapshot : Snapshot} {job : Job} {result : CheckResult}
  {now clock : Time}

/-! ## The snapshot -/

/-- The tables that only the later stages of a pass touch. -/
structure SameTables (s t : Snapshot) : Prop where
  results : s.results = t.results
  findings : s.findings = t.findings
  health : s.health = t.health
  pressure : s.pressure = t.pressure
  retired : s.retired = t.retired
  confirmations : s.confirmations = t.confirmations

theorem derive_same : SameTables (derive snapshot job result now clock).1 snapshot := by
  unfold derive
  dsimp only
  split
  · obtain ⟨progress, h, _, _⟩ := Flows.evaluate_snapshot snapshot job now clock
    rw [h]
    exact ⟨rfl, rfl, rfl, rfl, rfl, rfl⟩
  · exact ⟨rfl, rfl, rfl, rfl, rfl, rfl⟩

theorem prepare_same : SameTables (prepare host snapshot job result now clock).1 snapshot := by
  have h := @derive_same (register snapshot job) job result now clock
  exact ⟨h.results, h.findings, h.health, h.pressure, h.retired, h.confirmations⟩

/-- The freshness limits while the result of `job` is scanned. -/
theorem prepare_freshness :
    (prepare host snapshot job result now clock).1.freshness
      = snapshot.freshness.insert job.key job.settings.freshness := by
  have h : (derive (register snapshot job) job result now clock).1.freshness
      = snapshot.freshness := by
    unfold derive
    dsimp only
    split
    · obtain ⟨progress, h, _, _⟩ := Flows.evaluate_snapshot
        (register snapshot job) job now clock
      rw [h]
      rfl
    · rfl
  show ((derive (register snapshot job) job result now clock).1.freshness).insert _ _ = _
  rw [h]

/-- Progress records change for the stages of a flow job only. -/
theorem prepare_progress :
    (∀ k, ¬ (job.check = .flows ∧ Flows.IsStageKey job k) →
      (prepare host snapshot job result now clock).1.progress[k]? = snapshot.progress[k]?)
    ∧ (snapshot.progress.size ≤ job.settings.maxFindings →
      (prepare host snapshot job result now clock).1.progress.size
        ≤ job.settings.maxFindings) := by
  have h : (∀ k, ¬ (job.check = .flows ∧ Flows.IsStageKey job k) →
      (derive (register snapshot job) job result now clock).1.progress[k]?
        = snapshot.progress[k]?)
      ∧ (snapshot.progress.size ≤ job.settings.maxFindings →
        (derive (register snapshot job) job result now clock).1.progress.size
          ≤ job.settings.maxFindings) := by
    unfold derive
    dsimp only
    split
    · rename_i hflows
      obtain ⟨progress, h, hframe, hsize⟩ := Flows.evaluate_snapshot
        (register snapshot job) job now clock
      rw [h]
      exact ⟨fun k hk => hframe k fun hs => hk ⟨hflows, hs⟩, hsize⟩
    · exact ⟨fun _ _ => rfl, id⟩
  exact h

/-! ## Coverage -/

theorem completeIds_validateObservation {freshness : Nat} {ops : List Operation}
    {obs : Observation} {id : String}
    (h : id ∈ completeIds (validateObservation freshness now ops obs)) :
    id ∈ completeIds ops := by
  have malformed : ∀ id, id ∈ completeIds (if obs.data.contradictory then
        ops.map fun op =>
          if op.id == obs.operation then { op with coverage := .malformed } else op
      else ops) → id ∈ completeIds ops := by
    intro id h
    split at h
    · obtain ⟨op, hop, rfl, hc⟩ := mem_completeIds.mp h
      obtain ⟨old, hold, rfl⟩ := List.mem_map.mp hop
      split at hc
      · cases hc
      · rename_i hne
        rw [if_neg hne]
        exact mem_completeIds.mpr ⟨old, hold, rfl, hc⟩
    · exact h
  unfold validateObservation at h
  dsimp only at h
  split at h
  · exact malformed id (completeIds_downgrade (by decide) h)
  · exact malformed id h

theorem completeIds_validateSource {freshness : Nat} {id : String}
    (h : id ∈ completeIds (validateSource result freshness now).operations) :
    id ∈ completeIds result.operations := by
  have key : ∀ (l : List Observation) (ops : List Operation),
      id ∈ completeIds (l.foldl (validateObservation freshness now) ops) →
      id ∈ completeIds ops := by
    intro l
    induction l with
    | nil => exact fun _ h => h
    | cons obs l ih => exact fun ops h => completeIds_validateObservation (ih _ h)
  exact key _ _ h

theorem completeIds_rewrite {id : String}
    (h : id ∈ completeIds (rewrite job result now).operations) :
    id ∈ completeIds result.operations := by
  unfold rewrite at h
  have := completeIds_validateSource h
  exact this

/-! ## Where observations come from -/

theorem mem_truncate {bytes assets : Nat} {obs : Observation}
    (h : obs ∈ (truncate host result bytes assets).observations) :
    obs ∈ result.observations := by
  unfold truncate at h
  dsimp only at h
  split at h
  · exact List.mem_of_mem_take h
  · exact h

theorem rewrite_observations :
    (rewrite job result now).observations
      = Recovery.consolidate ((Provenance.markRetries result.observations).map
          (SchedulePolicy.correlateObservation
            { result with observations := Provenance.markRetries result.observations })) :=
  rfl

/-- Rewriting keeps what an observation is about. -/
theorem mem_rewrite {obs : Observation} (h : obs ∈ (rewrite job result now).observations) :
    ∃ old ∈ result.observations, obs.Same old := by
  rw [rewrite_observations] at h
  obtain ⟨a, ha, hsame⟩ := Recovery.mem_consolidate h
  obtain ⟨b, hb, rfl⟩ := List.mem_map.mp ha
  obtain ⟨c, hc, rfl⟩ := List.mem_map.mp hb
  exact ⟨c, hc, (hsame.trans (SchedulePolicy.correlateObservation_same ..)).trans
    (Provenance.markRetry_same ..)⟩

theorem mem_limitAssets {obs : Observation}
    (h : obs ∈ (limitAssets snapshot job result).observations) :
    obs ∈ result.observations := by
  unfold limitAssets at h
  dsimp only at h
  split at h
  · exact List.mem_of_mem_take h
  · exact h

/-- The origins of an observation that is scanned: the reported result, the
result that is replaced, a cleared log finding, a stage of a flow, or an image
of a release job. -/
inductive Origin (snapshot : Snapshot) (job : Job) (result : CheckResult)
    (obs : Observation) : Prop where
  | given (old : Observation) (h : old ∈ result.observations) (same : obs.Same old)
  | kept (previous : CheckResult) (hp : snapshot.results[job.key]? = some previous)
      (old : Observation) (h : old ∈ previous.observations) (same : obs.Same old)
  | log (hcheck : job.check = .logs) (key : String) (finding : Finding)
      (hf : snapshot.findings[key]? = some finding)
      (hc : LogRecovery.concerns job finding = true)
      (same : obs.resource = finding.resource)
  | stage (hcheck : job.check = .flows) (hs : Flows.IsStageKey job obs.resource)
  | image (image : Observation) (hr : obs.resource = image.resource ++ "/provenance")
      (hroot : Text.startsWith image.resource job.target.root = true)
      (hfrom : image ∈ result.observations
        ∨ ∃ (key : String) (stored : CheckResult), snapshot.results[key]? = some stored
          ∧ image ∈ stored.observations)

theorem Origin.of_same {a b : Observation} (h : Origin snapshot job result a)
    (hsame : b.Same a) : Origin snapshot job result b := by
  cases h with
  | given old h same => exact .given old h (hsame.trans same)
  | kept previous hp old h same => exact .kept previous hp old h (hsame.trans same)
  | log hcheck key finding hf hc same =>
      exact .log hcheck key finding hf hc (hsame.resource.trans same)
  | stage hcheck hs => exact .stage hcheck (hsame.resource ▸ hs)
  | image image hr hroot hfrom => exact .image image (hsame.resource.trans hr) hroot hfrom

theorem derive_origin {obs : Observation}
    (h : obs ∈ (derive (register snapshot job) job result now clock).2.observations) :
    Origin snapshot job result obs := by
  unfold derive at h
  dsimp only at h
  by_cases hflows : job.check = .flows
  · have hrel : ¬ (job.check = .releases ∧ job.artifactOnly = false) := by
      rw [hflows]
      simp
    rw [if_neg hrel, if_pos hflows] at h
    obtain ⟨flow, hflow, _, stage, hstage, hr⟩ := Flows.evaluate_resources obs h
    exact .stage hflows ⟨flow, hflow, stage, hstage, hr⟩
  · rw [if_neg hflows] at h
    split at h
    · rcases Releases.mem_enrich h with h | ⟨image, hr, hroot, hfrom⟩
      · exact .given obs h (.refl _)
      · exact .image image hr hroot hfrom
    · exact .given obs h (.refl _)

theorem gather_origin {obs : Observation}
    (h : obs ∈ (gather host snapshot job result now clock).2.observations) :
    Origin snapshot job result obs := by
  have hsame := @derive_same (register snapshot job) job result now clock
  have retained : ∀ obs, obs ∈ (PartialResults.retain host job
      (derive (register snapshot job) job result now clock).1
      (derive (register snapshot job) job result now clock).2).observations →
      Origin snapshot job result obs := by
    intro obs h
    unfold PartialResults.retain at h
    split at h
    · exact derive_origin h
    · split at h
      · exact derive_origin h
      · rename_i previous hp
        rcases List.mem_append.mp h with h | h
        · exact derive_origin h
        · rw [hsame.results] at hp
          exact .kept previous hp obs
            ((PartialResults.kept_sublist ..).subset h) (.refl _)
  unfold gather at h
  dsimp only [LogRecovery.reconcile] at h
  split at h
  · exact retained obs h
  · rename_i hcheck
    rcases List.mem_append.mp h with h | h
    · exact retained obs h
    · rcases LogRecovery.mem_collect _ _ _ _ _ obs h with h | ⟨finding, hf, hc, hr⟩
      · cases h
      · obtain ⟨⟨key, f⟩, he, rfl⟩ := List.mem_map.mp hf
        have hkey := Table.mem_toList.mp he
        rw [hsame.findings] at hkey
        exact .log (by simpa using hcheck) key f hkey hc hr

namespace Application

variable {a : Application}

theorem prepared_result :
    (a.prepared host).2
      = rewrite a.job (truncate host (gather host a.before a.job a.result a.now a.clock).2
          (a.job.settings.memoryBytes / 2
            - otherBytes host (a.prepared host).1 a.job)
          a.job.settings.maxAssets) a.now := by
  unfold prepared
  rfl

theorem prepared_same : SameTables (a.prepared host).1 a.before := by
  unfold prepared
  exact prepare_same

theorem start_findings : (a.start host).findings = a.before.findings :=
  prepared_same.findings

theorem start_retired : (a.start host).retired = a.before.retired :=
  prepared_same.retired

theorem start_health : (a.start host).health = a.before.health :=
  prepared_same.health

theorem start_pressure : (a.start host).pressure = a.before.pressure :=
  prepared_same.pressure

theorem mem_stored {obs : Observation} (h : obs ∈ (a.stored host).observations) :
    obs ∈ (a.prepared host).2.observations := by
  rw [stored_observations, limited] at h
  exact mem_limitAssets h

/-- Every scanned observation has an origin. -/
theorem stored_origin {obs : Observation} (h : obs ∈ (a.stored host).observations) :
    Origin a.before a.job a.result obs := by
  have h := mem_stored h
  rw [prepared_result] at h
  obtain ⟨old, hold, hsame⟩ := mem_rewrite h
  exact (gather_origin (mem_truncate hold)).of_same hsame

end Application

end HealthMonitor.State
