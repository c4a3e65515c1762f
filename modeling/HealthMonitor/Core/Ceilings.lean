import HealthMonitor.Core.Runs
import HealthMonitor.Core.Settlement
import HealthMonitor.Core.Expiry

/-!
# Ceilings

The limits of the state: when all jobs of a run share their ceilings, every
state of the run is within them, and a pass that drops evidence for a limit
leaves no complete operation in the result it stores.
-/

namespace HealthMonitor

open State

variable {host : Host}

/-- The limits that the jobs of a run share. -/
structure Ceilings where
  assets : Nat
  findings : Nat
  memory : Nat

/-- The settings have these limits. -/
structure Ceilings.Of (c : Ceilings) (settings : Settings) : Prop where
  assets : settings.maxAssets = c.assets
  findings : settings.maxFindings = c.findings
  memory : settings.memoryBytes = c.memory

/-- The job has these limits, for itself and for its flows. -/
def Ceilings.Governs (c : Ceilings) (job : Job) : Prop :=
  c.Of job.settings ∧ ∀ settings, job.flowSettings = some settings → c.Of settings

theorem Ceilings.Governs.flowJob {c : Ceilings} {job : Job} (h : c.Governs job) :
    c.Governs (flowJob job) := by
  refine ⟨?_, h.2⟩
  show c.Of (job.flowSettings.getD job.settings)
  cases hs : job.flowSettings with
  | none => exact h.1
  | some settings => exact h.2 settings hs

/-! ## What is measured -/

/-- The observations of all stored results. -/
def Snapshot.assets (s : Snapshot) : Nat := s.results.total fun r => r.observations.length

/-- The state is within the limits. -/
structure Snapshot.Within (host : Host) (c : Ceilings) (s : Snapshot) : Prop where
  assets : s.assets ≤ c.assets
  findings : s.findings.size ≤ c.findings
  retired : s.retired.size ≤ c.findings
  progress : s.progress.size ≤ c.findings
  pressure : s.pressure.size ≤ c.assets
  diagnostics : diagnosticBytes host s.findings ≤ c.memory / 4

theorem new_within (c : Ceilings) (revision : String) (scope : List String) (clock : Time) :
    (State.new revision scope clock).Within host c :=
  ⟨Nat.zero_le _, Nat.zero_le _, Nat.zero_le _, Nat.zero_le _, Nat.zero_le _, Nat.zero_le _⟩

/-- Findings that keep their diagnostics are charged no more. -/
theorem diagnosticBytes_le {findings findings' : Table Finding}
    (h : ∀ (id : String) (f : Finding), findings'[id]? = some f →
      ∃ g, findings[id]? = some g ∧ f.diagnostic = g.diagnostic) :
    diagnosticBytes host findings' ≤ diagnosticBytes host findings := by
  refine Table.total_le_total fun id f hf => ?_
  obtain ⟨g, hg, hd⟩ := h id f hf
  exact ⟨g, hg, by rw [hd]⟩

theorem expire_within {c : Ceilings} {s : Snapshot} (h : s.Within host c) (freshness : Nat)
    (now : Time) : (expire s freshness now).1.Within host c where
  assets := by
    refine (Table.total_le_total fun key r hr => ?_).trans h.assets
    rw [expire_results] at hr
    obtain ⟨old, hold, rfl⟩ := Option.map_eq_some_iff.mp hr
    exact ⟨old, hold, Nat.le_refl _⟩
  findings := by rw [expire_findings_size]; exact h.findings
  retired := h.retired
  progress := h.progress
  pressure := h.pressure
  diagnostics := by
    refine (diagnosticBytes_le fun id f hf => ?_).trans h.diagnostics
    rw [expire_findings] at hf
    obtain ⟨g, hg, rfl⟩ := Option.map_eq_some_iff.mp hf
    refine ⟨g, hg, ?_⟩
    unfold age
    split <;> rfl

theorem evaluateFlows_within {c : Ceilings} {s : Snapshot} {job : Job} (h : s.Within host c)
    (hjob : c.Governs job) (now clock : Time) :
    (Flows.evaluate s job now clock).1.Within host c := by
  obtain ⟨progress, he, _, hsize⟩ := Flows.evaluate_snapshot s job now clock
  rw [he]
  rw [hjob.1.findings] at hsize
  exact ⟨h.assets, h.findings, h.retired, hsize h.progress, h.pressure, h.diagnostics⟩

namespace State

/-! ## The scan -/

/-- What the scan keeps within the limits. The diagnostic bytes that remain are
those that the findings leave. -/
structure Scan.Within (host : Host) (c : Ceilings) (scan : Scan) : Prop where
  findings : scan.findings.size ≤ c.findings
  pressure : scan.pressure.size ≤ c.assets
  diagnostics : State.diagnosticBytes host scan.findings + scan.diagnosticBytes
    ≤ c.memory / 4

variable {job : Job} {now : Time} {scan : Scan} {obs : Observation} {c : Ceilings}

theorem note_within (hjob : c.Of job.settings) (h : scan.Within host c) :
    (note host job now scan obs).Within host c := by
  refine ⟨h.findings, ?_, h.diagnostics⟩
  rw [note_pressure]
  unfold evaluated evaluateObservation
  have hsize := @Capacity.evaluate_size scan.pressure obs job.settings
    (scan.index.isComplete obs) now
  rw [hjob.assets] at hsize
  have hsize := hsize h.pressure
  split
  · split
    · rename_i hc
      rwa [hc] at hsize
    · rename_i hc
      rwa [hc] at hsize
  · exact h.pressure

/-- Admitting a diagnostic never needs more than the bytes that remain. -/
theorem admitted_remaining_le (d : Diagnostic) (remaining : Nat) :
    (d.admitted host none remaining).2 ≤ remaining := by
  unfold Diagnostic.admitted
  dsimp only
  split
  · simp [Diagnostic.charge]
  · exact Nat.le_refl _

theorem detect_within {prior : Option Observation} {finding : Finding}
    (hjob : c.Of job.settings) (h : scan.Within host c) :
    (detect host job now prior obs scan finding).Within host c := by
  have hid : (recorded host job prior obs scan finding).id = finding.id := rfl
  have hdiag : (recorded host job prior obs scan finding).diagnostic
      = (admission host job prior obs scan finding.id).1 := rfl
  have hadmit := Diagnostic.admitted_charge host
    (Diagnostic.capture obs prior scan.findings[finding.id]? (graceSeconds job obs))
    scan.findings[finding.id]? scan.diagnosticBytes
  unfold detect
  dsimp only
  generalize recorded host job prior obs scan finding = f at hid hdiag ⊢
  split
  · rename_i hrefuse
    refine ⟨h.findings, h.pressure, ?_⟩
    simp only [refuses, Bool.and_eq_true, Option.isNone_iff_eq_none] at hrefuse
    have hle : (admission host job prior obs scan finding.id).2 ≤ scan.diagnosticBytes := by
      rw [admission, hrefuse.1]
      exact admitted_remaining_le _ _
    have := h.diagnostics
    show diagnosticBytes host scan.findings
      + (admission host job prior obs scan finding.id).2 ≤ c.memory / 4
    omega
  · rename_i hroom
    refine ⟨?_, h.pressure, ?_⟩
    · show (scan.findings.insert f.id f).size ≤ c.findings
      by_cases hin : f.id ∈ scan.findings
      · rw [Table.size_insert_of_mem hin]
        exact h.findings
      · rw [Table.size_insert_of_notMem hin]
        have hnone : scan.findings[finding.id]? = none := by
          rw [← hid]
          exact Std.ExtTreeMap.getElem?_eq_none hin
        simp only [refuses, hnone, Option.isNone_none, Bool.true_and,
          decide_eq_true_eq, hjob.findings] at hroom
        omega
    · show diagnosticBytes host (scan.findings.insert f.id f)
        + (admission host job prior obs scan finding.id).2 ≤ c.memory / 4
      have htotal : diagnosticBytes host (scan.findings.insert f.id f)
          = Diagnostic.charge host f.diagnostic
            + Table.total (scan.findings.erase f.id) fun g =>
                Diagnostic.charge host g.diagnostic := Table.total_insert ..
      have hold : Diagnostic.charge host (scan.findings[finding.id]?.bind Finding.diagnostic)
          + Table.total (scan.findings.erase f.id)
              (fun g => Diagnostic.charge host g.diagnostic)
          ≤ diagnosticBytes host scan.findings := by
        rw [hid]
        cases hprev : scan.findings[finding.id]? with
        | some g =>
            exact Nat.le_of_eq (Table.total_erase_of_some hprev fun g =>
              Diagnostic.charge host g.diagnostic)
        | none =>
            have := Table.total_erase_le scan.findings finding.id fun g =>
              Diagnostic.charge host g.diagnostic
            simpa [Diagnostic.charge, State.diagnosticBytes] using this
      have := h.diagnostics
      rw [htotal, hdiag]
      rw [← admission] at hadmit
      omega

namespace Application

variable {a : Application}

theorem scanned_within (h : a.before.Within host c) (hjob : c.Governs a.job) :
    (a.scanned host).Within host c := by
  rw [scanned_eq]
  refine scan_rule (P := Scan.Within host c) ?_ ?_ ?_
  · exact fun s obs _ hs => note_within hjob.1 hs
  · exact fun s obs _ prior rule severity confidence hs => detect_within hjob.1 hs
  · refine ⟨?_, ?_, ?_⟩
    · rw [start_findings]
      exact h.findings
    · rw [start_pressure]
      exact h.pressure
    · have hstart : (a.start host).diagnosticBytes
          = c.memory / 4 - diagnosticBytes host a.before.findings := by
        rw [← hjob.1.memory, ← (@prepared_same host a).findings]
        rfl
      have := h.diagnostics
      rw [start_findings, hstart]
      omega

/-! ## The pass -/

/-- The other results leave room for the stored one. -/
theorem stored_assets (h : a.before.Within host c) (hjob : c.Governs a.job) :
    (a.stored host).observations.length
      + Table.total (a.before.results.erase a.job.key) (fun r => r.observations.length)
      ≤ c.assets := by
  have hother : otherAssets (a.prepared host).1 a.job
      = Table.total (a.before.results.erase a.job.key) fun r => r.observations.length := by
    rw [Table.total_erase, otherAssets, others, prepared_same.results, List.map_map]
    rfl
  have hle := (Table.total_erase_le a.before.results a.job.key fun r =>
    r.observations.length).trans h.assets
  rw [stored_observations, limited]
  unfold limitAssets
  dsimp only
  rw [hother, hjob.1.assets]
  split
  · rw [List.length_take]
    omega
  · omega

theorem retirement_within (h : (a.scanned host).Within host c) :
    (a.retirement host).findings.size ≤ c.findings
    ∧ diagnosticBytes host (a.retirement host).findings ≤ c.memory / 4 := by
  have hsettled : ∀ (id : String) (f : Finding), (a.retirement host).findings[id]? = some f →
      ∃ g, (a.scanned host).findings[id]? = some g ∧ f.diagnostic = g.diagnostic := by
    intro id f hf
    rw [retirement, retire_findings, settled] at hf
    split at hf
    · cases hf
    · rw [settle_entries] at hf
      obtain ⟨g, hg, rfl⟩ := Option.map_eq_some_iff.mp hf
      exact ⟨g, hg, (settleFinding_same ..).diagnostic⟩
  constructor
  · refine (Table.size_le_of_subset fun id hid => ?_).trans h.findings
    obtain ⟨f, hf⟩ := Table.mem_iff_getElem?.mp hid
    obtain ⟨g, hg, _⟩ := hsettled id f hf
    exact Table.mem_iff_getElem?.mpr ⟨g, hg⟩
  · have := @diagnosticBytes_le host _ _ hsettled
    have := h.diagnostics
    omega

theorem after_within (h : a.before.Within host c) (hjob : c.Governs a.job) :
    (a.after host).Within host c := by
  have hscanned := scanned_within h hjob
  have hretire := retirement_within hscanned
  rw [after_eq]
  refine expire_within ⟨?_, ?_, ?_, ?_, ?_, ?_⟩ _ _
  · have hstored := stored_assets h hjob
    rw [Snapshot.assets, pending_results, results, prepared_same.results, Table.total_insert]
    exact hstored
  · rw [pending_findings]
    exact hretire.1
  · rw [pending_retired, ← hjob.1.findings]
    exact trimRetired_size
  · rw [pending_progress, prepared]
    have hprogress := (@prepare_progress host a.before a.job a.result a.now a.clock).2
    rw [hjob.1.findings] at hprogress
    exact hprogress h.progress
  · rw [pending_pressure]
    exact (Table.size_retain_le _ _).trans hscanned.pressure
  · rw [pending_findings]
    exact hretire.2

end Application

end State

/-- Every pass of jobs with these limits keeps the state within them. -/
theorem passes_within (c : Ceilings) :
    (passes host).Preserves (Action.For c.Governs) (Snapshot.Within host c) := by
  intro s action hfor hs
  cases action with
  | collect job result now clock =>
      exact Application.after_within (a := { before := s, job, result, now, clock }) hs hfor
  | evaluateFlows job now clock => exact evaluateFlows_within hs hfor now clock
  | restoreSamples key samples =>
      exact ⟨hs.assets, hs.findings, hs.retired, hs.progress, hs.pressure, hs.diagnostics⟩
  | expire freshness now => exact expire_within hs freshness now

theorem monitor_within (c : Ceilings) :
    (monitor host).Preserves (fun step => ∀ job ∈ step.jobs, c.Governs job)
      (Snapshot.Within host c) := by
  intro s step hstep hs
  rw [perform_eq]
  exact (passes_within c).run
    (Step.actions_for (fun job hj => ⟨hstep job hj, (hstep job hj).flowJob⟩) s) hs

/-! ## What a pass drops -/

namespace State.Application

/-- What the limits of a pass are applied to: the reported evidence with what
was derived from it and retained beside it. -/
def gathered (host : Host) (a : Application) : CheckResult :=
  (gather host a.before a.job a.result a.now a.clock).2

/-- The pass drops evidence for a limit: the bytes or the assets cut the
gathered observations, the assets of the other results cut the prepared ones,
or a detected finding found no room. -/
inductive Drops (host : Host) (a : Application) : Prop where
  | bounded
      (h : (bound host (a.prepared host).1 a.job (a.gathered host)).observations.length
        < (a.gathered host).observations.length)
  | limited (h : (a.limited host).observations.length < (a.prepared host).2.observations.length)
  | refused (id : String) (h : id ∈ (a.scanned host).current)
      (hout : id ∉ (a.scanned host).findings)

instance (host : Host) (a : Application) : Decidable (a.Drops host) :=
  decidable_of_iff
    ((bound host (a.prepared host).1 a.job (a.gathered host)).observations.length
        < (a.gathered host).observations.length
      ∨ (a.limited host).observations.length < (a.prepared host).2.observations.length
      ∨ ∃ id ∈ (a.scanned host).current, id ∉ (a.scanned host).findings) <| by
    constructor
    · rintro (h | h | ⟨id, hid, hout⟩)
      · exact .bounded h
      · exact .limited h
      · exact .refused id hid hout
    · rintro (h | h | ⟨id, hid, hout⟩)
      · exact .inl h
      · exact .inr (.inl h)
      · exact .inr (.inr ⟨id, hid, hout⟩)

/-- The pass reads the observation from its result. A flow job derives its own
result, and a release job derives all provenance again. -/
def Reads (a : Application) (obs : Observation) : Prop :=
  a.job.check ≠ .flows
    ∧ (a.job.check = .releases → a.job.artifactOnly = true ∨ Releases.isProvenance obs.data = false)

variable {a : Application}

theorem prepared_eq : (a.prepared host).2
    = rewrite a.job (bound host (a.prepared host).1 a.job (a.gathered host)) a.now :=
  prepared_result

/-- What is read reaches the limits. -/
theorem mem_gathered {obs : Observation} (h : obs ∈ a.result.observations)
    (hread : a.Reads obs) : obs ∈ (a.gathered host).observations := by
  have hderive : obs ∈ (derive (register a.before a.job) a.job a.result a.now
      a.clock).2.observations := by
    unfold derive
    dsimp only
    rw [if_neg hread.1]
    split
    · rename_i hrelease
      refine List.mem_append_left _ (List.mem_filter.mpr ⟨h, ?_⟩)
      rcases hread.2 hrelease.1 with hartifact | hprovenance
      · rw [hrelease.2] at hartifact
        cases hartifact
      · simp [hprovenance]
    · exact h
  have hretain : ∀ snapshot (result : CheckResult), obs ∈ result.observations →
      obs ∈ (PartialResults.retain host a.job snapshot result).observations := by
    intro snapshot result h
    unfold PartialResults.retain
    split
    · exact h
    · split
      · exact h
      · exact List.mem_append_left _ h
  have hreconcile : ∀ snapshot (result : CheckResult), obs ∈ result.observations →
      obs ∈ (LogRecovery.reconcile a.job snapshot result).observations := by
    intro snapshot result h
    unfold LogRecovery.reconcile
    split
    · exact h
    · exact List.mem_append_left _ h
  exact hreconcile _ _ (hretain _ _ hderive)

theorem completeIds_limited {id : String}
    (h : id ∈ completeIds (a.limited host).operations) :
    id ∈ completeIds (a.prepared host).2.operations := by
  rw [limited] at h
  unfold limitAssets at h
  dsimp only at h
  split at h
  · rw [completeIds_truncateOperations] at h
    cases h
  · exact h

theorem stored_operations_limited {id : String}
    (h : id ∈ completeIds (a.stored host).operations) :
    (a.stored host).operations = (a.limited host).operations := by
  have hstart : (a.start host).operations = (a.limited host).operations := rfl
  rw [stored_operations, scanned_eq] at h ⊢
  rcases @scan_operations host a.job a.now (a.start host) (a.limited host).observations
    with he | he
  · rw [he, hstart]
  · rw [he, completeIds_truncateOperations] at h
    cases h

theorem completeIds_stored {id : String} (h : id ∈ completeIds (a.stored host).operations) :
    id ∈ completeIds (a.limited host).operations :=
  stored_operations_limited h ▸ h

/-- A refused finding leaves no operation complete. -/
theorem scanned_refused {id : String} (h : id ∈ (a.scanned host).current)
    (hout : id ∉ (a.scanned host).findings) :
    completeIds (a.scanned host).operations = [] := by
  have hinv : completeIds (a.scanned host).operations = []
      ∨ ∀ id ∈ (a.scanned host).current, id ∈ (a.scanned host).findings := by
    rw [scanned_eq]
    refine scan_rule (P := fun s => completeIds s.operations = []
      ∨ ∀ id ∈ s.current, id ∈ s.findings) ?_ ?_ ?_
    · exact fun s obs _ ih => ih
    · intro s obs _ prior rule severity confidence ih
      rw [detect_operations, detect_current]
      by_cases hrefuse : refuses a.job s.findings
          (Policy.faultFinding obs rule severity confidence).id = true
      · rw [if_pos hrefuse]
        exact .inl (completeIds_truncateOperations _)
      · rw [if_neg hrefuse]
        rcases ih with ih | ih
        · exact .inl ih
        · right
          intro id hid
          unfold detect
          dsimp only
          rw [if_neg hrefuse]
          rw [Std.ExtTreeMap.mem_insert]
          rcases List.mem_cons.mp hid with rfl | hid
          · exact .inl (by simp [recorded, stamp])
          · exact .inr (ih id hid)
    · exact .inr fun id hid => by cases hid
  rcases hinv with hnone | hall
  · exact hnone
  · exact absurd (hall id h) hout

/-- A pass that drops evidence completes nothing. -/
theorem completeIds_of_drops (h : a.Drops host) :
    completeIds (a.stored host).operations = [] := by
  rw [List.eq_nil_iff_forall_not_mem]
  intro id hid
  cases h with
  | bounded h =>
      have hprepared := completeIds_limited (completeIds_stored hid)
      rw [prepared_eq] at hprepared
      have hbound := completeIds_rewrite hprepared
      unfold bound truncate at h hbound
      dsimp only at h hbound
      split at hbound
      · rw [completeIds_truncateOperations] at hbound
        cases hbound
      · rename_i hkeep
        rw [if_neg hkeep] at h
        omega
  | limited h =>
      have hlimited := completeIds_stored hid
      rw [limited] at h hlimited
      unfold limitAssets at h hlimited
      dsimp only at h hlimited
      split at hlimited
      · rw [completeIds_truncateOperations] at hlimited
        cases hlimited
      · rename_i hkeep
        rw [if_neg hkeep] at h
        omega
  | refused other hin hout =>
      rw [stored_operations, scanned_refused hin hout] at hid
      cases hid

/-- A pass that drops nothing scans everything it gathered, rewritten. -/
theorem limited_of_not_drops (h : ¬ a.Drops host) :
    a.limited host = rewrite a.job (a.gathered host) a.now := by
  have hbound : bound host (a.prepared host).1 a.job (a.gathered host) = a.gathered host := by
    have hnot := mt (@Drops.bounded host a) h
    unfold bound truncate at hnot ⊢
    dsimp only at hnot ⊢
    split
    · rename_i hcut
      rw [if_pos hcut, List.length_take] at hnot
      omega
    · rfl
  have hlimited : a.limited host = (a.prepared host).2 := by
    have hnot := mt (@Drops.limited host a) h
    rw [limited] at hnot ⊢
    unfold limitAssets at hnot ⊢
    dsimp only at hnot ⊢
    split
    · rename_i hcut
      rw [if_pos hcut, List.length_take] at hnot
      omega
    · rfl
  rw [hlimited, prepared_eq, hbound]

/-- A pass that drops nothing stores everything it gathered, rewritten. -/
theorem stored_of_not_drops (h : ¬ a.Drops host) :
    (a.stored host).observations = (rewrite a.job (a.gathered host) a.now).observations := by
  rw [stored_observations, limited_of_not_drops h]

/-- What the state holds of the stored result. -/
theorem after_result : (a.after host).results[a.job.key]?
    = some (expiredResult (limitAt (a.pending host) a.job.settings.freshness a.job.key) a.now
        (a.pending host).health (a.stored host)) := by
  rw [after_eq, expire_results, pending_results, results, Std.ExtTreeMap.getElem?_insert_self]
  rfl

end State.Application

/-- Every state of a run whose jobs share their ceilings is within them. A pass
that drops an observation or a finding for a limit stores no complete
operation; one that drops nothing stores all it gathered, and it gathers all it
reads. -/
theorem within_ceilings (host : Host) (c : Ceilings) (revision : String)
    (scope : List String) (clock : Time) (steps : List Step)
    (h : ∀ step ∈ steps, ∀ job ∈ step.jobs, c.Governs job) :
    (∀ s ∈ (monitor host).states (State.new revision scope clock) steps, s.Within host c)
    ∧ ∀ a, .applied a ∈ journal host (State.new revision scope clock) steps →
        (a.Drops host → ∀ r, (a.after host).results[a.job.key]? = some r →
          ∀ op ∈ r.operations, op.coverage ≠ .complete)
        ∧ (¬ a.Drops host →
          (a.stored host).observations = (rewrite a.job (a.gathered host) a.now).observations
          ∧ ∀ obs ∈ a.result.observations, a.Reads obs →
              obs ∈ (a.gathered host).observations) := by
  refine ⟨(monitor_within c).states h (new_within c revision scope clock), fun a _ => ⟨?_, ?_⟩⟩
  · intro hdrops r hr op hop hc
    rw [Application.after_result, Option.some.injEq] at hr
    subst hr
    have hid := mem_completeIds.mpr ⟨op, hop, rfl, hc⟩
    obtain ⟨old, hold, holdid, holdc, _⟩ := mem_completeIds_expired.mp hid
    have : op.id ∈ completeIds (a.stored host).operations :=
      mem_completeIds.mpr ⟨old, hold, holdid, holdc⟩
    rw [Application.completeIds_of_drops hdrops] at this
    cases this
  · exact fun hnot => ⟨Application.stored_of_not_drops hnot,
      fun obs hobs hread => Application.mem_gathered hobs hread⟩

namespace Sample

def tight : Ceilings := { assets := 1, findings := 1, memory := 268435456 }

/-- There is room for one observation and for one finding. -/
def cramped : Job :=
  { job .managed with settings := { Settings.default with maxAssets := 1, maxFindings := 1 } }

/-- Two resources are reported. -/
def crowd : CheckResult :=
  result .managed (sec 1) [operation "services" (sec 1)]
    [condition "app/api" "services" (sec 1) false, condition "app/web" "services" (sec 1) false]

def crowding : State.Application :=
  { before := start, job := cramped, result := crowd, now := sec 1, clock := sec 1 }

end Sample

/-- A pass at its ceilings drops a resource, and none of its operations is complete. -/
theorem within_ceilings_tight :
    (∀ s ∈ (monitor Sample.machine).states Sample.start
        [.apply Sample.cramped Sample.crowd (Sample.sec 1) (Sample.sec 1)],
      s.Within Sample.machine Sample.tight)
    ∧ Sample.crowding.Drops Sample.machine
    ∧ ((Sample.crowding.after Sample.machine).results[Sample.cramped.key]?).map
        (fun r => r.observations.map (·.resource)) = some ["app/api"]
    ∧ ∀ r, (Sample.crowding.after Sample.machine).results[Sample.cramped.key]? = some r →
      ∀ op ∈ r.operations, op.coverage ≠ .complete := by
  have hjobs : ∀ step ∈ [Step.apply Sample.cramped Sample.crowd (Sample.sec 1) (Sample.sec 1)],
      ∀ job ∈ step.jobs, Sample.tight.Governs job := by
    intro step hstep job hjob
    rw [List.mem_singleton] at hstep
    subst hstep
    rw [Step.jobs, List.mem_singleton] at hjob
    subst hjob
    refine ⟨⟨rfl, rfl, rfl⟩, fun settings hsettings => ?_⟩
    have hnone : Sample.cramped.flowSettings = none := rfl
    rw [hnone] at hsettings
    cases hsettings
  obtain ⟨hwithin, hpasses⟩ :=
    within_ceilings Sample.machine Sample.tight "" ["app"] 0 _ hjobs
  have hdrops : Sample.crowding.Drops Sample.machine := by decide +kernel
  refine ⟨hwithin, hdrops, by decide +kernel, (hpasses Sample.crowding ?_).1 hdrops⟩
  have hpass := @journal_apply Sample.machine Sample.start Sample.cramped Sample.crowd
    (Sample.sec 1) (Sample.sec 1) rfl
  exact hpass ▸ List.mem_singleton_self _

end HealthMonitor
