import HealthMonitor.Core.EvaluationIndex

/-!
# Correlation

The three rewriting passes over the observations of one result: builds that a
later success supersedes, schedules that a completed job of the same controller
satisfies, and recovery points consolidated per resource. None of them names a
resource that the result does not name already.
-/

namespace HealthMonitor

/-- `Option<DateTime>::max`: an absent instant is least. -/
def optionMax : Option Time → Option Time → Option Time
  | none, b => b
  | a, none => a
  | some a, some b => some (max a b)

/-! ## Retries -/

namespace Provenance

/-- The provider scope of an observation: its target and the context part of
its operation. -/
def scope (obs : Observation) : String :=
  let target := Text.head obs.resource '/'
  let parts := Text.split obs.operation '/'
  let context :=
    if parts.headD "" = "workflows" then String.intercalate "/" (parts.tail.take 2)
    else parts.tail.headD "global"
  target ++ "/" ++ context

/-- Whether a build succeeded in the same scope, pipeline, revision and target
after the given instant. -/
def succeededAfter (observations : List Observation) (failed : Observation)
    (build : Build) (created : Time) : Bool :=
  observations.any fun obs =>
    match obs.data with
    | .build b =>
        b.state == .ready && b.pipeline ≠ "" && b.revision ≠ "" && b.target ≠ ""
          && scope obs == scope failed && b.pipeline == build.pipeline
          && b.revision == build.revision && b.target == build.target
          && b.createdAt.any (created < ·)
    | _ => false

/-- One failed build, superseded by a later success or not. -/
def markRetry (observations : List Observation) (obs : Observation) : Observation :=
  match obs.data with
  | .build b =>
      if b.state ≠ .failed then obs
      else
        match b.createdAt with
        | none => obs
        | some created =>
            { obs with
              data := .build { b with
                superseded := succeededAfter observations obs b created } }
  | _ => obs

/-- Retry correlation requires the same pipeline, revision, target, and
provider scope. -/
def markRetries (observations : List Observation) : List Observation :=
  observations.map (markRetry observations)

end Provenance

/-! ## Schedules -/

namespace SchedulePolicy

/-- Controllers by resource: their uid and the uid of their owner. -/
def owners (result : CheckResult) : Table (String × Option String) :=
  result.observations.foldl (fun table obs =>
    match obs.data, Text.stripSuffix obs.resource "/owner" with
    | .owner uid ownerUid, some resource =>
        if result.backs obs then table.insert resource (uid, ownerUid) else table
    | _, _ => table) ∅

/-- Completed jobs by the uid of their owner: the latest scheduled and the
latest completion instants. -/
def completions (result : CheckResult) : Table (Option Time × Time) :=
  result.observations.foldl (fun table obs =>
    match obs.data, (owners result)[obs.resource]? with
    | .job run, some (_, some owner) =>
        match run.completedAt with
        | some completed =>
            if run.complete && !run.failed && result.backs obs then
              match table[owner]? with
              | some entry =>
                  table.insert owner (optionMax entry.1 run.scheduledAt, max entry.2 completed)
              | none => table.insert owner (run.scheduledAt, completed)
            else table
        | none => table
    | _, _ => table) ∅

def correlateObservation (result : CheckResult) (obs : Observation) : Observation :=
  match obs.data, (owners result)[obs.resource]? with
  | .schedule s, some (uid, _) =>
      match (completions result)[uid]? with
      | some (scheduled, completed) =>
          { obs with
            data := .schedule { s with
              lastSuccess := optionMax s.lastSuccess (some completed)
              lastSchedule := optionMax s.lastSchedule scheduled } }
      | none => obs
  | _, _ => obs

/-- A recreated controller cannot inherit a successful Job owned by its
previous UID. -/
def correlate (result : CheckResult) : CheckResult :=
  { result with observations := result.observations.map (correlateObservation result) }

end SchedulePolicy

/-! ## Recovery points -/

namespace Recovery

/-- The consolidated record: the later attempt, with the later success. -/
def merge (old : Observation) (previous : Recovery) (obs : Observation)
    (recovery : Recovery) : Observation :=
  let combined := optionMax previous.lastSuccess recovery.lastSuccess
  if optionLt previous.lastAttempt recovery.lastAttempt then
    { obs with data := .recovery { recovery with lastSuccess := combined } }
  else { old with data := .recovery { previous with lastSuccess := combined } }

/-- Merge a recovery point into the first one of its resource, or append it. -/
def mergeInto (obs : Observation) (recovery : Recovery) :
    List Observation → List Observation
  | [] => [obs]
  | old :: rest =>
      match old.data with
      | .recovery previous =>
          if old.resource = obs.resource then merge old previous obs recovery :: rest
          else old :: mergeInto obs recovery rest
      | _ => old :: mergeInto obs recovery rest

def consolidateStep (output : List Observation) (obs : Observation) :
    List Observation :=
  match obs.data with
  | .recovery recovery => mergeInto obs recovery output
  | _ => output ++ [obs]

/-- Consolidate recovery points per resource, preserving the latest attempt
and latest success. -/
def consolidate (observations : List Observation) : List Observation :=
  observations.foldl consolidateStep []

end Recovery

/-! ## The passes keep what an observation is about -/

/-- Two observations with the same resource, operation, instant, expectation
and context. -/
structure Observation.Same (a b : Observation) : Prop where
  context : a.context = b.context
  resource : a.resource = b.resource
  operation : a.operation = b.operation
  observedAt : a.observedAt = b.observedAt
  expected : a.expected = b.expected

theorem Observation.Same.refl (a : Observation) : Same a a :=
  ⟨rfl, rfl, rfl, rfl, rfl⟩

theorem Observation.Same.trans {a b c : Observation} (h : Same a b) (h' : Same b c) :
    Same a c :=
  ⟨h.context.trans h'.context, h.resource.trans h'.resource,
    h.operation.trans h'.operation, h.observedAt.trans h'.observedAt,
    h.expected.trans h'.expected⟩

open Observation (Same)

theorem Provenance.markRetry_same (observations : List Observation) (obs : Observation) :
    Same (markRetry observations obs) obs := by
  unfold markRetry
  split
  · split
    · exact .refl _
    · split
      · exact .refl _
      · exact ⟨rfl, rfl, rfl, rfl, rfl⟩
  · exact .refl _

theorem SchedulePolicy.correlateObservation_same (result : CheckResult)
    (obs : Observation) : Same (correlateObservation result obs) obs := by
  unfold correlateObservation
  split
  · split
    · exact ⟨rfl, rfl, rfl, rfl, rfl⟩
    · exact .refl _
  · exact .refl _

/-- Every consolidated observation is one that was given, up to its data. -/
theorem Recovery.mem_mergeInto (obs : Observation) (recovery : Recovery) :
    ∀ (output : List Observation), ∀ o ∈ mergeInto obs recovery output,
      Same o obs ∨ ∃ old ∈ output, Same o old := by
  intro output
  induction output with
  | nil =>
      intro o h
      rw [mergeInto, List.mem_singleton] at h
      exact .inl (h ▸ .refl _)
  | cons old rest ih =>
      intro o h
      have later : o ∈ old :: mergeInto obs recovery rest →
          Same o obs ∨ ∃ a ∈ old :: rest, Same o a := by
        intro h
        rcases List.mem_cons.mp h with rfl | h
        · exact .inr ⟨o, by simp, .refl _⟩
        · rcases ih o h with h | ⟨a, ha, h⟩
          · exact .inl h
          · exact .inr ⟨a, by simp [ha], h⟩
      simp only [mergeInto] at h
      split at h
      · split at h
        · rcases List.mem_cons.mp h with rfl | h
          · unfold merge
            dsimp only
            split
            · exact .inl ⟨rfl, rfl, rfl, rfl, rfl⟩
            · exact .inr ⟨old, by simp, ⟨rfl, rfl, rfl, rfl, rfl⟩⟩
          · exact .inr ⟨o, by simp [h], .refl _⟩
        · exact later h
      · exact later h

theorem Recovery.mem_consolidate {observations : List Observation} {o : Observation}
    (h : o ∈ consolidate observations) : ∃ a ∈ observations, Same o a := by
  have key : ∀ o ∈ consolidate observations, ∃ a ∈ observations, Same o a := by
    refine List.foldlRecOn (motive := fun output => ∀ o ∈ output, ∃ a ∈ observations, Same o a)
      observations consolidateStep ?_ ?_
    · intro o h
      cases h
    · intro output ih obs hobs o h
      unfold consolidateStep at h
      split at h
      · rcases mem_mergeInto _ _ _ o h with h | ⟨a, ha, h⟩
        · exact ⟨obs, hobs, h⟩
        · obtain ⟨b, hb, hab⟩ := ih a ha
          exact ⟨b, hb, h.trans hab⟩
      · rcases List.mem_append.mp h with h | h
        · exact ih o h
        · rw [List.mem_singleton.mp h]
          exact ⟨obs, hobs, .refl _⟩
  exact key o h

/-- Merging loses no resource. -/
theorem Recovery.resource_mergeInto (obs : Observation) (recovery : Recovery)
    (output : List Observation) {resource : String}
    (h : obs.resource = resource ∨ ∃ o ∈ output, o.resource = resource) :
    ∃ o ∈ mergeInto obs recovery output, o.resource = resource := by
  induction output with
  | nil =>
      rcases h with h | ⟨o, ho, _⟩
      · exact ⟨obs, List.mem_singleton_self _, h⟩
      · cases ho
  | cons old rest ih =>
      -- the head stays, unless the record is merged into it
      have later : ∃ o ∈ old :: mergeInto obs recovery rest, o.resource = resource := by
        by_cases hold : old.resource = resource
        · exact ⟨old, List.mem_cons_self, hold⟩
        · obtain ⟨o, ho, hr⟩ := ih (h.imp_right fun hmem => by
            obtain ⟨o, ho, hr⟩ := hmem
            rcases List.mem_cons.mp ho with rfl | ho
            · exact absurd hr hold
            · exact ⟨o, ho, hr⟩)
          exact ⟨o, List.mem_cons_of_mem _ ho, hr⟩
      simp only [mergeInto]
      split
      · rename_i previous _
        split
        · rename_i heq
          have hmerge : (merge old previous obs recovery).resource = obs.resource := by
            unfold merge
            dsimp only
            split
            · rfl
            · exact heq
          rcases h with h | ⟨o, ho, hr⟩
          · exact ⟨_, List.mem_cons_self, hmerge.trans h⟩
          · rcases List.mem_cons.mp ho with rfl | ho
            · exact ⟨_, List.mem_cons_self, hmerge.trans (heq.symm.trans hr)⟩
            · exact ⟨o, List.mem_cons_of_mem _ ho, hr⟩
        · exact later
      · exact later

/-- Consolidation loses no resource. -/
theorem Recovery.resource_consolidate {observations : List Observation} {obs : Observation}
    (h : obs ∈ observations) : ∃ o ∈ consolidate observations, o.resource = obs.resource := by
  have key : ∀ (l output : List Observation),
      (obs ∈ l ∨ ∃ o ∈ output, o.resource = obs.resource) →
      ∃ o ∈ l.foldl consolidateStep output, o.resource = obs.resource := by
    intro l
    induction l with
    | nil =>
        intro output h
        rcases h with h | h
        · cases h
        · exact h
    | cons next l ih =>
        intro output h
        refine ih _ ?_
        rcases h with h | ⟨o, ho, hr⟩
        · rcases List.mem_cons.mp h with rfl | h
          · right
            unfold consolidateStep
            split
            · exact resource_mergeInto _ _ _ (.inl rfl)
            · exact ⟨obs, by simp, rfl⟩
          · exact .inl h
        · right
          unfold consolidateStep
          split
          · exact resource_mergeInto _ _ _ (.inr ⟨o, ho, hr⟩)
          · exact ⟨o, List.mem_append_left _ ho, hr⟩
  exact key observations [] (.inl h)

theorem Recovery.length_mergeInto (obs : Observation) (recovery : Recovery)
    (output : List Observation) :
    (mergeInto obs recovery output).length ≤ output.length + 1 := by
  induction output with
  | nil => simp [mergeInto]
  | cons old rest ih =>
      simp only [mergeInto]
      split
      · split
        · simp
        · simpa using ih
      · simpa using ih

theorem Recovery.length_consolidate (observations : List Observation) :
    (consolidate observations).length ≤ observations.length := by
  have key : ∀ (l output : List Observation),
      (l.foldl consolidateStep output).length ≤ output.length + l.length := by
    intro l
    induction l with
    | nil => intro output; simp
    | cons obs l ih =>
        intro output
        refine (ih _).trans ?_
        have hstep : (consolidateStep output obs).length ≤ output.length + 1 := by
          unfold consolidateStep
          split
          · exact length_mergeInto ..
          · simp
        simp only [List.length_cons]
        omega
  simpa [consolidate] using key observations []

end HealthMonitor
