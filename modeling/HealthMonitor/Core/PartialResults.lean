import HealthMonitor.Core.EvaluationIndex

/-!
# PartialResults

What a result takes over from the stored state before it is scanned: failed
refreshes retain earlier evidence without granting it complete current
coverage, and historical diagnostic findings receive a clearing observation
only from a distinct, complete replacement window.
-/

namespace HealthMonitor

/-! ## Retained observations -/

namespace PartialResults

/-- Not collected again, under an operation that did not complete. -/
def eligible (result : CheckResult) (obs : Observation) : Bool :=
  !(result.observations.any (·.resource == obs.resource)) && !result.backs obs

/-- The observations of the previous result that are kept, until the assets or
the bytes run out. -/
def kept (host : Host) (settings : Settings) (result : CheckResult) :
    Nat → Nat → List Observation → List Observation
  | _, _, [] => []
  | available, count, obs :: rest =>
      if settings.maxAssets ≤ count then []
      else if eligible result obs then
        let bytes := observationBytes host obs + 1024
        if available < bytes then []
        else obs :: kept host settings result (available - bytes) (count + 1) rest
      else kept host settings result available count rest

/-- One previous operation: kept as `Stale` when it owns a retained
observation and the result does not name it. -/
def keepOperation (retained : List Observation) (ops : List Operation)
    (op : Operation) : List Operation :=
  if retained.any (·.operation == op.id) && !ops.any (·.id == op.id) then
    ops ++ [{ op with coverage := .stale }]
  else ops

def retain (host : Host) (job : Job) (snapshot : Snapshot) (result : CheckResult) :
    CheckResult :=
  if result.operations.all (·.coverage == .complete) then result
  else
    match snapshot.results[job.key]? with
    | none => result
    | some previous =>
        let retained := kept host job.settings result
          (job.settings.memoryBytes / 4 - resultBytes host result)
          result.observations.length previous.observations
        { result with
          observations := result.observations ++ retained
          operations := previous.operations.foldl (keepOperation retained) result.operations }

theorem kept_sublist (host : Host) (settings : Settings) (result : CheckResult)
    (l : List Observation) : ∀ available count : Nat,
    (kept host settings result available count l).Sublist l := by
  induction l with
  | nil => intro _ _; exact .slnil
  | cons obs rest ih =>
      intro available count
      simp only [kept]
      split
      · exact List.nil_sublist _
      · split
        · split
          · exact List.nil_sublist _
          · exact (ih _ _).cons_cons obs
        · exact (ih _ _).cons obs

theorem kept_eligible (host : Host) (settings : Settings) (result : CheckResult)
    (l : List Observation) : ∀ available count : Nat,
    ∀ obs ∈ kept host settings result available count l, eligible result obs = true := by
  induction l with
  | nil => intro _ _ obs h; cases h
  | cons o rest ih =>
      intro available count obs h
      simp only [kept] at h
      split at h
      · cases h
      · split at h
        · rename_i he
          split at h
          · cases h
          · rcases List.mem_cons.mp h with rfl | h
            · exact he
            · exact ih _ _ obs h
        · exact ih _ _ obs h

/-- What a result reports itself is not retained. -/
theorem not_eligible {result : CheckResult} {obs : Observation}
    (h : obs ∈ result.observations) : eligible result obs = false := by
  have hreported : result.observations.any (·.resource == obs.resource) = true :=
    List.any_eq_true.mpr ⟨obs, h, beq_self_eq_true _⟩
  rw [eligible, hreported]
  rfl

/-- An operation is kept as `Stale` or was there. -/
theorem mem_keepOperations {retained : List Observation} {previous ops : List Operation}
    {op : Operation} (h : op ∈ previous.foldl (keepOperation retained) ops) :
    op ∈ ops ∨ op.coverage = .stale := by
  induction previous generalizing ops with
  | nil => exact .inl h
  | cons first previous ih =>
      rcases ih h with h | h
      · rw [keepOperation] at h
        split at h
        · rcases List.mem_append.mp h with h | h
          · exact .inl h
          · rw [List.mem_singleton.mp h]
            exact .inr rfl
        · exact .inl h
      · exact .inr h

/-- What a complete operation backs after retention was in the result before. -/
theorem mem_of_backs {host : Host} {job : Job} {snapshot : Snapshot} {result : CheckResult}
    {obs : Observation} (h : obs ∈ (retain host job snapshot result).observations)
    (hbacks : (retain host job snapshot result).backs obs = true) : obs ∈ result.observations := by
  unfold retain at h hbacks
  split at h
  · exact h
  · next hincomplete =>
      rw [if_neg hincomplete] at hbacks
      split at h
      · exact h
      · next previous hprevious =>
          rw [hprevious] at hbacks
          rcases List.mem_append.mp h with h | h
          · exact h
          · have heligible := kept_eligible _ _ _ _ _ _ obs h
            rw [eligible, Bool.and_eq_true, Bool.not_eq_true', Bool.not_eq_true'] at heligible
            obtain ⟨op, hop, hcomplete⟩ := List.any_eq_true.mp hbacks
            rcases mem_keepOperations hop with hop | hstale
            · have : result.backs obs = true := List.any_eq_true.mpr ⟨op, hop, hcomplete⟩
              rw [heligible.2] at this
              cases this
            · simp [hstale] at hcomplete

end PartialResults

/-! ## Log windows -/

namespace LogRecovery

/-- A complete, gapless window that ends after the finding was last seen,
under a complete operation of its evidence. -/
def replaces (result : CheckResult) (finding : Finding) (obs : Observation) : Bool :=
  finding.evidence.contains obs.operation
    && (match obs.data with
        | .logWindow window =>
            window.complete && window.gapSeconds == 0 && finding.observedAt < window.stop
        | _ => false)
    && result.backs obs

/-- The signature of the stored log observation of a resource. -/
def signature (previous : Option CheckResult) (resource : String) : LogClass :=
  ((previous.bind fun result => result.observations.find? (·.resource == resource)).bind
    fun obs =>
      match obs.data with
      | .log log => some log.signature
      | _ => none).getD .otherError

/-- The observation that reports no more occurrences in the window. -/
def clearing (previous : Option CheckResult) (finding : Finding) (window : Observation) :
    Observation :=
  { resource := finding.resource
    operation := window.operation
    observedAt := window.observedAt
    expected := finding.expected
    data := .log
      { signature := signature previous finding.resource
        count := 0
        firstSeen := finding.observedAt
        lastSeen := finding.observedAt
        sampled := false } }

/-- A historical diagnostic finding of the job's target. -/
def concerns (job : Job) (finding : Finding) : Bool :=
  finding.rule == "runtime-failure-sample"
    && Text.startsWith finding.resource job.target.root

/-- The clearing observations for the findings in key order, after `clears`. -/
def collect (job : Job) (previous : Option CheckResult) (result : CheckResult) :
    List Observation → List Finding → List Observation
  | clears, [] => clears
  | clears, finding :: rest =>
      if !concerns job finding
          || result.observations.any (·.resource == finding.resource) then
        collect job previous result clears rest
      else
        match result.observations.find? (replaces result finding) with
        | none => collect job previous result clears rest
        | some window =>
            if job.settings.maxAssets ≤ result.observations.length + clears.length then
              clears
            else
              collect job previous result (clears ++ [clearing previous finding window]) rest

def reconcile (job : Job) (snapshot : Snapshot) (result : CheckResult) : CheckResult :=
  if job.check ≠ .logs then result
  else
    { result with
      observations := result.observations
        ++ collect job snapshot.results[job.key]? result []
            (snapshot.findings.toList.map Prod.snd) }

/-- Every clearing observation is about a stored finding of the job's target. -/
theorem mem_collect (job : Job) (previous : Option CheckResult) (result : CheckResult)
    (findings : List Finding) : ∀ clears : List Observation,
    ∀ obs ∈ collect job previous result clears findings,
      obs ∈ clears ∨ ∃ finding ∈ findings, concerns job finding = true
        ∧ obs.resource = finding.resource := by
  induction findings with
  | nil => intro clears obs h; exact .inl h
  | cons finding rest ih =>
      intro clears obs h
      have weaken : ∀ clears, obs ∈ collect job previous result clears rest →
          obs ∈ clears ∨ ∃ f ∈ finding :: rest, concerns job f = true
            ∧ obs.resource = f.resource := by
        intro clears h
        rcases ih clears obs h with h | ⟨f, hf, hc⟩
        · exact .inl h
        · exact .inr ⟨f, by simp [hf], hc⟩
      simp only [collect] at h
      split at h
      · exact weaken _ h
      · rename_i hcond
        have hconcerns : concerns job finding = true := by
          simp only [Bool.or_eq_true, Bool.not_eq_true', not_or] at hcond
          simpa using hcond.1
        split at h
        · exact weaken _ h
        · split at h
          · exact .inl h
          · rcases weaken _ h with h | h
            · rcases List.mem_append.mp h with h | h
              · exact .inl h
              · rw [List.mem_singleton.mp h]
                exact .inr ⟨finding, by simp, hconcerns, rfl⟩
            · exact .inr h

end LogRecovery

end HealthMonitor
