import HealthMonitor.Core.Authority
import HealthMonitor.Core.Ceilings
import HealthMonitor.Core.Rewriting
import HealthMonitor.Core.Trust

/-!
# Rollout

What a stored release result says of the images, pass after pass. The verdicts are
stripped and derived again for the images that are observed; then the limits, the
passes over the observations and the validation see them, as any other evidence.
-/

namespace HealthMonitor

/-! ## Lowered operations -/

/-- An operation as it was, or no longer complete for what its observations show. -/
structure Lowered (limit : Nat) (now : Time) (observations : List Observation)
    (op after : Operation) : Prop where
  same : after = { op with coverage := after.coverage }
  coverage : after.coverage = op.coverage
    ∨ (op.coverage = .complete ∧ after.coverage = .stale
      ∧ (numSeconds now op.observedAt > limit
        ∨ ∃ obs ∈ observations, obs.operation = op.id ∧ State.outdated limit now obs = true))
    ∨ (after.coverage = .malformed
      ∧ ∃ obs ∈ observations, obs.operation = op.id ∧ obs.data.contradictory = true)

section Lowered

variable {limit : Nat} {now : Time} {observations more : List Observation} {op mid after : Operation}

theorem Lowered.refl (op : Operation) : Lowered limit now observations op op := ⟨rfl, .inl rfl⟩

theorem Lowered.id_eq (h : Lowered limit now observations op after) : after.id = op.id := by
  rw [h.same]

theorem Lowered.mono (h : Lowered limit now observations op after)
    (hsub : ∀ obs ∈ observations, obs ∈ more) : Lowered limit now more op after where
  same := h.same
  coverage := by
    rcases h.coverage with hsame | ⟨hcomplete, hstale, hold | ⟨obs, hobs, hrest⟩⟩
      | ⟨hmalformed, obs, hobs, hrest⟩
    · exact .inl hsame
    · exact .inr (.inl ⟨hcomplete, hstale, .inl hold⟩)
    · exact .inr (.inl ⟨hcomplete, hstale, .inr ⟨obs, hsub obs hobs, hrest⟩⟩)
    · exact .inr (.inr ⟨hmalformed, obs, hsub obs hobs, hrest⟩)

theorem Lowered.trans (h : Lowered limit now observations op mid)
    (h' : Lowered limit now observations mid after) : Lowered limit now observations op after where
  same := by
    have hmid := h.same
    rw [h'.same, hmid]
  coverage := by
    have hid : mid.id = op.id := h.id_eq
    have hat : mid.observedAt = op.observedAt := by rw [h.same]
    rcases h'.coverage with hsame | ⟨hcomplete, hstale, hwhy⟩ | ⟨hmalformed, hwhy⟩
    · rw [hsame]
      exact h.coverage
    · rcases h.coverage with hkeep | ⟨_, hlower, _⟩ | ⟨hlower, _⟩
      · rw [hid, hat] at hwhy
        exact .inr (.inl ⟨hkeep ▸ hcomplete, hstale, hwhy⟩)
      · rw [hlower] at hcomplete
        cases hcomplete
      · rw [hlower] at hcomplete
        cases hcomplete
    · rw [hid] at hwhy
      exact .inr (.inr ⟨hmalformed, hwhy⟩)

/-- One step of the validation, for one operation. -/
def validated (limit : Nat) (now : Time) (obs : Observation) (op : Operation) : Operation :=
  let op :=
    if obs.data.contradictory && op.id == obs.operation then { op with coverage := .malformed }
    else op
  if numSeconds now obs.observedAt > limit && op.id == obs.operation
      && op.coverage == .complete then { op with coverage := .stale }
  else op

theorem validateObservation_eq (ops : List Operation) (obs : Observation) :
    validateObservation limit now ops obs = ops.map (validated limit now obs) := by
  unfold validateObservation downgrade
  by_cases hcontra : obs.data.contradictory = true
  · by_cases hold : numSeconds now obs.observedAt > limit
    · simp [hcontra, hold, validated]
    · simp [hcontra, hold, validated]
  · by_cases hold : numSeconds now obs.observedAt > limit
    · simp [hcontra, hold, validated]
    · have hsame : validated limit now obs = id := by
        funext op
        simp [hcontra, hold, validated]
      simp [hcontra, hold, hsame]

theorem validated_lowered (obs : Observation) (op : Operation) :
    Lowered limit now [obs] op (validated limit now obs op) := by
  have hmark : Lowered limit now [obs] op
      (if obs.data.contradictory && op.id == obs.operation then
        { op with coverage := .malformed }
      else op) := by
    split
    · rename_i h
      rw [Bool.and_eq_true, beq_iff_eq] at h
      exact ⟨rfl, .inr (.inr ⟨rfl, obs, List.mem_singleton_self _, h.2.symm, h.1⟩)⟩
    · exact .refl op
  have hage : ∀ op : Operation, Lowered limit now [obs] op
      (if numSeconds now obs.observedAt > limit && op.id == obs.operation
          && op.coverage == .complete then
        { op with coverage := .stale }
      else op) := by
    intro op
    split
    · rename_i h
      simp only [Bool.and_eq_true, decide_eq_true_eq, beq_iff_eq] at h
      refine ⟨rfl, .inr (.inl ⟨h.2, rfl, .inr ⟨obs, List.mem_singleton_self _, h.1.2.symm, ?_⟩⟩)⟩
      rw [State.outdated, decide_eq_true h.1.1, Bool.true_or]
    · exact .refl op
  exact hmark.trans (hage _)

theorem validated_aged {obs : Observation} (hold : numSeconds now obs.observedAt > limit)
    (hid : op.id = obs.operation) : (validated limit now obs op).coverage ≠ .complete := by
  by_cases hcontra : obs.data.contradictory = true
  · simp [validated, hcontra, hold, hid]
  · by_cases hcomplete : op.coverage = .complete
    · simp [validated, hcontra, hold, hid, hcomplete]
    · simp [validated, hcontra, hold, hid, hcomplete]

/-- The validation lowers operations one by one. -/
theorem exists_validate (l : List Observation) : ∃ f : Operation → Operation,
    (∀ ops, l.foldl (validateObservation limit now) ops = ops.map f)
      ∧ ∀ op, Lowered limit now l op (f op) := by
  induction l with
  | nil => exact ⟨id, fun ops => (List.map_id ops).symm, fun op => .refl op⟩
  | cons obs l ih =>
      obtain ⟨f, hf, hlowered⟩ := ih
      refine ⟨f ∘ validated limit now obs, fun ops => ?_, fun op => ?_⟩
      · rw [List.foldl_cons, validateObservation_eq, hf, List.map_map]
      · exact ((validated_lowered obs op).mono (by simp)).trans
          ((hlowered _).mono fun o ho => List.mem_cons_of_mem _ ho)

theorem Lowered.complete (h : Lowered limit now observations op after)
    (hcomplete : after.coverage = .complete) : op.coverage = .complete := by
  rcases h.coverage with hsame | ⟨hop, _, _⟩ | ⟨hmalformed, _⟩
  · rw [← hsame, hcomplete]
  · exact hop
  · rw [hmalformed] at hcomplete
    cases hcomplete

/-- What was observed under an operation that is complete after the validation is
current. -/
theorem current_of_validated {l : List Observation} {ops : List Operation} {obs : Observation}
    (hop : op ∈ l.foldl (validateObservation limit now) ops) (hcomplete : op.coverage = .complete)
    (hobs : obs ∈ l) (hid : obs.operation = op.id) : ¬ numSeconds now obs.observedAt > limit := by
  intro hold
  induction l generalizing ops with
  | nil => cases hobs
  | cons head l ih =>
      rw [List.foldl_cons] at hop
      rcases List.mem_cons.mp hobs with rfl | hobs
      · obtain ⟨f, hf, hlowered⟩ := @exists_validate limit now l
        rw [hf, validateObservation_eq, List.map_map] at hop
        obtain ⟨first, _, rfl⟩ := List.mem_map.mp hop
        have hmid := (hlowered _).complete hcomplete
        have hsame : obs.operation = (validated limit now obs first).id :=
          hid.trans (hlowered _).id_eq
        -- the observation would have made it stale
        rw [(validated_lowered obs first).id_eq] at hsame
        exact validated_aged hold hsame.symm hmid
      · exact ih hop hobs

/-- What is contradictory makes its operation malformed, and that stays. -/
theorem malformed_of_validated {l : List Observation} {ops : List Operation} {obs : Observation}
    (hop : op ∈ l.foldl (validateObservation limit now) ops) (hobs : obs ∈ l)
    (hid : obs.operation = op.id) (hcontra : obs.data.contradictory = true) :
    op.coverage = .malformed := by
  induction l generalizing ops with
  | nil => cases hobs
  | cons head l ih =>
      rw [List.foldl_cons] at hop
      rcases List.mem_cons.mp hobs with rfl | hobs
      · obtain ⟨f, hf, hlowered⟩ := @exists_validate limit now l
        rw [hf, validateObservation_eq, List.map_map] at hop
        obtain ⟨first, _, rfl⟩ := List.mem_map.mp hop
        have hsame : first.id = obs.operation := by
          rw [hid, Function.comp_apply, (hlowered _).id_eq, (validated_lowered obs first).id_eq]
        have hmid : (validated limit now obs first).coverage = .malformed := by
          simp [validated, hcontra, hsame]
        rcases (hlowered (validated limit now obs first)).coverage
          with hkeep | ⟨hcomplete, _⟩ | hmal
        · exact hkeep.trans hmid
        · rw [hmid] at hcomplete
          cases hcomplete
        · exact hmal.1
      · exact ih hop hobs

/-- The validation leaves what it has validated, also once it is no longer complete. -/
theorem validate_downgrade (p : Operation → Bool) (l : List Observation) (ops : List Operation) :
    l.foldl (validateObservation limit now)
        (downgrade p .stale (l.foldl (validateObservation limit now) ops))
      = downgrade p .stale (l.foldl (validateObservation limit now) ops) := by
  have hsettled : ∀ op ∈ downgrade p .stale (l.foldl (validateObservation limit now) ops),
      ∀ obs ∈ l, validated limit now obs op = op := by
    intro op hop obs hobs
    obtain ⟨mid, hmid, rfl⟩ := List.mem_map.mp hop
    by_cases hid : obs.operation = mid.id
    · by_cases hcontra : obs.data.contradictory = true
      · have hmal := malformed_of_validated hmid hobs hid hcontra
        have hsame : { mid with coverage := .malformed } = mid := by rw [← hmal]
        simp [validated, hcontra, hmal, hid, hsame]
      · by_cases hold : numSeconds now obs.observedAt > limit
        · have hcomplete : mid.coverage ≠ .complete := fun hcomplete =>
            current_of_validated hmid hcomplete hobs hid hold
          simp [validated, hcontra, hcomplete]
        · simp [validated, hcontra, hold]
    · split <;> simp [validated, Ne.symm hid]
  generalize downgrade p .stale (l.foldl (validateObservation limit now) ops) = settled at hsettled
  induction l with
  | nil => rfl
  | cons obs l ih =>
      have hhead : settled.map (validated limit now obs) = settled := by
        rw [List.map_congr_left fun op hop => hsettled op hop obs List.mem_cons_self, List.map_id']
      rw [List.foldl_cons, validateObservation_eq, hhead]
      exact ih fun op hop o ho => hsettled op hop o (List.mem_cons_of_mem _ ho)

/-- Expiry lowers operations one by one as well. -/
theorem exists_expire (health : Table Health) (result : CheckResult) :
    ∃ f : Operation → Operation,
      State.expiredOperations limit now health result = result.operations.map f
        ∧ ∀ op, Lowered limit now result.observations op (f op) := by
  refine ⟨_, rfl, fun op => ?_⟩
  dsimp only
  split
  · rename_i h
    simp only [Bool.and_eq_true, Bool.or_eq_true, decide_eq_true_eq, beq_iff_eq,
      List.any_eq_true] at h
    refine ⟨rfl, .inr (.inl ⟨h.2, rfl, h.1.imp_right ?_⟩)⟩
    rintro ⟨obs, hobs, hspoils⟩
    simp only [State.spoils, Bool.and_eq_true, beq_iff_eq] at hspoils
    exact ⟨obs, hobs, hspoils.2.symm, hspoils.1.1⟩
  · exact .refl op

end Lowered

theorem untouched_provenance : Untouched Releases.isProvenance :=
  ⟨fun _ _ => rfl, fun _ => rfl, fun _ => rfl⟩

namespace Releases

/-- An operation that enrichment derives. -/
def ofProvenance (op : Operation) : Bool := Text.startsWith op.id "provenance/"

/-- What enrichment derives for the images that are observed. -/
def derived (snapshot : Snapshot) (job : Job) (current : CheckResult) (now : Time) :
    List (Operation × Option Observation) :=
  ((Evidence.new snapshot job (strip current) now).images job.target).filterMap
    (enrichImage (Evidence.new snapshot job (strip current) now) job now)

/-- There is room for a verdict on every image. -/
def Fits (snapshot : Snapshot) (job : Job) (current : CheckResult) (now : Time) : Prop :=
  ((Evidence.new snapshot job (strip current) now).images job.target).length
    ≤ job.settings.maxAssets - (strip current).observations.length

variable {snapshot : Snapshot} {job : Job} {current : CheckResult} {now : Time}

theorem additions_of_fits (h : Fits snapshot job current now) :
    additions snapshot job current now = derived snapshot job current now := by
  rw [additions, List.take_of_length_le h, derived]

theorem enrichImage_operation {evidence : Evidence} {image : Observation}
    {added : Operation × Option Observation}
    (h : enrichImage evidence job now image = some added) :
    added.1.id = "provenance/" ++ image.resource
      ∧ ∀ obs, added.2 = some obs → isProvenance obs.data = true
          ∧ obs.operation = "provenance/" ++ image.resource := by
  unfold enrichImage at h
  cases hdata : image.data with
  | image desired observedDigest revision =>
      rw [hdata] at h
      dsimp only at h
      cases hcanonical : Images.canonical desired with
      | none =>
          rw [hcanonical] at h
          cases h
          exact ⟨rfl, by rintro obs ⟨⟩⟩
      | some canonical =>
          rw [hcanonical] at h
          dsimp only at h
          split at h
          · cases h
            exact ⟨rfl, by rintro obs ⟨⟩⟩
          · cases h
            exact ⟨rfl, by rintro obs ⟨⟩; exact ⟨rfl, rfl⟩⟩
  | _ =>
      rw [hdata] at h
      cases h

theorem mem_derived {added : Operation × Option Observation}
    (h : added ∈ derived snapshot job current now) :
    ∃ image ∈ (Evidence.new snapshot job (strip current) now).images job.target,
      added.1.id = "provenance/" ++ image.resource
        ∧ ∀ obs, added.2 = some obs → isProvenance obs.data = true
            ∧ obs.operation = "provenance/" ++ image.resource
            ∧ obs.resource = image.resource ++ "/provenance" := by
  obtain ⟨image, himage, he⟩ := List.mem_filterMap.mp h
  obtain ⟨hid, hobs⟩ := enrichImage_operation he
  refine ⟨image, himage, hid, fun obs hadded => ?_⟩
  obtain ⟨op, added⟩ := added
  cases hadded
  exact ⟨(hobs obs rfl).1, (hobs obs rfl).2, enrichImage_resource he⟩

/-- Enrichment leaves its own operations and observations only. -/
theorem enrich_filter (hfits : Fits snapshot job current now) :
    (enrich snapshot job current now).operations.filter ofProvenance
        = (derived snapshot job current now).map Prod.fst
      ∧ (enrich snapshot job current now).observations.filter (isProvenance ·.data)
        = (derived snapshot job current now).filterMap Prod.snd := by
  have hnone : ∀ {α : Type} (l : List α) (q : α → Bool), (l.filter fun a => !q a).filter q = [] := by
    intro α l q
    rw [List.filter_filter, List.filter_eq_nil_iff]
    intro a _
    cases q a <;> decide
  rw [enrich_operations, enrich_observations, additions_of_fits hfits]
  constructor
  · rw [List.filter_append]
    have hstrip : (strip current).operations.filter ofProvenance = [] :=
      hnone current.operations ofProvenance
    rw [hstrip, List.nil_append, List.filter_eq_self]
    intro op hop
    obtain ⟨added, hadded, rfl⟩ := List.mem_map.mp hop
    obtain ⟨image, _, hid, _⟩ := mem_derived hadded
    rw [ofProvenance, hid, Text.startsWith_append]
  · rw [List.filter_append]
    have hstrip : (strip current).observations.filter (isProvenance ·.data) = [] :=
      hnone current.observations (isProvenance ·.data)
    rw [hstrip, List.nil_append, List.filter_eq_self]
    intro obs hobs
    obtain ⟨added, hadded, hsnd⟩ := List.mem_filterMap.mp hobs
    obtain ⟨image, _, _, hprovenance⟩ := mem_derived hadded
    exact (hprovenance obs hsnd).1

end Releases

/-! ## A pass of a release job -/

namespace State.Application

variable {host : Host} {a : Application}

/-- The job derives verdicts. -/
structure Derives (a : Application) : Prop where
  check : a.job.check = .releases
  artifactOnly : a.job.artifactOnly = false

instance (a : Application) : Decidable a.Derives :=
  decidable_of_iff (a.job.check = .releases ∧ a.job.artifactOnly = false)
    ⟨fun h => ⟨h.1, h.2⟩, fun h => ⟨h.check, h.artifactOnly⟩⟩

/-- The reported result with the verdicts derived again. -/
def enriched (a : Application) : CheckResult :=
  Releases.enrich (register a.before a.job) a.job a.result a.now

def derived (a : Application) : List (Operation × Option Observation) :=
  Releases.derived (register a.before a.job) a.job a.result a.now

def Fits (a : Application) : Prop :=
  Releases.Fits (register a.before a.job) a.job a.result a.now

/-- A stored verdict, or another observation under an operation of a verdict, is
retained from the replaced result. -/
def TakesBack (a : Application) : Prop :=
  (∃ op ∈ a.enriched.operations, op.coverage ≠ .complete)
    ∧ ∃ previous obs, a.before.results[a.job.key]? = some previous ∧ obs ∈ previous.observations
      ∧ (Releases.isProvenance obs.data = true
        ∨ Text.startsWith obs.operation "provenance/" = true)
      ∧ PartialResults.eligible a.enriched obs = true

instance (a : Application) : Decidable a.Fits :=
  inferInstanceAs (Decidable (_ ≤ _))

instance (a : Application) : Decidable a.TakesBack :=
  decidable_of_iff
    ((∃ op ∈ a.enriched.operations, op.coverage ≠ .complete)
      ∧ ∃ obs ∈ ((a.before.results[a.job.key]?).map CheckResult.observations).getD [],
        (Releases.isProvenance obs.data = true
          ∨ Text.startsWith obs.operation "provenance/" = true)
        ∧ PartialResults.eligible a.enriched obs = true) <| by
    refine and_congr_right fun _ => ?_
    cases hprevious : a.before.results[a.job.key]? with
    | none => exact ⟨by rintro ⟨obs, ⟨⟩, _⟩, by rintro ⟨previous, obs, ⟨⟩, _⟩⟩
    | some previous =>
        constructor
        · rintro ⟨obs, hobs, hrest⟩
          exact ⟨previous, obs, rfl, hobs, hrest⟩
        · rintro ⟨_, obs, ⟨⟩, hobs, hrest⟩
          exact ⟨obs, hobs, hrest⟩

theorem gathered_eq (h : a.Derives) : a.gathered host
    = PartialResults.retain host a.job (register a.before a.job) a.enriched := by
  have hflows : a.job.check ≠ .flows := by
    rw [h.check]
    decide
  have hlogs : a.job.check ≠ .logs := by
    rw [h.check]
    decide
  have hderive : derive (register a.before a.job) a.job a.result a.now a.clock
      = (register a.before a.job, a.enriched) := by
    unfold derive
    rw [if_neg hflows]
    dsimp only
    rw [if_pos ⟨h.check, h.artifactOnly⟩]
    rfl
  unfold gathered gather
  rw [hderive]
  dsimp only
  rw [LogRecovery.reconcile, if_pos hlogs]

/-- The operations retained with some observations are theirs. -/
theorem foldl_keepOperation (retained : List Observation) (l : List Operation) :
    ∀ ops, ∃ added, l.foldl (PartialResults.keepOperation retained) ops = ops ++ added
      ∧ ∀ op ∈ added, ∃ obs ∈ retained, obs.operation = op.id := by
  induction l with
  | nil => exact fun ops => ⟨[], (List.append_nil ops).symm, by rintro op ⟨⟩⟩
  | cons op l ih =>
      intro ops
      rw [List.foldl_cons, PartialResults.keepOperation]
      split
      · rename_i hkeep
        obtain ⟨added, hadded, hown⟩ := ih (ops ++ [{ op with coverage := .stale }])
        refine ⟨{ op with coverage := .stale } :: added, ?_, fun o ho => ?_⟩
        · rw [hadded, List.append_assoc, List.singleton_append]
        · rcases List.mem_cons.mp ho with rfl | ho
          · rw [Bool.and_eq_true] at hkeep
            obtain ⟨obs, hobs, hid⟩ := List.any_eq_true.mp hkeep.1
            exact ⟨obs, hobs, beq_iff_eq.mp hid⟩
          · exact hown o ho
      · exact ih ops

/-- What retention adds to a result. -/
theorem retain_eq (host : Host) (job : Job) (snapshot : Snapshot) (result : CheckResult) :
    ∃ retained operations,
      PartialResults.retain host job snapshot result
        = { result with
            observations := result.observations ++ retained
            operations := result.operations ++ operations }
      ∧ (∀ obs ∈ retained, (∃ op ∈ result.operations, op.coverage ≠ .complete)
          ∧ PartialResults.eligible result obs = true
          ∧ ∃ previous, snapshot.results[job.key]? = some previous ∧ obs ∈ previous.observations)
      ∧ ∀ op ∈ operations, ∃ obs ∈ retained, obs.operation = op.id := by
  have hnothing : ∃ retained operations,
      result = { result with
          observations := result.observations ++ retained
          operations := result.operations ++ operations }
        ∧ (∀ obs ∈ retained, (∃ op ∈ result.operations, op.coverage ≠ .complete)
            ∧ PartialResults.eligible result obs = true
            ∧ ∃ previous, snapshot.results[job.key]? = some previous
              ∧ obs ∈ previous.observations)
        ∧ ∀ op ∈ operations, ∃ obs ∈ retained, obs.operation = op.id := by
    refine ⟨[], [], ?_, by rintro obs ⟨⟩, by rintro op ⟨⟩⟩
    rw [List.append_nil, List.append_nil]
  unfold PartialResults.retain
  split
  · exact hnothing
  · rename_i hall
    split
    · exact hnothing
    · rename_i previous hprevious
      dsimp only
      obtain ⟨added, hadded, hown⟩ := foldl_keepOperation
        (PartialResults.kept host job.settings result
          (job.settings.memoryBytes / 4 - resultBytes host result) result.observations.length
          previous.observations) previous.operations result.operations
      refine ⟨_, added, by rw [hadded], fun obs hobs => ⟨?_, ?_, previous, hprevious, ?_⟩, hown⟩
      · rw [List.all_eq_true] at hall
        push Not at hall
        obtain ⟨op, hop, hcoverage⟩ := hall
        exact ⟨op, hop, fun hc => hcoverage (beq_iff_eq.mpr hc)⟩
      · exact PartialResults.kept_eligible host job.settings result _ _ _ obs hobs
      · exact (PartialResults.kept_sublist host job.settings result _ _ _).subset hobs

/-- Unless a verdict is taken back, a pass gathers the derived ones. -/
theorem gathered_filter (h : a.Derives) (hfits : a.Fits) (hback : ¬ a.TakesBack) :
    (a.gathered host).operations.filter Releases.ofProvenance = a.derived.map Prod.fst
      ∧ (a.gathered host).observations.filter (Releases.isProvenance ·.data)
        = a.derived.filterMap Prod.snd := by
  obtain ⟨retained, operations, heq, hretained, hown⟩ :=
    retain_eq host a.job (register a.before a.job) a.enriched
  obtain ⟨hops, hobs⟩ := Releases.enrich_filter hfits
  have hforeign : ∀ obs ∈ retained, Releases.isProvenance obs.data = false
      ∧ Text.startsWith obs.operation "provenance/" = false := by
    intro obs hobs
    obtain ⟨hincomplete, heligible, previous, hprevious, hmem⟩ := hretained obs hobs
    constructor
    · rw [← Bool.not_eq_true]
      exact fun hp => hback ⟨hincomplete, previous, obs, hprevious, hmem, .inl hp, heligible⟩
    · rw [← Bool.not_eq_true]
      exact fun hp => hback ⟨hincomplete, previous, obs, hprevious, hmem, .inr hp, heligible⟩
  rw [gathered_eq h, heq]
  constructor
  · have hnone : operations.filter Releases.ofProvenance = [] := by
      rw [List.filter_eq_nil_iff]
      intro op hop
      obtain ⟨obs, hobs, hid⟩ := hown op hop
      rw [Releases.ofProvenance, ← hid, (hforeign obs hobs).2]
      decide
    show (a.enriched.operations ++ operations).filter _ = _
    rw [List.filter_append, hnone, List.append_nil]
    exact hops
  · have hnone : retained.filter (Releases.isProvenance ·.data) = [] := by
      rw [List.filter_eq_nil_iff]
      intro obs hobs
      rw [(hforeign obs hobs).1]
      decide
    show (a.enriched.observations ++ retained).filter _ = _
    rw [List.filter_append, hnone, List.append_nil]
    exact hobs

/-- Unless a finding is refused, the scan leaves the operations alone. -/
theorem scanned_operations (h : ∀ id ∈ (a.scanned host).current, id ∈ (a.scanned host).findings) :
    (a.scanned host).operations = (a.limited host).operations := by
  have hinv : (a.scanned host).operations = (a.limited host).operations
      ∨ a.job.settings.maxFindings ≤ (a.scanned host).findings.size
        ∧ ∃ id ∈ (a.scanned host).current, id ∉ (a.scanned host).findings := by
    rw [scanned_eq]
    refine scan_rule (P := fun s => s.operations = (a.limited host).operations
      ∨ a.job.settings.maxFindings ≤ s.findings.size ∧ ∃ id ∈ s.current, id ∉ s.findings) ?_ ?_ ?_
    · exact fun s obs _ ih => ih
    · intro s obs _ prior rule severity confidence ih
      generalize Policy.faultFinding obs rule severity confidence = finding
      by_cases hrefuse : refuses a.job s.findings finding.id = true
      · have hfindings : (detect host a.job a.now prior obs s finding).findings = s.findings := by
          unfold detect
          dsimp only
          rw [if_pos hrefuse]
        rw [refuses, Bool.and_eq_true, decide_eq_true_eq, Option.isNone_iff_eq_none] at hrefuse
        refine .inr ⟨hfindings ▸ hrefuse.2, finding.id, by rw [detect_current]; simp, ?_⟩
        rw [hfindings, Table.mem_iff_getElem?, hrefuse.1]
        rintro ⟨f, ⟨⟩⟩
      · have hoperations : (detect host a.job a.now prior obs s finding).operations
            = s.operations := by
          rw [detect_operations, if_neg hrefuse]
        rcases ih with ih | ⟨hfull, other, hcurrent, hout⟩
        · exact .inl (hoperations.trans ih)
        · -- the limit leaves room for findings that are stored already only
          have hknown : finding.id ∈ s.findings := by
            rw [refuses, Bool.and_eq_true, decide_eq_true_eq, not_and] at hrefuse
            rw [Std.ExtTreeMap.mem_iff_isSome_getElem?]
            cases hget : s.findings[finding.id]? with
            | some f => rfl
            | none => exact absurd hfull (hrefuse (by rw [hget]; rfl))
          obtain ⟨recorded, hfindings⟩ :
              ∃ f, (detect host a.job a.now prior obs s finding).findings
                = s.findings.insert finding.id f := by
            unfold detect
            dsimp only
            rw [if_neg hrefuse]
            exact ⟨_, rfl⟩
          refine .inr ⟨?_, other, by rw [detect_current]; exact List.mem_cons_of_mem _ hcurrent, ?_⟩
          · rw [hfindings, Table.size_insert_of_mem hknown]
            exact hfull
          · rw [hfindings, Std.ExtTreeMap.mem_insert]
            rintro (he | hmem)
            · have : finding.id = other := by simpa using he
              exact hout (this ▸ hknown)
            · exact hout hmem
    · exact .inl rfl
  rcases hinv with hsame | ⟨_, id, hid, hout⟩
  · exact hsame
  · exact absurd (h id hid) hout

/-- A pass that drops nothing stores what it gathered, rewritten and validated. -/
theorem stored_eq (h : ¬ a.Drops host) :
    a.stored host = rewrite a.job (a.gathered host) a.now := by
  have hrefused : ∀ id ∈ (a.scanned host).current, id ∈ (a.scanned host).findings := by
    intro id hid
    by_contra hout
    exact h (.refused id hid hout)
  rw [stored, scanned_operations hrefused, limited_of_not_drops h]

/-- The expiry that ends a pass lowers the stored operations one by one. -/
theorem exists_final (host : Host) (a : Application) : ∃ f : Operation → Operation,
    a.final host = some { a.stored host with operations := (a.stored host).operations.map f }
      ∧ ∀ op, Lowered a.job.settings.freshness a.now (a.stored host).observations op (f op) := by
  obtain ⟨health, health', he | he⟩ := @final_eq host a
  · obtain ⟨f, hf, hlowered⟩ := @exists_expire a.job.settings.freshness a.now
      health (a.stored host)
    exact ⟨f, by rw [he, expiredResult, hf], hlowered⟩
  · obtain ⟨f, hf, hlowered⟩ := @exists_expire a.job.settings.freshness a.now
      health (a.stored host)
    obtain ⟨g, hg, hlowered'⟩ := @exists_expire a.job.settings.freshness a.now
      health' (expiredResult a.job.settings.freshness a.now health (a.stored host))
    refine ⟨g ∘ f, ?_, fun op => (hlowered op).trans (hlowered' (f op))⟩
    rw [he, expiredResult, hg, expiredResult, hf, List.map_map]

/-- Lowering keeps the operations of the verdicts apart from the others. -/
theorem filter_map_lowered {limit : Nat} {now : Time} {observations : List Observation}
    {f : Operation → Operation} (h : ∀ op, Lowered limit now observations op (f op))
    (ops : List Operation) :
    (ops.map f).filter Releases.ofProvenance = (ops.filter Releases.ofProvenance).map f := by
  rw [List.filter_map]
  refine congrArg (List.map f) (List.filter_congr fun op _ => ?_)
  rw [Function.comp_apply, Releases.ofProvenance, (h op).id_eq]
  rfl

/-- A pass that drops nothing and takes no verdict back leaves the verdicts on the
observed images, their operations at most lowered. -/
theorem final_verdicts (h : a.Derives) (hdrops : ¬ a.Drops host) (hfits : a.Fits)
    (hback : ¬ a.TakesBack) : ∃ result, a.final host = some result
      ∧ result.observations.filter (Releases.isProvenance ·.data) = a.derived.filterMap Prod.snd
      ∧ List.Forall₂ (Lowered a.job.settings.freshness a.now result.observations)
          (a.derived.map Prod.fst) (result.operations.filter Releases.ofProvenance) := by
  obtain ⟨hops, hobs⟩ := @gathered_filter host _ h hfits hback
  obtain ⟨f, hf, hlowered⟩ := exists_final host a
  obtain ⟨g, hg, hvalid⟩ := @exists_validate a.job.settings.freshness a.now
    (rewrite a.job (a.gathered host) a.now).observations
  have hstored := stored_eq hdrops
  have hrewritten : (a.stored host).operations = (a.gathered host).operations.map g := by
    rw [hstored, ← hg]
    rfl
  rw [← hstored] at hvalid
  refine ⟨_, hf, ?_, ?_⟩
  · show (a.stored host).observations.filter _ = _
    rw [hstored, untouched_provenance.rewrite, hobs]
  · have hboth : ∀ op, Lowered a.job.settings.freshness a.now (a.stored host).observations op
        ((f ∘ g) op) := fun op => (hvalid op).trans (hlowered (g op))
    show List.Forall₂ _ _ (((a.stored host).operations.map f).filter _)
    rw [hrewritten, List.map_map, filter_map_lowered hboth, hops, List.forall₂_map_right_iff,
      List.forall₂_same]
    exact fun op _ => hboth op

end State.Application

end HealthMonitor
