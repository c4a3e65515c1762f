import HealthMonitor.Core.Recoveries

/-!
# Removals

What stands behind a `Removed` transition. Each job counts, for each finding,
the results that lack its resource, from a baseline taken when the counter is
created. The counter belongs to one job and the finding to all of them: it
counts what it should as long as no other job is about the finding while it is
pending, and as long as the results that lack the resource vouch for the
evidence of the finding.
-/

namespace HealthMonitor

open State

variable {host : Host} {id : String}

/-! ## Counters -/

/-- A counter names its job and its finding. -/
theorem confirmationKey_inj {j k : Job} {i i' : String}
    (h : confirmationKey j i = confirmationKey k i') : j.key = k.key ∧ i = i' := by
  unfold confirmationKey at h
  have hkey : j.key = k.key := by
    refine Text.startsWith_unique (s := j.key ++ "|" ++ i) (c := '|') j.bar_notMem_key
      k.bar_notMem_key (Text.startsWith_append _ _) ?_
    rw [h]
    exact Text.startsWith_append _ _
  have hl := congrArg String.toList h
  rw [hkey] at hl
  simp only [String.toList_append, List.append_cancel_left_eq] at hl
  exact ⟨hkey, String.ext hl⟩

theorem confirmedId_confirmationKey (job : Job) (id : String) :
    confirmedId (confirmationKey job id) = id := by
  have h : Text.splitOnce (confirmationKey job id) "|" = some (job.key, id) :=
    Text.splitOnce_append (c := '|') job.bar_notMem_key id
  rw [confirmedId, h]

/-- The operations of a result that are evidence of the finding. -/
def evidenceOf (f : Finding) (result : CheckResult) : List Operation :=
  result.operations.filter fun op => f.evidence.contains op.id

theorem mem_evidenceOf {f : Finding} {result : CheckResult} {o : Operation} :
    o ∈ evidenceOf f result ↔ o ∈ result.operations ∧ o.id ∈ f.evidence := by
  rw [evidenceOf, List.mem_filter, List.contains_iff_mem]

theorem evidenceOf_congr {f g : Finding} (h : g.evidence = f.evidence) :
    evidenceOf g = evidenceOf f := by
  funext result
  rw [evidenceOf, evidenceOf, h]

namespace State.Application

variable {a : Application}

/-- The instant an absence has to be later than: the last one the job counted, or
the finding's own. -/
def countedAt (a : Application) (f : Finding) (id : String) : Time :=
  (a.before.confirmations[confirmationKey a.job id]?).elim f.observedAt (·.lastAt)

/-- The pass is about the finding: it has an observation of its resource, before
any limit, or it detects the finding. -/
def Sights (host : Host) (a : Application) (id resource : String) : Prop :=
  CheckResult.reports (a.gathered host) resource = true ∨ id ∈ (a.scanned host).current

instance (host : Host) (a : Application) (id resource : String) :
    Decidable (a.Sights host id resource) :=
  inferInstanceAs (Decidable (_ ∨ _))

/-- The pass stores the result, which lacks the resource of the finding, with
nothing but complete operations of its evidence. -/
structure Misses (host : Host) (a : Application) (f : Finding) (result : CheckResult) :
    Prop where
  final : a.final host = some result
  lacks : CheckResult.reports result f.resource = false
  grounded : f.evidence ≠ []
  complete : ∀ op ∈ f.evidence, op ∈ completeIds result.operations
    ∧ ∀ o ∈ result.operations, o.id = op → o.coverage = .complete

/-- The pass may count an absence of the finding: the result, as limited, lacks its
resource and has a complete operation for all of its evidence. -/
structure MayCount (host : Host) (a : Application) (f : Finding) : Prop where
  check : a.job.check = .inventory ∨ a.job.check = .kubernetes
  complete : ∀ op ∈ f.evidence, op ∈ completeIds (a.limited host).operations
  lacks : CheckResult.reports (a.limited host) f.resource = false

instance (host : Host) (a : Application) (f : Finding) : Decidable (a.MayCount host f) :=
  decidable_of_iff
    ((a.job.check = .inventory ∨ a.job.check = .kubernetes)
      ∧ (∀ op ∈ f.evidence, op ∈ completeIds (a.limited host).operations)
      ∧ CheckResult.reports (a.limited host) f.resource = false)
    ⟨fun h => ⟨h.1, h.2.1, h.2.2⟩, fun h => ⟨h.check, h.complete, h.lacks⟩⟩

/-- If any evidence of the result is later than the last absence, all of it is. -/
def DatesAlike (host : Host) (a : Application) (id : String) (f : Finding) : Prop :=
  ∀ o ∈ evidenceOf f (a.limited host), ∀ o' ∈ evidenceOf f (a.limited host),
    a.countedAt f id < o.observedAt → a.countedAt f id < o'.observedAt

instance (host : Host) (a : Application) (id : String) (f : Finding) :
    Decidable (a.DatesAlike host id f) :=
  inferInstanceAs (Decidable (∀ o ∈ evidenceOf f (a.limited host),
    ∀ o' ∈ evidenceOf f (a.limited host),
      a.countedAt f id < o.observedAt → a.countedAt f id < o'.observedAt))

/-- No pending counter for the finding is disturbed: not by another job that is
about it, and not by a limit that drops its resource from the job's own result;
and where the pass may count an absence, its result vouches for the evidence,
all of it observed since the last one if any is. -/
structure Undisturbed (host : Host) (a : Application) (id : String) : Prop where
  other : ∀ f ∈ a.before.findings[id]?, ∀ e ∈ a.before.confirmations.toList,
    confirmedId e.1 = id → e.1 ≠ confirmationKey a.job id → ¬ a.Sights host id f.resource
  own : ∀ f ∈ a.before.findings[id]?,
    (a.before.confirmations[confirmationKey a.job id]?).isSome = true →
      CheckResult.reports (a.gathered host) f.resource = true →
        CheckResult.reports (a.limited host) f.resource = true
  vouched : ∀ f ∈ a.before.findings[id]?, a.MayCount host f →
    ∀ op ∈ f.evidence, (a.limited host).Vouches a.job.settings.freshness a.now op
  dated : ∀ f ∈ a.before.findings[id]?, a.MayCount host f → a.DatesAlike host id f

instance (host : Host) (a : Application) (id : String) : Decidable (a.Undisturbed host id) :=
  decidable_of_iff
    ((∀ f ∈ a.before.findings[id]?, ∀ e ∈ a.before.confirmations.toList,
        confirmedId e.1 = id → e.1 ≠ confirmationKey a.job id → ¬ a.Sights host id f.resource)
      ∧ (∀ f ∈ a.before.findings[id]?,
        (a.before.confirmations[confirmationKey a.job id]?).isSome = true →
          CheckResult.reports (a.gathered host) f.resource = true →
            CheckResult.reports (a.limited host) f.resource = true)
      ∧ (∀ f ∈ a.before.findings[id]?, a.MayCount host f →
        ∀ op ∈ f.evidence, (a.limited host).Vouches a.job.settings.freshness a.now op)
      ∧ ∀ f ∈ a.before.findings[id]?, a.MayCount host f → a.DatesAlike host id f)
    ⟨fun h => ⟨h.1, h.2.1, h.2.2.1, h.2.2.2⟩, fun h => ⟨h.other, h.own, h.vouched, h.dated⟩⟩

/-! ## What a pass reports -/

theorem reports_iff {result : CheckResult} {resource : String} :
    CheckResult.reports result resource = true
      ↔ ∃ obs ∈ result.observations, obs.resource = resource := by
  simp only [CheckResult.reports, List.any_eq_true, beq_iff_eq]

/-- What is stored was gathered. -/
theorem reports_gathered {resource : String}
    (h : CheckResult.reports (a.stored host) resource = true) :
    CheckResult.reports (a.gathered host) resource = true := by
  obtain ⟨obs, hobs, hr⟩ := reports_iff.mp h
  have hobs := mem_stored hobs
  rw [prepared_result] at hobs
  obtain ⟨old, hold, hsame⟩ := mem_rewrite hobs
  exact reports_iff.mpr ⟨old, mem_truncate hold, hsame.resource.symm.trans hr⟩

/-- Rewriting loses no resource. -/
theorem reports_rewrite {job : Job} {result : CheckResult} {now : Time} {resource : String}
    (h : CheckResult.reports result resource = true) :
    CheckResult.reports (rewrite job result now) resource = true := by
  obtain ⟨obs, hobs, hr⟩ := reports_iff.mp h
  rw [reports_iff, rewrite_observations]
  have hmark := List.mem_map_of_mem (f := Provenance.markRetry result.observations) hobs
  have hcorrelate := List.mem_map_of_mem (f := SchedulePolicy.correlateObservation
    { result with observations := Provenance.markRetries result.observations }) hmark
  obtain ⟨o, ho, hsame⟩ := Recovery.resource_consolidate hcorrelate
  refine ⟨o, ho, ?_⟩
  rw [hsame, (SchedulePolicy.correlateObservation_same _ _).resource,
    (Provenance.markRetry_same _ _).resource]
  exact hr

/-- What was gathered is stored, if anything is complete. -/
theorem reports_stored {resource op : String} (hop : op ∈ completeIds (a.stored host).operations)
    (h : CheckResult.reports (a.gathered host) resource = true) :
    CheckResult.reports (a.stored host) resource = true := by
  have hnot : ¬ a.Drops host := by
    intro hdrops
    rw [completeIds_of_drops hdrops] at hop
    cases hop
  rw [reports_iff, stored_of_not_drops hnot, ← reports_iff]
  exact reports_rewrite h

/-- Clearing evidence is about the resource of the finding. -/
theorem reports_of_clearFor {f : Finding} {time : Time}
    (h : (a.reconciled host).1.clearFor f = some time) :
    CheckResult.reports (a.stored host) f.resource = true := by
  rw [Index.clearFor] at h
  obtain ⟨⟨op, at'⟩, hfilter, rfl⟩ := Option.map_eq_some_iff.mp h
  have hclear := (Option.filter_eq_some_iff.mp hfilter).1
  rw [reconciled] at hclear
  have hclear := (Table.getElem?_retain_eq_some.mp hclear).1
  rw [scanned_eq] at hclear
  obtain ⟨before, obs, after, hl, hr, _⟩ :=
    ((@scan_index host a.job a.now (a.start host) (a.limited host).observations rfl).clear
      _ _ _ hclear).evidence
  rw [reports_iff, stored_observations, hl]
  exact ⟨obs, by simp, hr⟩

/-- A detected finding is about an observation of the stored result. -/
theorem reports_of_detected {f : Finding} (h : id ∈ (a.scanned host).current)
    (hf : (a.scanned host).findings[id]? = some f) :
    CheckResult.reports (a.stored host) f.resource = true := by
  have hlookup := @Stores.lookup _ _ _ id (@scanned_stores host a)
  rw [hf] at hlookup
  rcases Option.or_eq_some_iff.mp hlookup.symm with hrev | ⟨hnone, hstart⟩
  · obtain ⟨hmem, _⟩ := mem_of_findRev? hrev
    obtain ⟨obs, hobs, hdetected⟩ := detections_detected _ _ f hmem
    rw [reports_iff, stored_observations]
    exact ⟨obs, hobs, hdetected.resource.symm⟩
  · -- an active finding that is seen is detected
    rcases scanned_stores.seen id h with hnil | ⟨g, hg, hid⟩ | hnot
    · cases hnil
    · rw [List.findRev?_eq_find?_reverse, List.find?_eq_none] at hnone
      exact absurd (beq_iff_eq.mpr hid) (hnone g (List.mem_reverse.mpr hg))
    · exact absurd (Table.mem_iff_getElem?.mpr ⟨f, hstart⟩) hnot

/-- A counter that a pass leaves is the one the settlement left. -/
theorem after_confirmation {key : String} {c : RemovalConfirmation}
    (h : (a.after host).confirmations[key]? = some c) :
    (a.settled host).slots[key]? = some c := by
  rw [after_eq, expire_confirmations, pending_confirmations, retirement,
    retire_confirmations] at h
  split at h
  · cases h
  · exact h

theorem evidenceOf_expired {limit : Nat} {now : Time} {health : Table Health}
    {result : CheckResult} (f : Finding) :
    (evidenceOf f (expiredResult limit now health result)).map Operation.observedAt
      = (evidenceOf f result).map Operation.observedAt := by
  have hmap : ∀ ops : List Operation, ∀ p : Operation → Bool,
      ((downgrade p .stale ops).filter fun op => f.evidence.contains op.id).map
          Operation.observedAt
        = (ops.filter fun op => f.evidence.contains op.id).map Operation.observedAt := by
    intro ops p
    induction ops with
    | nil => rfl
    | cons op ops ih =>
        have hstep : ∀ op' : Operation, op'.id = op.id → op'.observedAt = op.observedAt →
            ((op' :: downgrade p .stale ops).filter fun op => f.evidence.contains op.id).map
              Operation.observedAt
            = ((op :: ops).filter fun op => f.evidence.contains op.id).map
              Operation.observedAt := by
          intro op' hid htime
          rw [List.filter_cons, List.filter_cons, hid]
          split
          · rw [List.map_cons, List.map_cons, htime, ih]
          · exact ih
        unfold downgrade
        rw [List.map_cons]
        split
        · exact hstep _ rfl rfl
        · exact hstep _ rfl rfl
  unfold evidenceOf expiredResult expiredOperations
  rw [hmap]

/-- The final result dates the evidence as the stored one does. -/
theorem evidenceOf_final {result : CheckResult} (h : a.final host = some result) (f : Finding) :
    (evidenceOf f result).map Operation.observedAt
      = (evidenceOf f (a.stored host)).map Operation.observedAt := by
  obtain ⟨health, health', he | he⟩ := @final_eq host a
  · rw [h, Option.some.injEq] at he
    rw [he, evidenceOf_expired]
  · rw [h, Option.some.injEq] at he
    rw [he, evidenceOf_expired, evidenceOf_expired]

/-- An absence is dated by the latest of the evidence. -/
theorem absentAt_spec {f : Finding} {result : CheckResult} (h : evidenceOf f result ≠ []) :
    (∀ o ∈ evidenceOf f result, o.observedAt ≤ absentAt result f)
      ∧ ∃ o ∈ evidenceOf f result, o.observedAt = absentAt result f := by
  have hmax : ∃ time, ((evidenceOf f result).map Operation.observedAt).max? = some time := by
    cases hm : ((evidenceOf f result).map Operation.observedAt).max? with
    | some time => exact ⟨time, rfl⟩
    | none => exact absurd (List.map_eq_nil_iff.mp (List.max?_eq_none_iff.mp hm)) h
  obtain ⟨time, htime⟩ := hmax
  have habsent : absentAt result f = time := by
    rw [absentAt, show ((result.operations.filter fun op => f.evidence.contains op.id).map
      Operation.observedAt).max? = some time from htime, Option.getD_some]
  rw [habsent]
  obtain ⟨hmem, hle⟩ := List.max?_eq_some_iff.mp htime
  refine ⟨fun o ho => hle _ (List.mem_map_of_mem ho), ?_⟩
  obtain ⟨o, ho, heq⟩ := List.mem_map.mp hmem
  exact ⟨o, ho, heq⟩

/-- An absence the pass may count, dated at `time`: the evidence of its result is
no later, and all of it is later than the last absence if `time` is. -/
structure Dated (host : Host) (a : Application) (id : String) (f : Finding)
    (result : CheckResult) (time : Time) : Prop extends a.Misses host f result where
  before : ∀ o ∈ evidenceOf f result, o.observedAt ≤ time
  since : a.countedAt f id < time → ∀ o ∈ evidenceOf f result, a.countedAt f id < o.observedAt

/-- An absence that the pass counts. -/
theorem dated_of_removable {f : Finding} {confirmed : Bool}
    (hf : a.before.findings[id]? = some f) (hundisturbed : a.Undisturbed host id)
    (h : removable (a.settling host) f confirmed = true) :
    (∃ result, a.Dated host id f result (absentAt (a.stored host) f))
      ∧ CheckResult.reports (a.gathered host) f.resource = false := by
  simp only [removable, settling_job, settling_index, settling_stored, Bool.and_eq_true,
    Bool.or_eq_true, beq_iff_eq, Bool.not_eq_true'] at h
  obtain ⟨⟨⟨⟨hcheck, hcan⟩, _⟩, hlacks⟩, _⟩ := h
  simp only [Index.canRemove, Bool.and_eq_true, Bool.not_eq_true', List.all_eq_true] at hcan
  have hne : f.evidence ≠ [] := by
    intro hnil
    rw [hnil] at hcan
    cases hcan.1
  have hstored : ∀ op ∈ f.evidence, op ∈ completeIds (a.stored host).operations := by
    intro op hop
    have := hcan.2 op hop
    rw [reconciled] at this
    simpa [Index.reconcile] using this
  have hcomplete : ∀ op ∈ f.evidence, op ∈ completeIds (a.limited host).operations :=
    fun op hop => completeIds_stored (hstored op hop)
  have hlimited : CheckResult.reports (a.limited host) f.resource = false := hlacks
  have hmay : a.MayCount host f := ⟨hcheck, hcomplete, hlimited⟩
  have hvouch := hundisturbed.vouched f hf hmay
  obtain ⟨op, hop⟩ := List.exists_mem_of_ne_nil _ hne
  have hgathered : CheckResult.reports (a.gathered host) f.resource = false := by
    cases hg : CheckResult.reports (a.gathered host) f.resource with
    | false => rfl
    | true =>
        rw [reports_stored (hstored op hop) hg] at hlacks
        cases hlacks
  obtain ⟨result, hfinal, hobs, _⟩ := final_complete (hstored op hop) (hvouch op hop)
  have htimes : ∀ o ∈ evidenceOf f result,
      ∃ o' ∈ evidenceOf f (a.stored host), o'.observedAt = o.observedAt := by
    intro o ho
    have hmem := List.mem_map_of_mem (f := Operation.observedAt) ho
    rw [evidenceOf_final hfinal] at hmem
    exact List.mem_map.mp hmem
  have hevidence : evidenceOf f (a.stored host) ≠ [] := by
    obtain ⟨o, ho, rfl⟩ := List.mem_map.mp (hstored op hop)
    exact List.ne_nil_of_mem (mem_evidenceOf.mpr ⟨(List.mem_filter.mp ho).1, hop⟩)
  obtain ⟨hle, latest, hlatest, hat⟩ := absentAt_spec hevidence
  have hsame : evidenceOf f (a.stored host) = evidenceOf f (a.limited host) := by
    rw [evidenceOf, evidenceOf, stored_operations_limited (hstored op hop)]
  refine ⟨⟨result, ⟨hfinal, ?_, hne, fun op hop => ?_⟩, ?_, ?_⟩, hgathered⟩
  · rw [CheckResult.reports, hobs]
    exact hlimited
  · obtain ⟨other, hother, _, hids, hall⟩ := final_complete (hstored op hop) (hvouch op hop)
    rw [hfinal, Option.some.injEq] at hother
    exact ⟨hother ▸ hids, hother ▸ hall⟩
  · intro o ho
    obtain ⟨o', ho', htime⟩ := htimes o ho
    rw [← htime]
    exact hle o' ho'
  · intro hlt o ho
    obtain ⟨o', ho', htime⟩ := htimes o ho
    rw [← htime]
    exact hundisturbed.dated f hf hmay latest (hsame ▸ hlatest) o' (hsame ▸ ho') (hat ▸ hlt)

end State.Application

/-! ## The history of a counter -/

def Entry.Sights (host : Host) (id resource : String) : Entry → Prop
  | applied a => a.Sights host id resource
  | expired _ _ _ => False

def Entry.Undisturbed (host : Host) (id : String) : Entry → Prop
  | applied a => a.Undisturbed host id
  | expired _ _ _ => True

instance (host : Host) (id : String) : DecidablePred (Entry.Undisturbed host id)
  | .applied a => inferInstanceAs (Decidable (a.Undisturbed host id))
  | .expired _ _ _ => inferInstanceAs (Decidable True)

/-- Two versions of one finding between which it was not sighted. -/
structure Unmoved (f g : Finding) : Prop where
  resource : f.resource = g.resource
  evidence : f.evidence = g.evidence
  observedAt : f.observedAt = g.observedAt

theorem Unmoved.refl (f : Finding) : Unmoved f f := ⟨rfl, rfl, rfl⟩

theorem Unmoved.trans {f g k : Finding} (h : Unmoved f g) (h' : Unmoved g k) : Unmoved f k :=
  ⟨h.resource.trans h'.resource, h.evidence.trans h'.evidence,
    h.observedAt.trans h'.observedAt⟩

theorem Unmoved.symm {f g : Finding} (h : Unmoved f g) : Unmoved g f :=
  ⟨h.resource.symm, h.evidence.symm, h.observedAt.symm⟩

/-- What the removal of the finding `f` by a job of the key rests on: a stretch of
the log in which nothing is about the finding, and the absences in it. -/
structure Removes (host : Host) (id key : String) (threshold : Nat) (log : List Entry)
    (f : Finding) (older since : List Entry) (absences : List (Application × CheckResult)) : Prop where
  parts : log = older ++ since
  unseen : ∀ e ∈ since, ¬ e.Sights host id f.resource
  unmoved : ∀ e ∈ since, ∃ g, e.before.findings[id]? = some g ∧ Unmoved g f
  among : (absences.map fun e => Entry.applied e.1).Sublist since
  own : ∀ e ∈ absences, e.1.job.key = key
  enough : threshold ≤ absences.length
  rising : absences.Pairwise fun e e' => ∀ o ∈ evidenceOf f e.2, ∀ o' ∈ evidenceOf f e'.2,
    o.observedAt < o'.observedAt
  later : ∀ e ∈ absences, ∀ o ∈ evidenceOf f e.2, f.observedAt < o.observedAt
  misses : ∀ e ∈ absences, e.1.Misses host f e.2

/-- What the journal knows of a pending counter: its removal would rest on what
it counts, and its last instant is the last absence or the finding's own. -/
structure Counting (host : Host) (id key : String) (log : List Entry) (f : Finding)
    (c : RemovalConfirmation) (older since : List Entry)
    (absences : List (Application × CheckResult)) : Prop
    extends Removes host id key c.count log f older since absences where
  latest : ∀ e ∈ absences, ∀ o ∈ evidenceOf f e.2, o.observedAt ≤ c.lastAt
  base : f.observedAt ≤ c.lastAt

section Counting

variable {key : String} {log older since : List Entry} {f g : Finding} {a : Application}
  {c : RemovalConfirmation} {absences : List (Application × CheckResult)}

theorem Counting.congr (h : Counting host id key log f c older since absences)
    (hsame : Unmoved g f) : Counting host id key log g c older since absences where
  parts := h.parts
  unseen := hsame.resource ▸ h.unseen
  unmoved e he := by
    obtain ⟨k, hk, hkf⟩ := h.unmoved e he
    exact ⟨k, hk, hkf.trans hsame.symm⟩
  among := h.among
  own := h.own
  enough := h.enough
  rising := by
    rw [evidenceOf_congr hsame.evidence]
    exact h.rising
  later := by
    rw [evidenceOf_congr hsame.evidence, hsame.observedAt]
    exact h.later
  misses e he := by
    obtain ⟨hfinal, hlacks, hne, hall⟩ := h.misses e he
    exact ⟨hfinal, hsame.resource ▸ hlacks, hsame.evidence ▸ hne, hsame.evidence ▸ hall⟩
  latest := by
    rw [evidenceOf_congr hsame.evidence]
    exact h.latest
  base := hsame.observedAt ▸ h.base

/-- An entry that is not about the finding. -/
theorem Counting.pass (h : Counting host id key log f c older since absences) {e : Entry}
    (hunseen : ¬ e.Sights host id f.resource) (hf : e.before.findings[id]? = some f) :
    Counting host id key (log ++ [e]) f c older (since ++ [e]) absences where
  parts := by rw [h.parts, List.append_assoc]
  unseen o ho := by
    rcases List.mem_append.mp ho with ho | ho
    · exact h.unseen o ho
    · rw [List.mem_singleton.mp ho]
      exact hunseen
  unmoved o ho := by
    rcases List.mem_append.mp ho with ho | ho
    · exact h.unmoved o ho
    · rw [List.mem_singleton.mp ho]
      exact ⟨f, hf, .refl f⟩
  among := h.among.trans (List.sublist_append_left _ _)
  own := h.own
  enough := h.enough
  rising := h.rising
  later := h.later
  misses := h.misses
  latest := h.latest
  base := h.base

/-- A pending counter before its first absence. -/
theorem Counting.create (log : List Entry) (f : Finding) (key : String) :
    Counting host id key log f { count := 0, lastAt := f.observedAt } log [] [] where
  parts := (List.append_nil log).symm
  unseen e he := by cases he
  unmoved e he := by cases he
  among := List.Sublist.refl _
  own e he := by cases he
  enough := le_rfl
  rising := List.Pairwise.nil
  later e he := by cases he
  misses e he := by cases he
  latest e he := by cases he
  base := le_rfl

/-- One more absence of the job: it counts when it is later than the last. -/
theorem Counting.absence (h : Counting host id a.job.key log f c older since absences)
    (hunseen : ¬ (Entry.applied a).Sights host id f.resource)
    (hf : a.before.findings[id]? = some f) {result : CheckResult} {time : Time}
    (hcounted : a.countedAt f id = c.lastAt) (hdated : a.Dated host id f result time) :
    ∃ absences, Counting host id a.job.key (log ++ [.applied a]) f
      (confirm f (some c) time) older (since ++ [.applied a]) absences := by
  have hpass := h.pass (e := .applied a) hunseen hf
  unfold confirm
  rw [Option.getD_some]
  dsimp only
  split
  · rename_i hlt
    have hsince := hdated.since (hcounted ▸ hlt)
    rw [hcounted] at hsince
    refine ⟨absences ++ [(a, result)], ?_⟩
    refine ⟨⟨hpass.parts, hpass.unseen, hpass.unmoved, ?_, ?_, ?_, ?_, ?_, ?_⟩, ?_, ?_⟩
    · rw [List.map_append]
      exact h.among.append_right _
    · intro e he
      rcases List.mem_append.mp he with he | he
      · exact h.own e he
      · rw [List.mem_singleton.mp he]
    · have hsucc : saturatingSucc c.count ≤ c.count + 1 := by
        unfold saturatingSucc
        omega
      rw [List.length_append]
      exact hsucc.trans (Nat.succ_le_succ h.enough)
    · rw [List.pairwise_append]
      refine ⟨h.rising, List.pairwise_singleton _ _, ?_⟩
      intro e he e' he' o ho o' ho'
      rw [List.mem_singleton.mp he'] at ho'
      exact lt_of_le_of_lt (h.latest e he o ho) (hsince o' ho')
    · intro e he o ho
      rcases List.mem_append.mp he with he | he
      · exact h.later e he o ho
      · rw [List.mem_singleton.mp he] at ho
        exact lt_of_le_of_lt h.base (hsince o ho)
    · intro e he
      rcases List.mem_append.mp he with he | he
      · exact h.misses e he
      · rw [List.mem_singleton.mp he]
        exact hdated.toMisses
    · intro e he o ho
      rcases List.mem_append.mp he with he | he
      · exact (h.latest e he o ho).trans (le_of_lt hlt)
      · rw [List.mem_singleton.mp he] at ho
        exact hdated.before o ho
    · exact le_of_lt (lt_of_le_of_lt h.base hlt)
  · exact ⟨absences, hpass⟩

end Counting

/-! ## What a pass does to a counter -/

namespace State.Application

variable {a : Application} {f g : Finding} {c : RemovalConfirmation}

/-- A pass that is not about a finding leaves it where it was. -/
theorem unmoved_of_unseen (hf : a.before.findings[id]? = some f)
    (hunseen : ¬ a.Sights host id f.resource) (hg : (a.after host).findings[id]? = some g) :
    Unmoved g f := by
  obtain ⟨_, f', hf', hsame⟩ := after_finding hg
  have hquiet : id ∉ (a.scanned host).current := fun h => hunseen (.inr h)
  rw [(scanned_stores.untouched hquiet).1, start_findings, hf] at hf'
  cases hf'
  have hvalue := settles (a.settling host) id f
    (a.prepared host).1.confirmations[confirmationKey (a.settling host).job id]?
  generalize settleFinding (a.settling host) id f _ = visit at hsame hvalue
  cases hvalue with
  | detected => exact ⟨hsame.resource, hsame.evidence, hsame.observedAt⟩
  | cleared _ time hclear =>
      rw [settling_index] at hclear
      exact absurd (.inl (reports_gathered (reports_of_clearFor hclear))) hunseen
  | absent => exact ⟨hsame.resource, hsame.evidence, hsame.observedAt⟩
  | unknown => exact ⟨hsame.resource, hsame.evidence, hsame.observedAt⟩

/-- A counter after the settlement: as it was, with the resource not reported if
it is the job's own, or with one more absence. -/
theorem slot_cases {job : Job} (hf : (a.scanned host).findings[id]? = some f)
    (h : (a.settled host).slots[confirmationKey job id]? = some c) :
    (a.before.confirmations[confirmationKey job id]? = some c
      ∧ (job.key = a.job.key → CheckResult.reports (a.stored host) f.resource = false))
    ∨ (job.key = a.job.key ∧ id ∉ (a.scanned host).current
      ∧ (∃ confirmed, removable (a.settling host) f confirmed = true)
      ∧ c = confirm f a.before.confirmations[confirmationKey job id]?
          (absentAt (a.stored host) f)) := by
  by_cases hkey : job.key = a.job.key
  · have hconfirmation : confirmationKey job id = confirmationKey (a.settling host).job id := by
      rw [settling_job, confirmationKey, confirmationKey, hkey]
    have hslot : (settleFinding (a.settling host) id f
        a.before.confirmations[confirmationKey job id]?).slot = some c := by
      rw [settled, hconfirmation, settle_slot, hf] at h
      rw [hconfirmation, ← (@prepared_same host a).confirmations]
      exact h
    have hvalue := settles (a.settling host) id f a.before.confirmations[confirmationKey job id]?
    generalize settleFinding (a.settling host) id f _ = visit at hslot hvalue
    have kept : sighted (a.settling host) f a.before.confirmations[confirmationKey job id]?
        = some c → a.before.confirmations[confirmationKey job id]? = some c
          ∧ CheckResult.reports (a.stored host) f.resource = false := by
      intro hs
      unfold sighted at hs
      split at hs
      · cases hs
      · rename_i hlacks
        exact ⟨hs, by simpa using hlacks⟩
    cases hvalue with
    | detected => exact .inl ⟨(kept hslot).1, fun _ => (kept hslot).2⟩
    | cleared => exact .inl ⟨(kept hslot).1, fun _ => (kept hslot).2⟩
    | unknown => exact .inl ⟨(kept hslot).1, fun _ => (kept hslot).2⟩
    | absent hquiet _ hrem c' hc =>
        cases hslot
        refine .inr ⟨hkey, hquiet, ⟨_, hrem⟩, ?_⟩
        have hlacks : CheckResult.reports (a.settling host).stored f.resource = false := by
          simp only [removable, Bool.and_eq_true, Bool.not_eq_true'] at hrem
          exact hrem.1.2
        rw [hc, sighted, hlacks]
        rfl
  · left
    refine ⟨?_, fun he => absurd he hkey⟩
    rw [settled, settle_slot_other fun i hi => hkey (confirmationKey_inj hi).1,
      prepared_same.confirmations] at h
    exact h

end State.Application

/-- The journal knows every pending counter, and counters are pending for active
findings only. -/
structure Counted (host : Host) (id : String) (log : List Entry) (s : Snapshot) : Prop where
  active : ∀ job c, s.confirmations[confirmationKey job id]? = some c → id ∈ s.findings
  counting : (∀ e ∈ log, e.Undisturbed host id) → ∀ job f c, s.findings[id]? = some f →
    s.confirmations[confirmationKey job id]? = some c →
      ∃ older since absences, Counting host id job.key log f c older since absences

section Counted

variable {log : List Entry} {s : Snapshot} {a : Application} {f g : Finding}
  {c : RemovalConfirmation}

/-- An absence, of a counter that is pending or not. -/
theorem Counted.absence (h : Counted host id log a.before)
    (hlog : ∀ e ∈ log, e.Undisturbed host id) (hundisturbed : a.Undisturbed host id)
    (hf : a.before.findings[id]? = some f) (hquiet : id ∉ (a.scanned host).current)
    {confirmed : Bool} (hrem : removable (a.settling host) f confirmed = true) :
    ∃ older since absences, Counting host id a.job.key (log ++ [.applied a]) f
      (confirm f a.before.confirmations[confirmationKey a.job id]? (absentAt (a.stored host) f))
      older since absences := by
  obtain ⟨⟨result, hdated⟩, hlacks⟩ := Application.dated_of_removable hf hundisturbed hrem
  have hunseen : ¬ (Entry.applied a).Sights host id f.resource := by
    rintro (hreports | hcurrent)
    · rw [hlacks] at hreports
      cases hreports
    · exact hquiet hcurrent
  cases hc : a.before.confirmations[confirmationKey a.job id]? with
  | none =>
      obtain ⟨absences, hcount⟩ :=
        (@Counting.create host id log f a.job.key).absence hunseen hf
          (by rw [Application.countedAt, hc, Option.elim_none]) hdated
      exact ⟨_, _, absences, hcount⟩
  | some c =>
      obtain ⟨older, since, absences, hcount⟩ := h.counting hlog a.job f c hf hc
      obtain ⟨absences, hcount⟩ := hcount.absence hunseen hf
        (by rw [Application.countedAt, hc, Option.elim_some]) hdated
      exact ⟨older, _, absences, hcount⟩

theorem Counted.applied (h : Counted host id log a.before) :
    Counted host id (log ++ [.applied a]) (a.after host) where
  active job c hc := by
    have hkept := hc
    rw [Application.after_eq, expire_confirmations, Application.pending_confirmations,
      Application.retirement, retire_confirmations] at hkept
    split at hkept
    · cases hkept
    · rename_i hnot
      -- the finding is not among those that ended
      have hnotMem : id ∉ (a.settled host).reports.map Prod.fst := by
        intro hmem
        obtain ⟨e, he, rfl⟩ := List.mem_map.mp hmem
        refine hnot (List.any_eq_true.mpr ⟨e, he, ?_⟩)
        rw [confirmationKey, String.append_assoc]
        exact Text.endsWith_append _ _
      have hscanned : ∃ f, (a.scanned host).findings[id]? = some f := by
        cases hf : (a.scanned host).findings[id]? with
        | some f => exact ⟨f, rfl⟩
        | none =>
            exfalso
            have hslot : a.before.confirmations[confirmationKey job id]? = some c := by
              by_cases hkey : job.key = a.job.key
              · have hconfirmation : confirmationKey job id
                    = confirmationKey (a.settling host).job id := by
                  rw [Application.settling_job, confirmationKey, confirmationKey, hkey]
                rw [Application.settled, hconfirmation, settle_slot, hf] at hkept
                rw [hconfirmation, ← (@Application.prepared_same host a).confirmations]
                exact hkept
              · rw [Application.settled,
                  settle_slot_other fun i hi => hkey (confirmationKey_inj hi).1,
                  Application.prepared_same.confirmations] at hkept
                exact hkept
            obtain ⟨f, hbefore⟩ := Table.mem_iff_getElem?.mp (h.active job c hslot)
            rw [Application.scanned_stores.lookup, Application.start_findings, hbefore] at hf
            cases hrev : (a.detections host).findRev? (·.id == id) <;> rw [hrev] at hf <;> cases hf
      obtain ⟨f, hf⟩ := hscanned
      rw [Table.mem_iff_getElem?, Application.after_eq, expire_findings,
        Application.pending_findings, Application.retirement, retire_findings, if_neg hnotMem,
        Application.settled, settle_entries, hf]
      exact ⟨_, rfl⟩
  counting hlog job g c hg hc := by
    have hundisturbed : a.Undisturbed host id := hlog (.applied a) (by simp)
    have hlog : ∀ e ∈ log, e.Undisturbed host id :=
      fun e he => hlog e (List.mem_append_left _ he)
    obtain ⟨_, f', hf', _⟩ := Application.after_finding hg
    rcases Application.slot_cases hf' (Application.after_confirmation hc) with
      ⟨hbefore, hlacks⟩ | ⟨hkey, hquiet, ⟨_, hrem⟩, rfl⟩
    · obtain ⟨f, hf⟩ := Table.mem_iff_getElem?.mp (h.active job c hbefore)
      have hunseen : ¬ a.Sights host id f.resource := by
        by_cases hkey : job.key = a.job.key
        · -- the job's own counter survives no sighting
          have hlacks := hlacks hkey
          have hquiet : id ∉ (a.scanned host).current := by
            intro hcurrent
            rw [Application.reports_of_detected hcurrent hf'] at hlacks
            cases hlacks
          rw [(Application.scanned_stores.untouched hquiet).1, Application.start_findings,
            hf] at hf'
          cases hf'
          rintro (hreports | hcurrent)
          · have hconfirmation : confirmationKey a.job id = confirmationKey job id := by
              rw [confirmationKey, confirmationKey, hkey]
            have hstored := hundisturbed.own _ hf (by rw [hconfirmation, hbefore]; rfl) hreports
            rw [show CheckResult.reports (a.limited host) f'.resource = false from hlacks]
              at hstored
            cases hstored
          · exact hquiet hcurrent
        · refine hundisturbed.other f hf (confirmationKey job id, c)
            (Table.mem_toList.mpr hbefore) (confirmedId_confirmationKey job id) ?_
          exact fun he => hkey (confirmationKey_inj he).1
      obtain ⟨older, since, absences, hcount⟩ := h.counting hlog job f c hf hbefore
      refine ⟨older, _, absences, (hcount.pass (e := .applied a) hunseen hf).congr ?_⟩
      exact Application.unmoved_of_unseen hf hunseen hg
    · rw [(Application.scanned_stores.untouched hquiet).1, Application.start_findings] at hf'
      have hconfirmation : confirmationKey job id = confirmationKey a.job id := by
        rw [confirmationKey, confirmationKey, hkey]
      obtain ⟨_, hlacks⟩ := Application.dated_of_removable hf' hundisturbed hrem
      have hunseen : ¬ a.Sights host id f'.resource := by
        rintro (hreports | hcurrent)
        · rw [hlacks] at hreports
          cases hreports
        · exact hquiet hcurrent
      obtain ⟨older, since, absences, hcount⟩ := h.absence hlog hundisturbed hf' hquiet hrem
      rw [hkey, hconfirmation]
      exact ⟨older, since, absences,
        hcount.congr (Application.unmoved_of_unseen hf' hunseen hg)⟩

theorem passes_counted :
    (passes host).Tracks (fun _ => True) fun log s => Counted host id log s := by
  rintro log s action - h
  cases action with
  | collect job result now clock =>
      exact Counted.applied (a := { before := s, job, result, now, clock }) h
  | evaluateFlows job now clock =>
      obtain ⟨progress, he, _, _⟩ := Flows.evaluate_snapshot s job now clock
      simp only [passes, he, List.append_nil]
      exact ⟨h.active, h.counting⟩
  | restoreSamples key samples =>
      simp only [passes, List.append_nil]
      exact ⟨h.active, h.counting⟩
  | expire freshness now =>
      refine ⟨fun job c hc => ?_, fun hlog job g c hg hc => ?_⟩
      · obtain ⟨f, hf⟩ := Table.mem_iff_getElem?.mp (h.active job c hc)
        rw [Table.mem_iff_getElem?]
        exact ⟨age freshness now f, by simp only [passes, expire_findings, hf, Option.map_some]⟩
      · simp only [passes] at hg
        rw [expire_findings] at hg
        obtain ⟨f, hf, rfl⟩ := Option.map_eq_some_iff.mp hg
        obtain ⟨older, since, absences, hcount⟩ :=
          h.counting (fun e he => hlog e (List.mem_append_left _ he)) job f c hf hc
        refine ⟨older, _, absences,
          (hcount.pass (e := .expired s freshness now) (fun hs => hs) hf).congr ?_⟩
        unfold age
        split <;> exact ⟨rfl, rfl, rfl⟩

end Counted

/-- **Removal soundness.** As long as no pass disturbs a pending counter of a
finding, every removal of the finding rests on as many absences of the job as it
asks for, each later than the one before and than the finding, in a stretch of
the run in which no job is about the finding. -/
theorem removed_supported (host : Host) (revision : String) (scope : List String)
    (began : Time) (steps : List Step) (id : String)
    (h : ∀ e ∈ journal host (State.new revision scope began) steps, e.Undisturbed host id)
    (before after : List Entry) (a : Application)
    (hlog : journal host (State.new revision scope began) steps
      = before ++ .applied a :: after)
    (t : Transition) (ht : t ∈ a.transitions host) (hid : t.finding = id)
    (hk : t.kind = .removed) :
    ∃ f older since absences, a.before.findings[id]? = some f ∧ (∃ result, a.Misses host f result)
      ∧ Removes host id a.job.key a.job.settings.removalConfirmations
          (before ++ [.applied a]) f older since absences := by
  have hmem : ∀ e ∈ before ++ [Entry.applied a], e.Undisturbed host id := by
    intro e he
    refine h e ?_
    rw [hlog, List.append_cons]
    exact List.mem_append_left _ he
  have hcounted : Counted host id before a.before :=
    journal_tracks (I := fun log s => Counted host id log s) passes_counted
      ⟨fun job c hc => by simp [State.new] at hc,
        fun _ job f c hf => by simp [State.new] at hf⟩ hlog
  have hreport := Application.reported_of_ended ht (.inr hk)
  rw [hid, hk, Application.settled] at hreport
  obtain ⟨f, hf, hreport⟩ := mem_settle_reports.mp hreport
  have hvalue := settles (a.settling host) id f
    (a.prepared host).1.confirmations[confirmationKey (a.settling host).job id]?
  generalize settleFinding (a.settling host) id f _ = visit at hreport hvalue
  cases hvalue with
  | detected => cases hreport
  | unknown => cases hreport
  | cleared _ _ _ report hr =>
      subst hr
      split at hreport
      · rw [List.mem_singleton] at hreport
        cases hreport
      · cases hreport
  | absent hquiet _ hrem c hc report hr =>
      subst hr
      have henough : a.job.settings.removalConfirmations ≤ c.count := by
        split at hreport
        · rename_i hle
          exact hle
        · cases hreport
      have hquiet : id ∉ (a.scanned host).current := hquiet
      rw [(Application.scanned_stores.untouched hquiet).1, Application.start_findings] at hf
      have hundisturbed : a.Undisturbed host id := hmem (.applied a) (by simp)
      obtain ⟨⟨result, hdated⟩, _⟩ := Application.dated_of_removable hf hundisturbed hrem
      obtain ⟨older, since, absences, hcount⟩ := hcounted.absence
        (fun e he => hmem e (List.mem_append_left _ he)) hundisturbed hf hquiet hrem
      have hsighted : c = confirm f a.before.confirmations[confirmationKey a.job id]?
          (absentAt (a.stored host) f) := by
        have hlimited : CheckResult.reports (a.settling host).stored f.resource = false := by
          simp only [removable, Bool.and_eq_true, Bool.not_eq_true'] at hrem
          exact hrem.1.2
        rw [hc, sighted, hlimited, ← (@Application.prepared_same host a).confirmations]
        rfl
      rw [← hsighted] at hcount
      exact ⟨f, older, since, absences, hf, ⟨result, hdated.toMisses⟩,
        { hcount.toRemoves with enough := henough.trans hcount.enough }⟩

/-! ## Where a removal rests on too little -/

namespace Sample

/-- What the pass leaves stored of a finding is an absence later than the finding. -/
def misses (host : Host) (f : Finding) : Entry → Bool
  | .expired _ _ _ => false
  | .applied a =>
      (a.final host).any fun result =>
        (evidenceOf f result).all fun o => f.observedAt < o.observedAt && o.coverage == .complete

/-- The inventory of the target, with the operation as often as it has coverages. -/
def census (now seen : Nat) (ops : List Coverage) (observations : List Observation) : Step :=
  .apply (job .inventory)
    (result .inventory (sec now) (ops.map fun coverage => operation "list" (sec seen) coverage)
      observations) (sec now) (sec now)

/-- The inventory of the target without a resource, with the operation as often as it was
observed. -/
def recount (now : Nat) (seen : List Nat) : Step :=
  .apply (job .inventory)
    (result .inventory (sec now) (seen.map fun at' => operation "list" (sec at') .complete) [])
    (sec now) (sec now)

/-- The other check of the target reports the resource between two absences. -/
def sightedSteps : List Step :=
  [census 1 1 [.complete] [condition "app/db" "list" (sec 1) false],
    census 10 10 [.complete] [], sighting .kubernetes "app/db" "list" (sec 11) false,
    census 12 12 [.complete] []]

/-- The operation is reported twice, once as unavailable. -/
def dividedSteps : List Step :=
  [census 1 1 [.complete] [condition "app/db" "list" (sec 1) false],
    census 2 2 [.complete, .unavailable] [], census 3 3 [.complete, .unavailable] []]

/-- The operation is older than its freshness limit. -/
def staleSteps : List Step :=
  [census 1 1 [.complete] [condition "app/db" "list" (sec 1) false],
    census 1001 2 [.complete] [], census 1002 3 [.complete] []]

/-- The operation is reported twice, once as it was before the finding. -/
def datedSteps : List Step :=
  [census 10 10 [.complete] [condition "app/db" "list" (sec 10) false],
    recount 20 [5, 20], recount 30 [6, 30]]

/-- A detection and two absences. -/
def lostSteps : List Step :=
  [census 1 1 [.complete] [condition "app/db" "list" (sec 1) false],
    census 2 2 [.complete] [], census 3 3 [.complete] []]

end Sample

theorem misses_of_misses {a : Application} {f : Finding} {result : CheckResult}
    (h : a.Misses host f result)
    (hlater : ∀ o ∈ evidenceOf f result, f.observedAt < o.observedAt) :
    Sample.misses host f (.applied a) = true := by
  simp only [Sample.misses, h.final, Option.any_some, List.all_eq_true, Bool.and_eq_true,
    decide_eq_true_eq, beq_iff_eq]
  intro o ho
  obtain ⟨hmem, hid⟩ := mem_evidenceOf.mp ho
  exact ⟨hlater o ho, (h.complete _ hid).2 o hmem rfl⟩

/-- A log with too few absences removes nothing. -/
theorem not_removes {log : List Entry} {f : Finding} {key : String} {threshold : Nat}
    (h : log.countP (Sample.misses host f) < threshold) :
    ¬ ∃ older since absences, Removes host id key threshold log f older since absences := by
  rintro ⟨older, since, absences, hr⟩
  have hall : (absences.map fun e => Entry.applied e.1).countP (Sample.misses host f)
      = absences.length := by
    rw [← List.length_map (f := fun e : Application × CheckResult => Entry.applied e.1),
      List.countP_eq_length]
    intro e he
    obtain ⟨e, hmem, rfl⟩ := List.mem_map.mp he
    exact misses_of_misses (hr.misses e hmem) (hr.later e hmem)
  have hsince : since.countP (Sample.misses host f) ≤ log.countP (Sample.misses host f) := by
    rw [hr.parts, List.countP_append]
    exact Nat.le_add_left _ _
  have hsub := hr.among.countP_le (p := Sample.misses host f)
  have henough := hr.enough
  omega

namespace Sample

/-- The last pass of the run removes the finding without the support. -/
def Unfounded (steps : List Step) (id : String) : Prop :=
  ∃ before a, journal machine start steps = before ++ [.applied a]
    ∧ (∃ t ∈ a.transitions machine, t.finding = id ∧ t.kind = .removed)
    ∧ ¬ ∃ f older since absences, a.before.findings[id]? = some f
      ∧ (∃ result, a.Misses machine f result)
      ∧ Removes machine id a.job.key a.job.settings.removalConfirmations
          (before ++ [.applied a]) f older since absences

theorem unfounded_of {steps : List Step} {check : Check} {result : CheckResult} {now : Time}
    {id : String}
    (hremoved : ((State.apply machine ((monitor machine).run start steps).1 (job check) result
      now now).2.any fun t => t.finding == id && t.kind == .removed) = true)
    (h : (((monitor machine).run start steps).1.findings[id]?).all (fun f =>
      (journal machine start (steps ++ [.apply (job check) result now now])).countP
        (misses machine f) < 2) = true) :
    Unfounded (steps ++ [.apply (job check) result now now]) id := by
  have hlast := @journal_apply machine ((monitor machine).run start steps).1 (job check) result
    now now rfl
  refine ⟨journal machine start steps, _, by rw [journal_append, hlast], ?_, ?_⟩
  · rw [List.any_eq_true] at hremoved
    obtain ⟨t, ht, hk⟩ := hremoved
    rw [Bool.and_eq_true, beq_iff_eq, beq_iff_eq] at hk
    exact ⟨t, ht, hk⟩
  · rintro ⟨f, older, since, absences, hf, _, hr⟩
    rw [journal_append, hlast] at h
    rw [hf, Option.all_some, decide_eq_true_eq] at h
    exact not_removes h ⟨older, since, absences, hr⟩

end Sample

/-- A removal across a sighting of another job, on an operation that is also
unavailable, on operations that are stale in the stored results, and on one that is also
older than the finding. -/
theorem removes_unsupported :
    Sample.Unfounded Sample.sightedSteps "app/db/ready"
    ∧ Sample.Unfounded Sample.dividedSteps "app/db/ready"
    ∧ Sample.Unfounded Sample.staleSteps "app/db/ready"
    ∧ Sample.Unfounded Sample.datedSteps "app/db/ready" := by
  refine ⟨?_, ?_, ?_, ?_⟩
  · exact @Sample.unfounded_of (Sample.sightedSteps.take 3) _ _ _ _ (by decide +kernel)
      (by decide +kernel)
  · exact @Sample.unfounded_of (Sample.dividedSteps.take 2) _ _ _ _ (by decide +kernel)
      (by decide +kernel)
  · exact @Sample.unfounded_of (Sample.staleSteps.take 2) _ _ _ _ (by decide +kernel)
      (by decide +kernel)
  · exact @Sample.unfounded_of (Sample.datedSteps.take 2) _ _ _ _ (by decide +kernel)
      (by decide +kernel)

/-- Two absences remove a finding with support. -/
theorem removed_supported_lost :
    ∃ before a, journal Sample.machine Sample.start Sample.lostSteps = before ++ [.applied a]
      ∧ ∃ f older since absences, a.before.findings["app/db/ready"]? = some f
        ∧ (∃ result, a.Misses Sample.machine f result)
        ∧ Removes Sample.machine "app/db/ready" a.job.key a.job.settings.removalConfirmations
          (before ++ [.applied a]) f older since absences := by
  have hlast := @journal_append Sample.machine Sample.start (Sample.lostSteps.take 2)
    (Sample.lostSteps.drop 2)
  rw [List.take_append_drop] at hlast
  have hpass : journal Sample.machine
      ((monitor Sample.machine).run Sample.start (Sample.lostSteps.take 2)).1
      (Sample.lostSteps.drop 2) = _ := journal_apply _ _ _ _ _ rfl
  rw [hpass] at hlast
  refine ⟨_, _, hlast, ?_⟩
  refine removed_supported Sample.machine "" ["app"] 0 Sample.lostSteps "app/db/ready" ?_
    _ [] _ hlast { time := Sample.sec 3, finding := "app/db/ready", kind := .removed }
    (by decide +kernel) rfl rfl
  have hall : ∀ e ∈ journal Sample.machine Sample.start Sample.lostSteps,
      e.Undisturbed Sample.machine "app/db/ready" := by
    decide +kernel
  exact hall

end HealthMonitor
