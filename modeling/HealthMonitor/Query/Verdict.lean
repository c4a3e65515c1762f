import HealthMonitor.Query.Assessment

/-!
# Verdict

What a passing assessment shows, and that nothing about an assessment depends on the order
of its evidence. The evidence of a pass is a conjunction; the code asks for all of it but
one thing: an oldest observation is compared with the deployment only where there is one.
-/

namespace HealthMonitor.Query

variable {query : Deployment} {evidence : Evidence} {window : Window} {now : Time}

/-! ## The evidence of a pass -/

/-- The record of a check shows that everything was collected after the deployment. -/
structure Vouched (seen : Option Time → Bool) (window : Window) (record : Record)
    (check : CheckDetails) : Prop where
  details : record.details = .check check
  complete : check.complete = true
  untruncated : check.operationsTruncated = false
  settled : check.pendingObservations = 0
  started : window.start ≤ check.startedAt
  finished : window.start ≤ check.finishedAt
  seen : seen check.oldestObservationAt = true
  valid : ∃ until', record.validUntil = some until' ∧ window.stop ≤ until'
  fresh : record.stale = false

/-- The record shows a release that runs in the window. -/
structure Shows (window : Window) (record : Record) (release : ReleaseDetails) : Prop where
  details : record.details = .release release
  observed : window.start ≤ record.lastObservedAt
  before : record.observedAt < window.stop
  fresh : record.stale = false
  valid : ∃ until', record.validUntil = some until' ∧ window.stop ≤ until'

/-- It is rolled out, and what was expected of it is there and agrees. -/
structure AsExpected (query : Deployment) (release : ReleaseDetails) : Prop where
  settled : release.pending = false
  digest : ∀ expected, query.expectedDigest = some expected →
    release.observedDigests ≠ [] ∧ ∀ digest ∈ release.observedDigests, digest = expected
  revision : ∀ expected, query.expectedRevision = some expected →
    release.verified = true ∧ release.revision = some expected

/-- Something is fresh, and nothing is wrong. -/
structure ReleaseAssessment.Clean (status : ReleaseAssessment) : Prop where
  fresh : 0 < status.fresh
  mismatch : status.mismatch = false
  pending : status.pending = false
  missingDigest : status.missingDigest = false
  unverifiedRevision : status.unverifiedRevision = false

/-- Everything a pass rests on, where `seen` says what the oldest observation of a check
has to be. -/
structure Supported (seen : Option Time → Bool) (query : Deployment) (evidence : Evidence)
    (window : Window) (now : Time) : Prop where
  ended : window.stop ≤ now
  available : evidence.availability.complete = true
  errors : evidence.errorCount = 0
  collected : evidence.failedChecks = 0
  required : evidence.requiredChecks ≠ []
  checks : ∀ identity ∈ evidence.requiredChecks, ∃ record check,
    latestBefore evidence.checks window.stop identity = some record
      ∧ Vouched seen window record check
  folded : expectsRelease query = true → ∀ status,
    evidence.releaseAssessment = some status → status.Clean
  releases : expectsRelease query = true → evidence.releaseAssessment = none →
    (∃ record ∈ evidence.releases, ∃ release, Shows window record release)
      ∧ ∀ record ∈ evidence.releases, ∀ release, Shows window record release →
        AsExpected query release

/-- There is an oldest observation, and it was made after the deployment. -/
abbrev Demonstrated (query : Deployment) (evidence : Evidence) (window : Window)
    (now : Time) : Prop :=
  Supported (·.any (window.start ≤ ·)) query evidence window now

/-- No observation was made before the deployment. -/
abbrev Unrefuted (query : Deployment) (evidence : Evidence) (window : Window)
    (now : Time) : Prop :=
  Supported (·.all (window.start ≤ ·)) query evidence window now

/-- The latest record of some required check names no oldest observation. -/
def Unobserved (evidence : Evidence) (window : Window) : Prop :=
  ∃ identity ∈ evidence.requiredChecks, ∃ record check,
    latestBefore evidence.checks window.stop identity = some record
      ∧ record.details = .check check ∧ check.oldestObservationAt = none

/-! ## What the code checks -/

theorem vouches_iff {record : Record} (hended : window.stop ≤ now) :
    vouches window now record = true
      ↔ ∃ check, Vouched (·.all (window.start ≤ ·)) window record check := by
  have hmin : earlier window.stop now = window.stop := if_pos hended
  rw [vouches, hmin]
  constructor
  · intro h
    cases hdetails : record.details with
    | check check =>
        rw [hdetails] at h
        simp only [Bool.and_eq_true, Bool.not_eq_true', beq_iff_eq, decide_eq_true_eq] at h
        obtain ⟨⟨⟨⟨⟨⟨⟨hcomplete, hops⟩, hpending⟩, hstart⟩, hfinish⟩, hold⟩, hvalid⟩, hfresh⟩ := h
        refine ⟨check, hdetails, hcomplete, hops, hpending, hstart, hfinish, hold, ?_, hfresh⟩
        rw [Option.any_eq_true] at hvalid
        obtain ⟨time, htime, hle⟩ := hvalid
        exact ⟨time, htime, of_decide_eq_true hle⟩
    | finding finding =>
        rw [hdetails] at h
        cases h
    | diagnostic diagnostic =>
        rw [hdetails] at h
        cases h
    | release release =>
        rw [hdetails] at h
        cases h
  · intro ⟨check, h⟩
    obtain ⟨time, htime, hle⟩ := h.valid
    rw [h.details]
    simp only [h.complete, h.untruncated, h.settled, h.started, h.finished, h.seen, htime, hle,
      h.fresh, Option.any_some, decide_true, Bool.not_false, beq_self_eq_true, Bool.and_self]

theorem currentRelease_eq_some {record : Record} {release : ReleaseDetails}
    (hended : window.stop ≤ now) :
    currentRelease window now record = some release ↔ Shows window record release := by
  have hmin : earlier window.stop now = window.stop := if_pos hended
  have hcurrent : isCurrent window now record = true
      ↔ window.start ≤ record.lastObservedAt ∧ record.observedAt < window.stop
        ∧ record.stale = false
        ∧ ∃ until', record.validUntil = some until' ∧ window.stop ≤ until' := by
    rw [isCurrent, hmin]
    cases record.validUntil <;> simp [and_assoc]
  rw [currentRelease]
  constructor
  · intro h
    by_cases hc : isCurrent window now record = true
    · rw [if_pos hc] at h
      obtain ⟨hobserved, hbefore, hfresh, hvalid⟩ := hcurrent.mp hc
      cases hdetails : record.details with
      | release r =>
          rw [hdetails] at h
          cases h
          exact ⟨hdetails, hobserved, hbefore, hfresh, hvalid⟩
      | finding finding =>
          rw [hdetails] at h
          cases h
      | diagnostic diagnostic =>
          rw [hdetails] at h
          cases h
      | check check =>
          rw [hdetails] at h
          cases h
    · rw [if_neg hc] at h
      cases h
  · intro h
    rw [if_pos (hcurrent.mpr ⟨h.observed, h.before, h.fresh, h.valid⟩), h.details]

theorem asExpected_iff {release : ReleaseDetails} :
    AsExpected query release ↔ release.pending = false ∧ mismatches query release = false
      ∧ lacksDigest query release = false ∧ unverified query release = false := by
  rw [mismatches, lacksDigest, unverified]
  constructor
  · intro h
    have hdigest := h.digest
    have hrevision := h.revision
    refine ⟨h.settled, ?_, ?_, ?_⟩
    · rw [Bool.or_eq_false_iff]
      constructor
      · cases hd : query.expectedDigest with
        | none => rfl
        | some expected => simpa using (hdigest expected hd).2
      · cases hr : query.expectedRevision with
        | none => rfl
        | some expected => simp [hrevision expected hr]
    · cases hd : query.expectedDigest with
      | none => rfl
      | some expected => simp [(hdigest expected hd).1]
    · cases hr : query.expectedRevision with
      | none => rfl
      | some expected => simp [hrevision expected hr]
  · intro ⟨hpending, hmismatch, hlacks, hunverified⟩
    rw [Bool.or_eq_false_iff] at hmismatch
    refine ⟨hpending, fun expected hd => ?_, fun expected hr => ?_⟩
    · rw [hd] at hmismatch hlacks
      simpa using And.intro hlacks hmismatch.1
    · rw [hr] at hmismatch hunverified
      cases hrevision : release.revision <;> simp_all

theorem clean_ofReleases {releases : List ReleaseDetails} :
    (ReleaseAssessment.ofReleases query releases).Clean
      ↔ releases ≠ [] ∧ ∀ release ∈ releases, AsExpected query release := by
  have hlength : 0 < min releases.length (2 ^ 64 - 1) ↔ releases ≠ [] := by
    refine Iff.trans ?_ List.length_pos_iff
    omega
  constructor
  · intro h
    refine ⟨hlength.mp h.fresh, fun release hrelease => asExpected_iff.mpr ?_⟩
    refine ⟨?_, ?_, ?_, ?_⟩
    · exact Bool.eq_false_iff.mpr (List.any_eq_false.mp h.pending release hrelease)
    · exact Bool.eq_false_iff.mpr (List.any_eq_false.mp h.mismatch release hrelease)
    · exact Bool.eq_false_iff.mpr (List.any_eq_false.mp h.missingDigest release hrelease)
    · exact Bool.eq_false_iff.mpr (List.any_eq_false.mp h.unverifiedRevision release hrelease)
  · intro ⟨hne, h⟩
    have hall := fun release hrelease => asExpected_iff.mp (h release hrelease)
    refine ⟨hlength.mpr hne, ?_, ?_, ?_, ?_⟩ <;> refine List.any_eq_false.mpr fun r hr => ?_
    · exact Bool.eq_false_iff.mp (hall r hr).2.1
    · exact Bool.eq_false_iff.mp (hall r hr).1
    · exact Bool.eq_false_iff.mp (hall r hr).2.2.1
    · exact Bool.eq_false_iff.mp (hall r hr).2.2.2

theorem sortDedup_eq_nil {reasons : List String} : sortDedup reasons = [] ↔ reasons = [] := by
  rw [sortDedup, List.destutter_eq_nil]
  constructor
  · intro h
    exact List.perm_nil.mp (h ▸ (List.mergeSort_perm reasons _).symm)
  · rintro rfl
    simp

theorem ReleaseAssessment.reasons_eq_nil {status : ReleaseAssessment} :
    status.reasons = [] ↔ 0 < status.fresh ∧ status.pending = false
      ∧ status.missingDigest = false ∧ status.unverifiedRevision = false := by
  simp [reasons, Nat.pos_iff_ne_zero]

theorem Assessment.findReasons_eq_nil {status : Option ReleaseAssessment}
    {result : Assessment} :
    result.findReasons status = [] ↔ result.assessedChecks ≠ []
      ∧ result.outstandingChecks = [] ∧ result.failedCheckCount = 0
      ∧ (∀ s, status = some s → s.reasons = []) ∧ result.errorCount = 0 := by
  have hstatus : status.elim [] ReleaseAssessment.reasons = []
      ↔ ∀ s, status = some s → s.reasons = [] := by
    cases status <;> simp
  rw [findReasons, sortDedup_eq_nil]
  simp only [List.append_eq_nil_iff, hstatus, and_assoc]
  refine and_congr ?_ (and_congr ?_ (and_congr ?_ (and_congr Iff.rfl ?_)))
  · cases result.assessedChecks <;> simp
  · cases result.outstandingChecks <;> simp
  · split <;> simp <;> omega
  · split <;> simp <;> omega

/-- The outcome is a pass when nothing is left that speaks against it. -/
theorem Assessment.conclude_passing {status : Option ReleaseAssessment}
    {result : Assessment} :
    (result.conclude status now).outcome = .passing
      ↔ result.window.stop ≤ now ∧ result.availability.complete = true
        ∧ result.assessedChecks ≠ [] ∧ result.outstandingChecks = []
        ∧ result.failedCheckCount = 0 ∧ (∀ s, status = some s → s.Clean)
        ∧ result.errorCount = 0 := by
  have hclean : (∀ s, status = some s → s.Clean)
      ↔ status.any (·.mismatch) = false ∧ ∀ s, status = some s → s.reasons = [] := by
    simp only [ReleaseAssessment.reasons_eq_nil]
    cases status with
    | none => simp
    | some s =>
        constructor
        · intro h
          obtain ⟨hfresh, hmismatch, hpending, hdigest, hrevision⟩ := h s rfl
          exact ⟨hmismatch, fun t ht => Option.some.inj ht ▸
            ⟨hfresh, hpending, hdigest, hrevision⟩⟩
        · intro ⟨hmismatch, h⟩ t ht
          obtain ⟨hfresh, hpending, hdigest, hrevision⟩ := h t ht
          cases ht
          exact ⟨hfresh, hmismatch, hpending, hdigest, hrevision⟩
  have hreasons := @findReasons_eq_nil status result
  rw [conclude]
  constructor
  · intro h
    by_cases hfail : 0 < result.errorCount
        ∨ status.any (·.mismatch) = true ∧ result.window.stop ≤ now
    · rw [if_pos (by simpa using hfail)] at h
      cases h
    · rw [if_neg (by simpa using hfail)] at h
      by_cases hopen : now < result.window.stop
      · rw [if_pos hopen] at h
        cases h
      · rw [if_neg hopen] at h
        have hended := not_lt.mp hopen
        by_cases hleft : (!result.availability.complete
            || !(result.findReasons status).isEmpty) = true
        · rw [if_pos hleft] at h
          cases h
        · simp only [Bool.or_eq_true, Bool.not_eq_true', not_or, Bool.not_eq_false,
            List.isEmpty_iff] at hleft
          obtain ⟨hrequired, hvouched, hfailed, hstatus, herrors⟩ := hreasons.mp hleft.2
          refine ⟨hended, hleft.1, hrequired, hvouched, hfailed, hclean.mpr ⟨?_, hstatus⟩, herrors⟩
          exact Bool.eq_false_iff.mpr fun hm => hfail (.inr ⟨hm, hended⟩)
  · intro ⟨hended, havailable, hrequired, hvouched, hfailed, hstatus, herrors⟩
    obtain ⟨hmismatch, hnone⟩ := hclean.mp hstatus
    have hnil := hreasons.mpr ⟨hrequired, hvouched, hfailed, hnone, herrors⟩
    have hopen : ¬now < result.window.stop := not_lt.mpr hended
    simp [herrors, hmismatch, hopen, havailable, hnil]

/-! ## The loops of an evaluation -/

/-- The assessment before its conclusion. -/
def assessed (query : Deployment) (evidence : Evidence) (window : Window) (now : Time) :
    Assessment :=
  { Assessment.unassessed query evidence window with
    outstandingChecks := evidence.requiredChecks.filter fun identity =>
      !(latestChecks window evidence.checks)[identity]?.any (vouches window now)
    nextObservationAt :=
      evidence.requiredChecks.foldl (soonest (latestChecks window evidence.checks) now) none
    newFindings := evidence.findings.filter
      (classOf (baselineSeverity window evidence.baseline) window · = .new)
    worsenedFindings := evidence.findings.filter
      (classOf (baselineSeverity window evidence.baseline) window · = .worsened)
    preExistingFindings := evidence.findings.filter
      (classOf (baselineSeverity window evidence.baseline) window · = .preExisting)
    recoveredFindings := evidence.findings.filter (isRecovered window)
    unclassifiedFindings := evidence.findings.filter
      (classOf (baselineSeverity window evidence.baseline) window · = .unclassified) }

theorem assess_eq :
    assess query evidence window now
      = (assessed query evidence window now).conclude
          (releaseStatus query window now evidence) now := by
  rw [assess, Assessment.foldl_classify, Assessment.foldl_require]
  rfl

theorem evaluate_eq (hwindow : query.window = .ok window) :
    evaluate query evidence now = .ok
      ((assessed query evidence window now).conclude (releaseStatus query window now evidence)
        now) := by
  rw [evaluate, hwindow, ← assess_eq]
  rfl

@[simp] theorem Assessment.conclude_window (status : Option ReleaseAssessment)
    (result : Assessment) : (result.conclude status now).window = result.window := by
  rw [conclude]
  split_ifs <;> rfl

/-- The window is that of the request. -/
theorem window_of_evaluate {result : Assessment}
    (h : evaluate query evidence now = .ok result) : query.window = .ok result.window := by
  cases hwindow : query.window with
  | error error =>
      rw [evaluate, hwindow] at h
      cases h
  | ok window =>
      rw [evaluate_eq hwindow] at h
      cases h
      rw [Assessment.conclude_window]
      rfl

/-- Every required check has a latest record, and that vouches for it. -/
theorem outstanding_eq_nil (hended : window.stop ≤ now) :
    (assessed query evidence window now).outstandingChecks = []
      ↔ ∀ identity ∈ evidence.requiredChecks, ∃ record check,
        latestBefore evidence.checks window.stop identity = some record
          ∧ Vouched (·.all (window.start ≤ ·)) window record check := by
  rw [assessed, List.filter_eq_nil_iff]
  refine forall₂_congr fun identity _ => ?_
  rw [getElem?_latestChecks, Bool.not_eq_true', Bool.not_eq_false, Option.any_eq_true]
  refine exists_congr fun record => ?_
  rw [vouches_iff hended, exists_and_left]

theorem status_clean (hended : window.stop ≤ now) :
    (∀ status, releaseStatus query window now evidence = some status → status.Clean)
      ↔ (expectsRelease query = true → ∀ status,
          evidence.releaseAssessment = some status → status.Clean)
        ∧ (expectsRelease query = true → evidence.releaseAssessment = none →
          (∃ record ∈ evidence.releases, ∃ release, Shows window record release)
            ∧ ∀ record ∈ evidence.releases, ∀ release, Shows window record release →
              AsExpected query release) := by
  have hsome : ∀ release, release ∈ evidence.releases.filterMap (currentRelease window now)
      ↔ ∃ record ∈ evidence.releases, Shows window record release := by
    intro release
    rw [List.mem_filterMap]
    refine exists_congr fun record => and_congr_right fun _ => ?_
    exact currentRelease_eq_some hended
  have hlisted : (ReleaseAssessment.ofReleases query
        (evidence.releases.filterMap (currentRelease window now))).Clean
      ↔ (∃ record ∈ evidence.releases, ∃ release, Shows window record release)
        ∧ ∀ record ∈ evidence.releases, ∀ release, Shows window record release →
          AsExpected query release := by
    rw [clean_ofReleases]
    constructor
    · intro ⟨hne, hall⟩
      obtain ⟨release, hrelease⟩ := List.exists_mem_of_ne_nil _ hne
      obtain ⟨record, hrecord, hshows⟩ := (hsome release).mp hrelease
      exact ⟨⟨record, hrecord, release, hshows⟩, fun record hrecord release hshows =>
        hall release ((hsome release).mpr ⟨record, hrecord, hshows⟩)⟩
    · intro ⟨⟨record, hrecord, release, hshows⟩, hall⟩
      refine ⟨List.ne_nil_of_mem ((hsome release).mpr ⟨record, hrecord, hshows⟩), ?_⟩
      intro release hrelease
      obtain ⟨record, hrecord, hshows⟩ := (hsome release).mp hrelease
      exact hall record hrecord release hshows
  by_cases hexpects : expectsRelease query = true
  · cases hgiven : evidence.releaseAssessment with
    | some status => simp [releaseStatus, hexpects, hgiven]
    | none =>
        simp only [releaseStatus, hexpects, hgiven, if_true, ReleaseAssessment.foldl_observe,
          Option.some.injEq, forall_eq', reduceCtorEq, false_implies, implies_true, true_implies,
          true_and]
        exact hlisted
  · simp [releaseStatus, hexpects]

/-- A pass says everything it should, except that there was an observation. -/
theorem passing_iff {result : Assessment} (h : evaluate query evidence now = .ok result) :
    result.outcome = .passing ↔ Unrefuted query evidence result.window now := by
  have hwindow := window_of_evaluate h
  rw [evaluate_eq hwindow] at h
  generalize result.window = window at hwindow h ⊢
  cases h
  rw [Assessment.conclude_passing]
  constructor
  · intro ⟨hended, havailable, hrequired, hchecks, hfailed, hstatus, herrors⟩
    obtain ⟨hfolded, hreleases⟩ := (status_clean hended).mp hstatus
    exact ⟨hended, havailable, herrors, hfailed, hrequired,
      (outstanding_eq_nil hended).mp hchecks, hfolded, hreleases⟩
  · intro h
    exact ⟨h.ended, h.available, h.required, (outstanding_eq_nil h.ended).mpr h.checks,
      h.collected, (status_clean h.ended).mpr ⟨h.folded, h.releases⟩, h.errors⟩

/-- What is missing in an unrefuted assessment is an observation. -/
theorem demonstrated_iff :
    Demonstrated query evidence window now
      ↔ Unrefuted query evidence window now ∧ ¬Unobserved evidence window := by
  have hseen : ∀ oldest : Option Time, oldest.any (window.start ≤ ·) = true
      ↔ oldest.all (window.start ≤ ·) = true ∧ oldest ≠ none := by
    intro oldest
    cases oldest <;> simp
  constructor
  · intro h
    refine ⟨{ h with checks := fun identity hidentity => ?_ }, ?_⟩
    · obtain ⟨record, check, hlatest, hv⟩ := h.checks identity hidentity
      exact ⟨record, check, hlatest, { hv with seen := ((hseen _).mp hv.seen).1 }⟩
    · intro ⟨identity, hidentity, record, check, hlatest, hdetails, hnone⟩
      obtain ⟨record', check', hlatest', hv⟩ := h.checks identity hidentity
      cases Option.some.inj (hlatest.symm.trans hlatest')
      cases Details.check.inj (hdetails.symm.trans hv.details)
      exact ((hseen _).mp hv.seen).2 hnone
  · intro ⟨h, hobserved⟩
    refine { h with checks := fun identity hidentity => ?_ }
    obtain ⟨record, check, hlatest, hv⟩ := h.checks identity hidentity
    refine ⟨record, check, hlatest, { hv with seen := (hseen _).mpr ⟨hv.seen, fun hnone => ?_⟩ }⟩
    exact hobserved ⟨identity, hidentity, record, check, hlatest, hv.details, hnone⟩

/-! ## The order of the evidence -/

/-- The same evidence, with its records in another order. -/
structure Evidence.Reordered (a b : Evidence) : Prop where
  checks : a.checks.Perm b.checks
  releases : a.releases.Perm b.releases
  findings : a.findings.Perm b.findings
  baseline : a.baseline.Perm b.baseline
  requiredChecks : a.requiredChecks = b.requiredChecks
  releaseAssessment : a.releaseAssessment = b.releaseAssessment
  errorCount : a.errorCount = b.errorCount
  failedChecks : a.failedChecks = b.failedChecks
  availability : a.availability = b.availability
  nextCursor : a.nextCursor = b.nextCursor

/-- No two records of a check were observed at the same time. -/
def DistinctTimes (checks : List Record) : Prop :=
  checks.Pairwise fun a b => a.identity = b.identity → a.observedAt ≠ b.observedAt

/-- The same assessment, with the findings of each class in another order. -/
structure Assessment.Same (a b : Assessment) : Prop where
  scope : a.scope = b.scope
  assessedChecks : a.assessedChecks = b.assessedChecks
  outcome : a.outcome = b.outcome
  window : a.window = b.window
  baseline : a.baseline = b.baseline
  availability : a.availability = b.availability
  reasons : a.reasons = b.reasons
  outstandingChecks : a.outstandingChecks = b.outstandingChecks
  nextObservationAt : a.nextObservationAt = b.nextObservationAt
  newFindings : a.newFindings.Perm b.newFindings
  worsenedFindings : a.worsenedFindings.Perm b.worsenedFindings
  preExistingFindings : a.preExistingFindings.Perm b.preExistingFindings
  recoveredFindings : a.recoveredFindings.Perm b.recoveredFindings
  unclassifiedFindings : a.unclassifiedFindings.Perm b.unclassifiedFindings
  nextCursor : a.nextCursor = b.nextCursor
  errorCount : a.errorCount = b.errorCount
  failedCheckCount : a.failedCheckCount = b.failedCheckCount

theorem DistinctTimes.eq {checks : List Record} (h : DistinctTimes checks) {a b : Record}
    (ha : a ∈ checks) (hb : b ∈ checks) (hidentity : a.identity = b.identity)
    (htime : a.observedAt = b.observedAt) : a = b := by
  have hsymm : Std.Symm fun a b : Record =>
      a.identity = b.identity → a.observedAt ≠ b.observedAt :=
    ⟨fun _ _ h hid ht => h hid.symm ht.symm⟩
  by_contra hne
  exact h.forall ha hb hne hidentity htime

/-- The latest record does not depend on the order when no two are equally late. -/
theorem latestBefore_perm {a b : List Record} (h : a.Perm b) (hdistinct : DistinctTimes a)
    (stop : Time) (identity : String) :
    latestBefore a stop identity = latestBefore b stop identity := by
  have hmem : ∀ record, record ∈ (a.filter fun record =>
        record.observedAt < stop && record.identity = identity).reverse
      ↔ record ∈ (b.filter fun record =>
        record.observedAt < stop && record.identity = identity).reverse := by
    intro record
    rw [List.mem_reverse, List.mem_reverse, (h.filter _).mem_iff]
  cases hb : latestBefore b stop identity with
  | none =>
      rw [latestBefore, Newest.newest_eq_none, List.eq_nil_iff_forall_not_mem] at hb ⊢
      exact fun record hrecord => hb record ((hmem record).mp hrecord)
  | some record =>
      have hb := Newest.Leads.of_newest hb
      cases ha : latestBefore a stop identity with
      | none =>
          rw [latestBefore, Newest.newest_eq_none] at ha
          have := (hmem record).mpr hb.mem
          rw [ha] at this
          cases this
      | some record' =>
          have ha := Newest.Leads.of_newest ha
          have hle := hb.le ((hmem record').mp ha.mem)
          have hge := ha.le ((hmem record).mpr hb.mem)
          have hrecord := (hmem record).mpr hb.mem
          have hrecord' := ha.mem
          rw [List.mem_reverse, List.mem_filter, Bool.and_eq_true, decide_eq_true_eq,
            decide_eq_true_eq] at hrecord hrecord'
          exact congrArg some (hdistinct.eq hrecord'.1 hrecord.1
            (hrecord'.2.2.trans hrecord.2.2.symm) (le_antisymm hle hge))

theorem latestChecks_perm {a b : List Record} (h : a.Perm b) (hdistinct : DistinctTimes a) :
    latestChecks window a = latestChecks window b := by
  refine Std.ExtTreeMap.ext_getElem? fun k => ?_
  rw [getElem?_latestChecks, getElem?_latestChecks, latestBefore_perm h hdistinct]

theorem releaseStatus_reordered {other : Evidence} (h : evidence.Reordered other) :
    releaseStatus query window now other = releaseStatus query window now evidence := by
  have hreleases := h.releases.filterMap (currentRelease window now)
  rw [releaseStatus, releaseStatus, ← h.releaseAssessment, ReleaseAssessment.foldl_observe,
    ReleaseAssessment.foldl_observe, ReleaseAssessment.ofReleases_perm query hreleases]

theorem assessed_reordered {other : Evidence} (h : evidence.Reordered other)
    (hdistinct : DistinctTimes evidence.checks) :
    (assessed query evidence window now).Same (assessed query other window now) := by
  have hchecks := @latestChecks_perm window _ _ h.checks hdistinct
  have hbaseline := baselineSeverity_perm window h.baseline
  have hunassessed : Assessment.unassessed query evidence window
      = Assessment.unassessed query other window := by
    rw [Assessment.unassessed, Assessment.unassessed, h.requiredChecks, h.errorCount,
      h.failedChecks, h.availability, h.nextCursor]
  rw [assessed, assessed, hchecks, hbaseline, hunassessed, h.requiredChecks]
  constructor <;> first | rfl | exact h.findings.filter _

/-- The conclusion reads nothing that depends on the order. -/
theorem Assessment.Same.conclude {a b : Assessment} (h : a.Same b)
    (status : Option ReleaseAssessment) (now : Time) :
    (a.conclude status now).Same (b.conclude status now) := by
  have hreasons : a.findReasons status = b.findReasons status := by
    simp only [findReasons, h.assessedChecks, h.outstandingChecks, h.failedCheckCount,
      h.errorCount]
  have hfailing : (0 < a.errorCount || status.any (·.mismatch) && a.window.stop ≤ now)
      = (0 < b.errorCount || status.any (·.mismatch) && b.window.stop ≤ now : Bool) := by
    rw [h.errorCount, h.window]
  have hopen : (now < a.window.stop) = (now < b.window.stop) := by rw [h.window]
  have hleft : (!a.availability.complete || !(b.findReasons status).isEmpty)
      = (!b.availability.complete || !(b.findReasons status).isEmpty) := by
    rw [h.availability]
  rw [Assessment.conclude, Assessment.conclude, hreasons]
  simp only [hfailing, hopen, hleft]
  split_ifs <;> exact { h with outcome := rfl, reasons := rfl }

theorem evaluate_reordered {other : Evidence} {result : Assessment}
    (h : evidence.Reordered other) (hdistinct : DistinctTimes evidence.checks)
    (hresult : evaluate query evidence now = .ok result) :
    ∃ result', evaluate query other now = .ok result' ∧ result.Same result' := by
  have hwindow := window_of_evaluate hresult
  rw [evaluate_eq hwindow] at hresult ⊢
  rw [releaseStatus_reordered h]
  generalize result.window = window at hwindow hresult ⊢
  cases hresult
  exact ⟨_, rfl, (assessed_reordered h hdistinct).conclude _ _⟩

/-- Release evidence may be folded before. -/
theorem evaluate_folded (hnone : evidence.releaseAssessment = none)
    (hwindow : query.window = .ok window) :
    evaluate query { evidence with
        releases := []
        releaseAssessment := some
          (evidence.releases.foldl (ReleaseAssessment.observe query window now) {}) } now
      = evaluate query evidence now := by
  rw [evaluate_eq hwindow, evaluate_eq hwindow]
  refine congrArg _ (congrArg₂ (Assessment.conclude · now) ?_ rfl)
  rw [releaseStatus, releaseStatus, hnone]

end HealthMonitor.Query
