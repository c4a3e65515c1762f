import HealthMonitor.Library.Newest
import HealthMonitor.Query.Filter
import Mathlib.Data.List.Destutter
import Mathlib.Data.Option.Basic

/-!
# Assessment

Deployment verdicts. Findings are classified against the severities of a baseline, the
latest record of every required check has to vouch for the time after the deployment, and
release evidence is folded into a result of fixed size. The reasons that are left decide
between a pass and an incomplete verdict.
-/

namespace HealthMonitor.Query

structure Availability where
  requested : Window
  availableSince : Option Time
  persistedThrough : Option Time
  historyAvailable : Bool
  complete : Bool
  gaps : List String
  deriving DecidableEq, Repr

inductive Outcome where
  | passing | failing | pending | incomplete
  deriving DecidableEq, Repr

structure Assessment where
  scope : Filter
  assessedChecks : List String
  outcome : Outcome
  window : Window
  baseline : Window
  availability : Availability
  reasons : List String := []
  outstandingChecks : List String := []
  nextObservationAt : Option Time := none
  newFindings : List Record := []
  worsenedFindings : List Record := []
  preExistingFindings : List Record := []
  recoveredFindings : List Record := []
  unclassifiedFindings : List Record := []
  nextCursor : Option String
  errorCount : Nat
  failedCheckCount : Nat
  deriving DecidableEq, Repr

/-! ## Release evidence -/

structure ReleaseAssessment where
  fresh : Nat := 0
  mismatch : Bool := false
  pending : Bool := false
  missingDigest : Bool := false
  unverifiedRevision : Bool := false
  deriving DecidableEq, Repr

def earlier (a b : Time) : Time := if a ≤ b then a else b

/-- Observed within the window, and still valid. -/
def isCurrent (window : Window) (now : Time) (record : Record) : Bool :=
  !(record.lastObservedAt < window.start || window.stop ≤ record.observedAt || record.stale
    || record.validUntil.all (· < earlier window.stop now))

def lacksDigest (query : Deployment) (release : ReleaseDetails) : Bool :=
  query.expectedDigest.isSome && release.observedDigests.isEmpty

def unverified (query : Deployment) (release : ReleaseDetails) : Bool :=
  query.expectedRevision.isSome && (!release.verified || release.revision.isNone)

def mismatches (query : Deployment) (release : ReleaseDetails) : Bool :=
  query.expectedDigest.any (fun expected => release.observedDigests.any (· != expected))
    || query.expectedRevision.any fun expected =>
      release.verified && release.revision.any (· != expected)

namespace ReleaseAssessment

def note (query : Deployment) (status : ReleaseAssessment) (release : ReleaseDetails) :
    ReleaseAssessment where
  fresh := min (status.fresh + 1) (2 ^ 64 - 1)
  mismatch := status.mismatch || mismatches query release
  pending := status.pending || release.pending
  missingDigest := status.missingDigest || lacksDigest query release
  unverifiedRevision := status.unverifiedRevision || unverified query release

def observe (query : Deployment) (window : Window) (now : Time)
    (status : ReleaseAssessment) (record : Record) : ReleaseAssessment :=
  if isCurrent window now record then
    match record.details with
    | .release release => status.note query release
    | _ => status
  else status

def reasons (status : ReleaseAssessment) : List String :=
  [(status.fresh == 0, "Expected release has not been observed after deployment"),
    (status.pending, "Release rollout is still pending"),
    (status.missingDigest, "Observed image digest is unavailable"),
    (status.unverifiedRevision, "Observed source revision is not verified")].filterMap
      fun (condition, text) => if condition then some text else none

/-- What a whole list of current releases amounts to. -/
def ofReleases (query : Deployment) (releases : List ReleaseDetails) :
    ReleaseAssessment where
  fresh := min releases.length (2 ^ 64 - 1)
  mismatch := releases.any (mismatches query)
  pending := releases.any (·.pending)
  missingDigest := releases.any (lacksDigest query)
  unverifiedRevision := releases.any (unverified query)

theorem note_ofReleases (query : Deployment) (releases : List ReleaseDetails)
    (release : ReleaseDetails) :
    (ofReleases query releases).note query release
      = ofReleases query (releases ++ [release]) := by
  have hfresh : min (min releases.length (2 ^ 64 - 1) + 1) (2 ^ 64 - 1)
      = min (releases.length + 1) (2 ^ 64 - 1) := by omega
  simp only [note, ofReleases, hfresh, List.any_append, List.any_cons, List.any_nil,
    Bool.or_false, List.length_append, List.length_singleton]

theorem ofReleases_perm (query : Deployment) {a b : List ReleaseDetails} (h : a.Perm b) :
    ofReleases query a = ofReleases query b := by
  simp only [ofReleases, h.length_eq, h.any_eq]

end ReleaseAssessment

/-- The release of a record that counts. -/
def currentRelease (window : Window) (now : Time) (record : Record) :
    Option ReleaseDetails :=
  if isCurrent window now record then
    match record.details with
    | .release release => some release
    | _ => none
  else none

theorem ReleaseAssessment.observe_eq (query : Deployment) (window : Window) (now : Time)
    (status : ReleaseAssessment) (record : Record) :
    observe query window now status record
      = (currentRelease window now record).elim status (status.note query) := by
  rw [observe, currentRelease]
  by_cases hcurrent : isCurrent window now record = true
  · rw [if_pos hcurrent, if_pos hcurrent]
    cases record.details <;> rfl
  · rw [if_neg hcurrent, if_neg hcurrent]
    rfl

/-- The fold has nothing but the current releases in it. -/
theorem ReleaseAssessment.foldl_observe (query : Deployment) (window : Window) (now : Time)
    (records : List Record) :
    records.foldl (observe query window now) {}
      = ofReleases query (records.filterMap (currentRelease window now)) := by
  induction records using List.reverseRecOn with
  | nil => rfl
  | append_singleton records record ih =>
      rw [List.foldl_append, List.foldl_cons, List.foldl_nil, ih, observe_eq,
        List.filterMap_append]
      cases hrecord : currentRelease window now record with
      | none => simp [hrecord]
      | some release =>
          rw [Option.elim_some, note_ofReleases, List.filterMap_cons_some hrecord,
            List.filterMap_nil]

/-! ## Findings -/

/-- What a record says about the severity of its finding at the deployment. -/
def severityBefore (window : Window) (record : Record) : Option Severity :=
  if record.closedAt.any (· < window.start) then none else record.severity

def worse (a b : Severity) : Severity :=
  if b.rank < a.rank then a else b

def raise (window : Window) (severities : Table Severity) (record : Record) :
    Table Severity :=
  match severityBefore window record with
  | none => severities
  | some severity =>
      severities.insert record.identity
        (severities[record.identity]?.elim severity (worse · severity))

def baselineSeverity (window : Window) (baseline : List Record) : Table Severity :=
  baseline.foldl (raise window) ∅

theorem getElem?_raise (window : Window) (severities : Table Severity) (record : Record)
    (k : String) :
    (raise window severities record)[k]?
      = if record.identity = k then
          Option.merge worse severities[k]? (severityBefore window record)
        else severities[k]? := by
  rw [raise]
  cases hbefore : severityBefore window record with
  | none =>
      dsimp only
      split
      · rw [Option.merge_none_right]
      · rfl
  | some severity =>
      dsimp only
      by_cases hk : record.identity = k
      · subst hk
        rw [if_pos rfl]
        cases severities[record.identity]? <;> simp [Option.merge]
      · rw [if_neg hk, Table.getElem?_insert_ne (Ne.symm hk)]

theorem merge_worse_comm (a b c : Option Severity) :
    Option.merge worse (Option.merge worse a b) c
      = Option.merge worse (Option.merge worse a c) b := by
  rcases a with _ | a <;> rcases b with _ | b <;> rcases c with _ | c <;>
    simp only [Option.merge]
  · cases b <;> cases c <;> rfl
  · cases a <;> cases b <;> cases c <;> rfl

theorem baselineSeverity_perm (window : Window) {a b : List Record} (h : a.Perm b) :
    baselineSeverity window a = baselineSeverity window b := by
  refine h.foldl_eq' (fun x _ y _ severities => ?_) ∅
  refine Std.ExtTreeMap.ext_getElem? fun k => ?_
  simp only [getElem?_raise]
  by_cases hx : x.identity = k
  · by_cases hy : y.identity = k
    · rw [if_pos hx, if_pos hy, if_pos hx, if_pos hy, merge_worse_comm]
    · rw [if_pos hx, if_neg hy, if_neg hy, if_pos hx]
  · by_cases hy : y.identity = k
    · rw [if_neg hx, if_pos hy, if_neg hx]
    · rw [if_neg hx, if_neg hy, if_neg hx]

def firstDetectedAt (record : Record) : Option Time :=
  match record.details with
  | .finding finding => finding.firstDetectedAt
  | _ => none

/-- How a finding compares to what was there before the deployment. -/
inductive Class where
  | new | worsened | preExisting | unclassified
  deriving DecidableEq, Repr

def classOf (severities : Table Severity) (window : Window) (record : Record) : Class :=
  let old := severities[record.identity]?
  if (firstDetectedAt record).any fun time => window.start ≤ time && time < window.stop then
    .new
  else if old.any fun old => record.severity.any fun severity => old.rank < severity.rank then
    .worsened
  else if old.isSome || (firstDetectedAt record).any (· < window.start) then
    .preExisting
  else .unclassified

def isRecovered (window : Window) (record : Record) : Bool :=
  record.state == some .recovered
    && record.closedAt.any fun time => window.start ≤ time && time < window.stop

namespace Assessment

def recover (result : Assessment) (record : Record) : Assessment :=
  if isRecovered result.window record then
    { result with recoveredFindings := result.recoveredFindings ++ [record] }
  else result

def file (result : Assessment) (record : Record) : Class → Assessment
  | .new => { result with newFindings := result.newFindings ++ [record] }
  | .worsened => { result with worsenedFindings := result.worsenedFindings ++ [record] }
  | .preExisting =>
      { result with preExistingFindings := result.preExistingFindings ++ [record] }
  | .unclassified =>
      { result with unclassifiedFindings := result.unclassifiedFindings ++ [record] }

def classify (severities : Table Severity) (result : Assessment) (record : Record) :
    Assessment :=
  (result.recover record).file record (classOf severities result.window record)

/-- The loop over the findings files each under its class, in the order of the list. -/
theorem foldl_classify (severities : Table Severity) (result : Assessment)
    (findings : List Record) :
    findings.foldl (classify severities) result =
      { result with
        recoveredFindings := result.recoveredFindings
          ++ findings.filter (isRecovered result.window)
        newFindings := result.newFindings
          ++ findings.filter (classOf severities result.window · = .new)
        worsenedFindings := result.worsenedFindings
          ++ findings.filter (classOf severities result.window · = .worsened)
        preExistingFindings := result.preExistingFindings
          ++ findings.filter (classOf severities result.window · = .preExisting)
        unclassifiedFindings := result.unclassifiedFindings
          ++ findings.filter (classOf severities result.window · = .unclassified) } := by
  induction findings generalizing result with
  | nil => simp
  | cons record findings ih =>
      rw [List.foldl_cons, ih, classify, recover]
      by_cases hrecovered : isRecovered result.window record = true
      · cases hclass : classOf severities result.window record <;>
          simp [file, hrecovered, hclass]
      · cases hclass : classOf severities result.window record <;>
          simp [file, hrecovered, hclass]

end Assessment

/-! ## Checks -/

/-- Put the record under its identity, unless one there is as new. -/
def keepLatest (window : Window) (checks : Table Record) (record : Record) : Table Record :=
  if record.observedAt < window.stop then
    if checks[record.identity]?.all (·.observedAt < record.observedAt) then
      checks.insert record.identity record
    else checks
  else checks

def latestChecks (window : Window) (checks : List Record) : Table Record :=
  checks.foldl (keepLatest window) ∅

/-- The latest record of a check before an instant, the first of those that are equally
late. -/
def latestBefore (checks : List Record) (stop : Time) (identity : String) : Option Record :=
  Newest.newest (·.observedAt) (checks.filter fun record =>
    record.observedAt < stop && record.identity = identity).reverse

theorem getElem?_latestChecks (window : Window) (checks : List Record) (k : String) :
    (latestChecks window checks)[k]? = latestBefore checks window.stop k := by
  induction checks using List.reverseRecOn with
  | nil => simp [latestChecks, latestBefore, Newest.newest]
  | append_singleton checks record ih =>
      rw [latestChecks, List.foldl_append, ← latestChecks, latestBefore, List.filter_append]
      show (keepLatest window (latestChecks window checks) record)[k]? = _
      rw [keepLatest]
      by_cases hbefore : record.observedAt < window.stop
      · rw [if_pos hbefore]
        by_cases hk : record.identity = k
        · have hself : [record].filter (fun record =>
              record.observedAt < window.stop && record.identity = k) = [record] := by
            simp [hbefore, hk]
          rw [hself, List.reverse_append, List.reverse_singleton, List.singleton_append,
            Newest.newest_cons, hk, ih, ← latestBefore]
          cases hold : latestBefore checks window.stop k with
          | none => simp
          | some old =>
              rw [hold] at ih
              by_cases hlt : old.observedAt < record.observedAt
              · simp [hlt]
              · simp [hlt, not_lt.mp hlt, ih]
        · have hother : [record].filter (fun record =>
              record.observedAt < window.stop && record.identity = k) = [] := by
            simp [hk]
          rw [hother, List.append_nil, ← latestBefore, ← ih]
          split
          · exact Table.getElem?_insert_ne (Ne.symm hk)
          · rfl
      · have hlate : [record].filter (fun record =>
            record.observedAt < window.stop && record.identity = k) = [] := by
          simp [hbefore]
        rw [if_neg hbefore, hlate, List.append_nil, ← latestBefore, ih]

/-- The check collected everything after the deployment, and that is still valid. A check
without observations has no oldest one. -/
def vouches (window : Window) (now : Time) (record : Record) : Bool :=
  match record.details with
  | .check check =>
      check.complete && !check.operationsTruncated && check.pendingObservations == 0
        && window.start ≤ check.startedAt && window.start ≤ check.finishedAt
        && check.oldestObservationAt.all (window.start ≤ ·)
        && record.validUntil.any (earlier window.stop now ≤ ·) && !record.stale
  | _ => false

/-- When the check is due again. -/
def nextRun (record : Record) : Option Time :=
  match record.details with
  | .check check => some (record.lastObservedAt + check.intervalSeconds * nanosPerSecond)
  | _ => none

/-- The earlier of `next` and the next run of the check, where that is still to come. -/
def soonest (latest : Table Record) (now : Time) (next : Option Time) (required : String) :
    Option Time :=
  match latest[required]?.bind nextRun with
  | some run => if now < run then some (next.elim run (earlier · run)) else next
  | none => next

namespace Assessment

def require (latest : Table Record) (now : Time) (result : Assessment) (required : String) :
    Assessment :=
  let complete := latest[required]?.any (vouches result.window now)
  { result with
    outstandingChecks :=
      if complete then result.outstandingChecks else result.outstandingChecks ++ [required]
    nextObservationAt := soonest latest now result.nextObservationAt required }

/-- The loop over the required checks touches two fields. -/
theorem foldl_require (latest : Table Record) (now : Time) (result : Assessment)
    (required : List String) :
    required.foldl (require latest now) result =
      { result with
        outstandingChecks := result.outstandingChecks
          ++ required.filter fun identity =>
            !latest[identity]?.any (vouches result.window now)
        nextObservationAt := required.foldl (soonest latest now) result.nextObservationAt
          } := by
  induction required generalizing result with
  | nil => simp
  | cons identity required ih =>
      rw [List.foldl_cons, ih, require]
      by_cases hvouched : latest[identity]?.any (vouches result.window now) = true
      · simp [hvouched]
      · simp [hvouched]

end Assessment

/-! ## The verdict -/

structure Evidence where
  checks : List Record
  requiredChecks : List String
  releases : List Record
  releaseAssessment : Option ReleaseAssessment
  findings : List Record
  baseline : List Record
  errorCount : Nat
  failedChecks : Nat
  availability : Availability
  nextCursor : Option String
  deriving DecidableEq, Repr

def noChecks : String := "No configured checks match this deployment scope"

def outstanding : String :=
  "Required checks lack complete fresh post-deployment evidence"
    ++ " or still have unevaluated observations"

def collectionFailures : String :=
  "Collection failures occurred inside the deployment window"

def errorsObserved : String :=
  "Error-level findings were observed in the deployment window"

def wrongRelease : String :=
  "Observed release does not match the requested revision or digest"

def expectsRelease (query : Deployment) : Bool :=
  query.expectedRevision.isSome || query.expectedDigest.isSome

/-- The release evidence, when a release is expected. -/
def releaseStatus (query : Deployment) (window : Window) (now : Time) (evidence : Evidence) :
    Option ReleaseAssessment :=
  if expectsRelease query then
    match evidence.releaseAssessment with
    | some status => some status
    | none => some (evidence.releases.foldl (ReleaseAssessment.observe query window now) {})
  else none

def sortDedup (reasons : List String) : List String :=
  (reasons.mergeSort fun a b => decide (a ≤ b)).destutter (· ≠ ·)

namespace Assessment

/-- The reasons that keep an assessment from passing. -/
def findReasons (status : Option ReleaseAssessment) (result : Assessment) : List String :=
  sortDedup ((if result.assessedChecks.isEmpty then [noChecks] else [])
    ++ (if result.outstandingChecks.isEmpty then [] else [outstanding])
    ++ (if 0 < result.failedCheckCount then [collectionFailures] else [])
    ++ status.elim [] ReleaseAssessment.reasons
    ++ if 0 < result.errorCount then [errorsObserved] else [])

def conclude (status : Option ReleaseAssessment) (now : Time) (result : Assessment) :
    Assessment :=
  let mismatch := status.any (·.mismatch)
  let reasons := result.findReasons status
  if 0 < result.errorCount || mismatch && result.window.stop ≤ now then
    { result with
      reasons := if mismatch then reasons ++ [wrongRelease] else reasons
      outcome := .failing }
  else if now < result.window.stop then
    { result with reasons, outcome := .pending }
  else if !result.availability.complete || !reasons.isEmpty then
    { result with reasons, outcome := .incomplete }
  else { result with reasons, outcome := .passing }

end Assessment

/-- The assessment before anything is looked at. -/
def Assessment.unassessed (query : Deployment) (evidence : Evidence) (window : Window) :
    Assessment where
  scope := query.filter
  assessedChecks := evidence.requiredChecks
  outcome := .pending
  window := window
  baseline := { start := window.start - (window.stop - window.start), stop := window.start }
  availability := evidence.availability
  nextCursor := evidence.nextCursor
  errorCount := evidence.errorCount
  failedCheckCount := evidence.failedChecks

/-- The loops and the conclusion, once there is a window. -/
def assess (query : Deployment) (evidence : Evidence) (window : Window) (now : Time) :
    Assessment :=
  let result := evidence.findings.foldl
    (Assessment.classify (baselineSeverity window evidence.baseline))
    (Assessment.unassessed query evidence window)
  let result := evidence.requiredChecks.foldl
    (Assessment.require (latestChecks window evidence.checks) now) result
  result.conclude (releaseStatus query window now evidence) now

def evaluate (query : Deployment) (evidence : Evidence) (now : Time) :
    Except Error Assessment :=
  query.window.map fun window => assess query evidence window now

end HealthMonitor.Query
