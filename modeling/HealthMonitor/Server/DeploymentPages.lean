import HealthMonitor.Library.Keyset
import HealthMonitor.Query.Verdict

/-!
# DeploymentPages

Every selected release page is folded into the release assessment, a hundred records at a
time. The history is a parameter, `fetch`: the latest release records after an identity, at
most one more than a page holds.
-/

namespace HealthMonitor.Server.DeploymentPages

open Query

variable {ε : Type}

/-- The loop over the pages. Without fuel it has not ended yet. -/
def pages (fetch : Option String → Except ε (List Record)) (query : Deployment)
    (window : Window) (now : Time) :
    Nat → Option String → ReleaseAssessment → Option (Except ε ReleaseAssessment)
  | 0, _, _ => none
  | fuel + 1, after, status =>
    match fetch after with
    | .error error => some (.error error)
    | .ok rows =>
        let page := rows.take 100
        let status := page.foldl (ReleaseAssessment.observe query window now) status
        if 100 < rows.length then
          pages fetch query window now fuel (page.getLast?.map (·.identity)) status
        else some (.ok status)

def releases (fetch : Option String → Except ε (List Record)) (query : Deployment)
    (window : Window) (now : Time) (fuel : Nat) : Option (Except ε ReleaseAssessment) :=
  if expectsRelease query then pages fetch query window now fuel none {} else some (.ok {})

/-- The latest release records of a history that does not change, in the order of their
identities. -/
def latest {κ : Type} [LinearOrder κ] (collate : String → κ) (rows : List Record)
    (after : Option String) : Except ε (List Record) :=
  .ok (Keyset.page (fun record : Record => collate record.identity) 101 (after.map collate)
    rows)

section

variable {κ : Type} [LinearOrder κ] {collate : String → κ} {rows : List Record}
  {query : Deployment} {window : Window} {now : Time}

/-- From any page on, what the pages fold is what is left. -/
theorem pages_latest (h : Keyset.Ordered (fun record : Record => collate record.identity) rows)
    {fuel : Nat} {after : Option String} (status : ReleaseAssessment)
    (hfuel : (Keyset.rest (fun record : Record => collate record.identity)
      (after.map collate) rows).length < fuel) :
    pages (latest collate rows : Option String → Except ε (List Record)) query window now fuel
        after status
      = some (.ok ((Keyset.rest (fun record : Record => collate record.identity)
          (after.map collate) rows).foldl (ReleaseAssessment.observe query window now)
            status)) := by
  induction fuel generalizing after status with
  | zero => omega
  | succ fuel ih =>
      let left := Keyset.rest (fun record : Record => collate record.identity)
        (after.map collate) rows
      have hpage : (left.take 101).take 100 = left.take 100 := by
        rw [List.take_take, Nat.min_eq_left (by decide)]
      have hleft : left.length < fuel + 1 := hfuel
      rw [pages, latest]
      dsimp only
      rw [Keyset.page]
      by_cases hmore : 100 < (left.take 101).length
      · rw [if_pos hmore, hpage]
        have hlong : 100 < left.length := by
          rw [List.length_take] at hmore
          omega
        obtain ⟨last, hlast⟩ : ∃ last, (left.take 100).getLast? = some last := by
          rw [← Option.isSome_iff_exists, List.getLast?_isSome]
          intro hnil
          have := congrArg List.length hnil
          rw [List.length_take, List.length_nil] at this
          omega
        have hrest := h.rest_last hlast
        rw [hlast, Option.map_some]
        have hdrop : Keyset.rest (fun record : Record => collate record.identity)
            ((some last.identity).map collate) rows = left.drop 100 := hrest
        rw [ih _ (by rw [hdrop, List.length_drop]; omega), hdrop, ← List.foldl_append,
          List.take_append_drop]
      · rw [if_neg hmore, hpage]
        have hshort : left.length ≤ 100 := by
          rw [List.length_take] at hmore
          omega
        rw [List.take_of_length_le hshort]

theorem releases_latest (h : Keyset.Ordered (fun record : Record => collate record.identity) rows)
    (hexpects : expectsRelease query = true) {fuel : Nat} (hfuel : rows.length < fuel) :
    releases (latest collate rows : Option String → Except ε (List Record)) query window now
        fuel
      = some (.ok (rows.foldl (ReleaseAssessment.observe query window now) {})) := by
  have hrest : Keyset.rest (fun record : Record => collate record.identity)
      ((none : Option String).map collate) rows = rows :=
    List.filter_eq_self.mpr fun _ _ => rfl
  rw [releases, if_pos hexpects, pages_latest h _ (by rwa [hrest]), hrest]

end

/-! ## The verdict -/

/-- A pass is demonstrated unless everything else speaks for it while the latest record of
some required check was made without any observation. The order of the evidence does not
matter, nor does folding the releases by pages: any pages, and those of the history. -/
theorem passing_demonstrated {query : Deployment} {evidence : Query.Evidence} {now : Time}
    {result : Assessment} (h : evaluate query evidence now = .ok result) :
    ((result.outcome = .passing → Demonstrated query evidence result.window now)
        ↔ ¬(Unrefuted query evidence result.window now ∧ Unobserved evidence result.window))
      ∧ (∀ other, evidence.Reordered other → DistinctTimes evidence.checks →
          ∃ result', evaluate query other now = .ok result' ∧ result.Same result')
      ∧ (evidence.releaseAssessment = none →
          (∀ pages : List (List Record), evidence.releases = pages.flatten →
            evaluate query { evidence with
                releases := []
                releaseAssessment := some (pages.foldl
                  (List.foldl (ReleaseAssessment.observe query result.window now)) {}) } now
              = .ok result)
          ∧ ∀ (ε κ : Type) (_ : LinearOrder κ) (collate : String → κ) (fuel : Nat),
            Keyset.Ordered (fun record : Record => collate record.identity)
              evidence.releases →
            evidence.releases.length < fuel →
            ∃ status, releases (latest collate evidence.releases :
                Option String → Except ε (List Record)) query result.window now fuel
                  = some (.ok status)
              ∧ evaluate query { evidence with
                  releases := [], releaseAssessment := some status } now = .ok result) := by
  have hwindow := window_of_evaluate h
  refine ⟨?_, fun other hother hdistinct => evaluate_reordered hother hdistinct h,
    fun hnone => ⟨fun pages hpages => ?_, fun ε κ _ collate fuel hordered hfuel => ?_⟩⟩
  · rw [passing_iff h, demonstrated_iff]
    tauto
  · rw [← List.foldl_flatten, ← hpages, evaluate_folded hnone hwindow, h]
  · by_cases hexpects : expectsRelease query = true
    · exact ⟨_, releases_latest hordered hexpects hfuel, by
        rw [evaluate_folded hnone hwindow, h]⟩
    · refine ⟨{}, if_neg hexpects, ?_⟩
      rw [← h, evaluate_eq hwindow, evaluate_eq hwindow]
      refine congrArg _ (congrArg₂ (Assessment.conclude · now) ?_ rfl)
      rw [releaseStatus, releaseStatus, if_neg hexpects, if_neg hexpects]

namespace Sample

def deployedAt : Time := 1000 * nanosPerSecond

def request : Deployment where
  deployedAt := deployedAt
  windowSeconds := some 60
  filter := { target := some "api" }

def window : Window := ⟨deployedAt, deployedAt + 60 * nanosPerSecond⟩

/-- A complete scan after the deployment. -/
def scan (observations : Nat) (oldest : Option Time) : Record where
  id := "api/Kubernetes"
  identity := "api/Kubernetes"
  scope := { target := "api", provider := .gcp, scope := "project" }
  location := {}
  check := some .kubernetes
  resource := none
  observedAt := deployedAt + 45 * nanosPerSecond
  lastObservedAt := deployedAt + 45 * nanosPerSecond
  validUntil := some (deployedAt + 300 * nanosPerSecond)
  closedAt := none
  stale := false
  details := .check
    { required := true
      startedAt := deployedAt + 30 * nanosPerSecond
      finishedAt := deployedAt + 45 * nanosPerSecond
      oldestObservationAt := oldest
      complete := true
      observations
      intervalSeconds := 30
      requiredFailures := 0
      pendingObservations := 0
      operations := []
      operationsTruncated := false }

def evidence (scan : Record) : Query.Evidence where
  checks := [scan]
  requiredChecks := ["api/Kubernetes"]
  releases := []
  releaseAssessment := none
  findings := []
  baseline := []
  errorCount := 0
  failedChecks := 0
  availability :=
    { requested := window, availableSince := some 0, persistedThrough := some window.stop
      historyAvailable := true, complete := true, gaps := [] }
  nextCursor := none

def now : Time := deployedAt + 120 * nanosPerSecond

/-- The same deployment, of a known revision and image. -/
def expecting : Deployment :=
  { request with expectedRevision := some "4f2a91c", expectedDigest := some "sha256:77aa" }

def release (identity : String) : Record where
  id := identity
  identity := identity
  scope := { target := "api", provider := .gcp, scope := "project" }
  location := {}
  check := some .releases
  resource := some identity
  observedAt := deployedAt + 20 * nanosPerSecond
  lastObservedAt := deployedAt + 50 * nanosPerSecond
  validUntil := some (deployedAt + 300 * nanosPerSecond)
  closedAt := none
  stale := false
  details := .release
    { revision := some "4f2a91c"
      observedDigests := ["sha256:77aa"]
      desiredDigest := some "sha256:77aa"
      pending := false
      verified := true
      facts := []
      links := [] }

def released : Query.Evidence :=
  { evidence (scan 1 (some (deployedAt + 1))) with
    releases := [release "api/blue", release "api/green"] }

theorem window_request : request.window = .ok window := by decide +kernel

theorem window_expecting : expecting.window = .ok window := by decide +kernel

theorem latest_scan (oldest : Option Time) (observations : Nat) :
    latestBefore (evidence (scan observations oldest)).checks window.stop "api/Kubernetes"
      = some (scan observations oldest) := by
  have hself : [scan observations oldest].filter (fun record =>
      record.observedAt < window.stop && record.identity = "api/Kubernetes")
      = [scan observations oldest] := rfl
  rw [latestBefore, evidence, hself]
  rfl

end Sample

open DeploymentPages.Sample in
/-- With an observation after the deployment there is nothing to except, and the releases
may be read one by one. -/
theorem passing_demonstrated_observed :
    ∃ result, evaluate expecting released now = .ok result
      ∧ result.outcome = .passing
      ∧ Demonstrated expecting released result.window now
      ∧ evaluate expecting { released with
          releases := []
          releaseAssessment := some ([[release "api/blue"], [release "api/green"]].foldl
            (List.foldl (ReleaseAssessment.observe expecting result.window now)) {}) } now
        = .ok result := by
  have hresult := @evaluate_eq _ released _ now window_expecting
  obtain ⟨hpassing, -, hreleases⟩ := passing_demonstrated hresult
  have houtcome : (Assessment.conclude (releaseStatus expecting window now released) now
      (assessed expecting released window now)).outcome = .passing := by decide +kernel
  refine ⟨_, hresult, houtcome, hpassing.mpr ?_ houtcome, (hreleases rfl).1 _ rfl⟩
  rw [Assessment.conclude_window]
  intro ⟨_, identity, hidentity, record, check, hlatest, hdetails, hnone⟩
  cases List.mem_singleton.mp hidentity
  cases Option.some.inj (hlatest.symm.trans (latest_scan _ _))
  cases hdetails
  cases hnone

open DeploymentPages.Sample in
/-- The deployment passes although nothing was observed after it. -/
theorem passing_unobserved :
    ∃ result, evaluate request (evidence (scan 0 none)) now = .ok result
      ∧ result.outcome = .passing
      ∧ ¬Demonstrated request (evidence (scan 0 none)) result.window now := by
  have hresult := @evaluate_eq _ (evidence (scan 0 none)) _ now window_request
  refine ⟨_, hresult, by decide +kernel, ?_⟩
  rw [demonstrated_iff]
  intro h
  refine h.2 ⟨"api/Kubernetes", List.mem_cons_self, scan 0 none, _, ?_, rfl, rfl⟩
  rw [Assessment.conclude_window]
  exact latest_scan none 0

end HealthMonitor.Server.DeploymentPages
