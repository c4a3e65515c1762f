import HealthMonitor.Core.JobKeys
import Mathlib.Algebra.BigOperators.Group.List.Basic

/-!
# Shared limits

Normalizing gives all jobs the least of each shared ceiling and all jobs of a scope the
least of its concurrency. Both are minima over the jobs, and the memory the configuration
takes is a sum over them, so the order of the jobs is immaterial and normalizing twice is
normalizing once.
-/

namespace HealthMonitor.Resolve

/-! ## Ceilings -/

/-- The ceilings all jobs share. -/
def ceilings : List (Settings → Nat) :=
  [(·.concurrency), (·.subprocesses), (·.memoryBytes), (·.maxAssets), (·.maxFindings),
    (·.historyInterval.seconds), (·.historyAge.seconds), (·.historyCount), (·.historyBytes)]

theorem spanMin_seconds (a b : Span) : (spanMin a b).seconds = min a.seconds b.seconds := by
  unfold spanMin
  split <;> omega

theorem ceilings_tighten : ∀ get ∈ ceilings, ∀ shared settings : Settings,
    get (tighten shared settings) = min (get shared) (get settings) := by
  simp only [ceilings, List.forall_mem_cons, List.not_mem_nil, false_imp_iff, implies_true,
    and_true]
  exact ⟨fun _ _ => rfl, fun _ _ => rfl, fun _ _ => rfl, fun _ _ => rfl, fun _ _ => rfl,
    fun _ _ => spanMin_seconds _ _, fun _ _ => spanMin_seconds _ _, fun _ _ => rfl,
    fun _ _ => rfl⟩

/-- A value that some job has and none goes below. -/
def Least (value : Job → Nat) (jobs : List Job) (least : Nat) : Prop :=
  (∃ job ∈ jobs, value job = least) ∧ ∀ job ∈ jobs, least ≤ value job

theorem Least.unique {value : Job → Nat} {jobs permuted : List Job} {a b : Nat}
    (ha : Least value jobs a) (hb : Least value permuted b)
    (hperm : ∀ job, job ∈ permuted ↔ job ∈ jobs) : a = b := by
  obtain ⟨⟨job, hjob, rfl⟩, hleast⟩ := ha
  obtain ⟨⟨other, hother, rfl⟩, hleast'⟩ := hb
  exact le_antisymm (hleast other ((hperm other).mp hother)) (hleast' job ((hperm job).mpr hjob))

/-- A fold of minima that starts at the first job ends at the least value. -/
theorem least_foldl {α : Type} {value : Job → Nat} {get : α → Nat} {step : α → Job → α}
    (hstep : ∀ a job, get (step a job) = min (get a) (value job)) (jobs seen : List Job) (a : α)
    (h : Least value seen (get a)) : Least value (seen ++ jobs) (get (jobs.foldl step a)) := by
  induction jobs generalizing seen a with
  | nil => simpa using h
  | cons job jobs ih =>
      have hnext : Least value (seen ++ [job]) (get (step a job)) := by
        rw [hstep]
        obtain ⟨⟨least, hmem, heq⟩, hle⟩ := h
        constructor
        · rcases Nat.le_total (get a) (value job) with hcase | hcase
          · exact ⟨least, by simp [hmem], by omega⟩
          · exact ⟨job, by simp, by omega⟩
        · intro other hother
          rcases List.mem_append.mp hother with hother | hother
          · have := hle other hother
            omega
          · rw [List.mem_singleton.mp hother]
            omega
      simpa using ih (seen ++ [job]) (step a job) hnext

/-- The tightest of the ceilings of some jobs. -/
def shared (first : Job) (rest : List Job) : Settings :=
  (first :: rest).foldl (fun shared job => tighten shared job.settings) first.settings

theorem least_shared {get : Settings → Nat} (hget : get ∈ ceilings) (first : Job)
    (rest : List Job) :
    Least (fun job => get job.settings) (first :: rest) (get (shared first rest)) := by
  have hfold := @least_foldl _ (fun job => get job.settings) get _
    (fun a job => ceilings_tighten get hget a job.settings) rest [first]
    (tighten first.settings first.settings)
    ⟨⟨first, by simp, by rw [ceilings_tighten get hget, Nat.min_self]⟩, fun job hjob => by
      rw [List.mem_singleton.mp hjob, ceilings_tighten get hget, Nat.min_self]⟩
  exact hfold

/-- Normalized settings depend on the shared ceilings alone. -/
theorem normalized_congr {a b : Settings} (h : ∀ get ∈ ceilings, get a = get b) (limit : Nat)
    (settings : Settings) : normalized a limit settings = normalized b limit settings := by
  have hspan : ∀ {x y : Span}, x.seconds = y.seconds → x = y := by
    intro x y hxy
    cases x
    cases y
    cases hxy
    rfl
  simp only [ceilings, List.forall_mem_cons, List.not_mem_nil, false_imp_iff, implies_true,
    and_true] at h
  obtain ⟨hconcurrency, hsubprocesses, hmemory, hassets, hfindings, hinterval, hage, hcount,
    hbytes⟩ := h
  simp only [normalized, hconcurrency, hsubprocesses, hmemory, hassets, hfindings,
    hspan hinterval, hspan hage, hcount, hbytes]

theorem ceilings_normalized : ∀ get ∈ ceilings, ∀ (shared settings : Settings) (limit : Nat),
    get (normalized shared limit settings) = get shared := by
  simp only [ceilings, List.forall_mem_cons, List.not_mem_nil, false_imp_iff, implies_true,
    and_true]
  exact ⟨fun _ _ _ => rfl, fun _ _ _ => rfl, fun _ _ _ => rfl, fun _ _ _ => rfl, fun _ _ _ => rfl,
    fun _ _ _ => rfl, fun _ _ _ => rfl, fun _ _ _ => rfl, fun _ _ _ => rfl⟩

/-! ## Scopes -/

theorem least_scopeLimit {jobs : List Job} {job : Job} (hjob : job ∈ jobs) :
    Least (·.settings.scopeConcurrency) (jobs.filter (·.scope = job.scope))
      (scopeLimit jobs job.scope) := by
  unfold scopeLimit
  have hmem : job ∈ jobs.filter (·.scope = job.scope) :=
    List.mem_filter.mpr ⟨hjob, decide_eq_true rfl⟩
  cases hfilter : jobs.filter (·.scope = job.scope) with
  | nil =>
      rw [hfilter] at hmem
      cases hmem
  | cons first rest =>
      exact @least_foldl _ (·.settings.scopeConcurrency) id _ (fun _ _ => rfl) rest
        [first] first.settings.scopeConcurrency
        ⟨⟨first, by simp, rfl⟩, fun other hother => by rw [List.mem_singleton.mp hother]; rfl⟩

/-! ## Memory -/

/-- What a job adds to the footprint. -/
def charge (encoding : Encoding) (job : Job) : Nat :=
  (encoding.target job.target + encoding.severity job.severity + 4096) * 4

/-- The jobs, on top of what is taken, fit in the memory of each of them and the limit. -/
def Fits (encoding : Encoding) (footprint : Footprint) (jobs : List Job) : Prop :=
  footprint.used + (jobs.map (charge encoding)).sum ≤ footprint.limit ∧
    ∀ job ∈ jobs, footprint.used + (jobs.map (charge encoding)).sum ≤
      job.settings.memoryBytes / 8

theorem add_eq {encoding : Encoding} {footprint : Footprint} {job : Job} :
    footprint.add encoding job.target job.settings [] job.severity =
      if min footprint.limit (job.settings.memoryBytes / 8) <
          footprint.used + charge encoding job then
        .error "effective configuration exceeds the shared memory budget"
      else .ok
        { used := footprint.used + charge encoding job
          limit := min footprint.limit (job.settings.memoryBytes / 8) } := rfl

/-- The running footprint fits all along when it fits at the end. -/
theorem foldlM_add_ok_iff {encoding : Encoding} (jobs : List Job) (footprint : Footprint)
    (hjobs : jobs ≠ []) :
    (∃ last, jobs.foldlM (fun footprint job =>
      Footprint.add encoding footprint job.target job.settings [] job.severity) footprint =
        .ok last) ↔ Fits encoding footprint jobs := by
  induction jobs generalizing footprint with
  | nil => exact absurd rfl hjobs
  | cons job jobs ih =>
      rw [List.foldlM_cons, add_eq]
      have hsum : ((job :: jobs).map (charge encoding)).sum =
          charge encoding job + (jobs.map (charge encoding)).sum := rfl
      split
      · rename_i hover
        refine iff_of_false (by rintro ⟨_, h⟩; cases h) fun ⟨hlimit, hall⟩ => ?_
        have hjob := hall job List.mem_cons_self
        rw [hsum] at hlimit hjob
        omega
      · rename_i hfits
        change (∃ last, jobs.foldlM _ _ = Except.ok last) ↔ _
        by_cases hnil : jobs = []
        · subst hnil
          refine iff_of_true ⟨_, rfl⟩ ⟨?_, fun other hother => ?_⟩
          · simp only [List.map_cons, List.map_nil, List.sum_cons, List.sum_nil]
            omega
          · rw [List.mem_singleton.mp hother]
            simp only [List.map_cons, List.map_nil, List.sum_cons, List.sum_nil]
            omega
        · rw [ih _ hnil, Fits, Fits, hsum, List.forall_mem_cons]
          dsimp only
          simp only [Nat.add_assoc, Nat.le_min]
          tauto

/-! ## Normalizing -/

def initial : Footprint := {}

/-- The settings a job of the list gets. -/
def normalizedJob (jobs : List Job) (job : Job) : Job :=
  match jobs with
  | [] => job
  | first :: rest =>
      { job with
        settings := normalized (shared first rest) (scopeLimit jobs job.scope) job.settings }

theorem normalize_ok_iff {encoding : Encoding} {jobs next : List Job} :
    normalize encoding jobs = .ok next ↔
      (jobs ≠ [] → Fits encoding initial jobs) ∧ next = jobs.map (normalizedJob jobs) ∧
        ∀ job ∈ next, job.settings.invalid = false := by
  cases jobs with
  | nil =>
      have hnil : normalize encoding [] = .ok [] := rfl
      rw [hnil]
      constructor
      · intro h
        rw [← Except.ok.inj h]
        simp
      · rintro ⟨-, rfl, -⟩
        rfl
  | cons first rest =>
      have hfold := @foldlM_add_ok_iff encoding (first :: rest) initial (by simp)
      unfold normalize
      cases hrun : (first :: rest).foldlM (fun footprint job =>
          Footprint.add encoding footprint job.target job.settings [] job.severity)
          ({} : Footprint) with
      | error e =>
          refine iff_of_false (fun h => by cases h) fun ⟨hfits, _⟩ => ?_
          obtain ⟨last, hlast⟩ := hfold.mpr (hfits (by simp))
          rw [initial, hrun] at hlast
          cases hlast
      | ok last =>
          have hfits : Fits encoding initial (first :: rest) := hfold.mp ⟨last, hrun⟩
          rw [and_iff_right fun _ => hfits]
          change (if _ then _ else _) = _ ↔ _
          split
          · rename_i hinvalid
            refine iff_of_false (fun h => by cases h) fun ⟨hnext, hvalid⟩ => ?_
            obtain ⟨job, hjob, hbad⟩ := List.any_eq_true.mp hinvalid
            rw [hvalid job (hnext ▸ hjob)] at hbad
            cases hbad
          · rename_i hinvalid
            constructor
            · intro h
              have hnext := (Except.ok.inj h).symm
              refine ⟨hnext, fun job hjob => ?_⟩
              rw [hnext] at hjob
              exact Bool.eq_false_iff.mpr fun hbad => hinvalid (List.any_eq_true.mpr ⟨job, hjob, hbad⟩)
            · rintro ⟨rfl, -⟩
              rfl

/-- What a job of the list gets, by the least ceilings and the least of its scope. -/
theorem normalizedJob_eq {jobs : List Job} {job : Job} (hjob : job ∈ jobs) :
    ∃ tightest, (∀ get ∈ ceilings, Least (fun job => get job.settings) jobs (get tightest)) ∧
      normalizedJob jobs job =
        { job with
          settings := normalized tightest (scopeLimit jobs job.scope) job.settings } := by
  cases jobs with
  | nil => cases hjob
  | cons first rest => exact ⟨shared first rest, fun get hget => least_shared hget first rest, rfl⟩

theorem normalizedJob_unique {jobs : List Job} {job : Job} {tightest : Settings} (hjob : job ∈ jobs)
    (h : ∀ get ∈ ceilings, Least (fun job => get job.settings) jobs (get tightest)) :
    normalizedJob jobs job =
      { job with settings := normalized tightest (scopeLimit jobs job.scope) job.settings } := by
  obtain ⟨own, hown, heq⟩ := normalizedJob_eq hjob
  rw [heq, normalized_congr fun get hget => (hown get hget).unique (h get hget) fun _ => Iff.rfl]

/-- The order of the jobs is immaterial to what each gets. -/
theorem normalizedJob_permuted {jobs permuted : List Job} (hperm : permuted.Perm jobs) {job : Job}
    (hjob : job ∈ jobs) : normalizedJob permuted job = normalizedJob jobs job := by
  obtain ⟨tightest, htightest, heq⟩ := normalizedJob_eq hjob
  have hpermuted : ∀ get ∈ ceilings,
      Least (fun job => get job.settings) permuted (get tightest) := by
    intro get hget
    obtain ⟨⟨least, hmem, hvalue⟩, hle⟩ := htightest get hget
    exact ⟨⟨least, hperm.mem_iff.mpr hmem, hvalue⟩, fun other hother =>
      hle other (hperm.mem_iff.mp hother)⟩
  have hscope : scopeLimit permuted job.scope = scopeLimit jobs job.scope :=
    (least_scopeLimit (hperm.mem_iff.mpr hjob)).unique (least_scopeLimit hjob) fun other =>
      ((hperm.filter _).mem_iff).symm
  rw [heq, normalizedJob_unique (hperm.mem_iff.mpr hjob) hpermuted, hscope]

theorem fits_permuted {encoding : Encoding} {footprint : Footprint} {jobs permuted : List Job}
    (hperm : permuted.Perm jobs) (h : Fits encoding footprint jobs) :
    Fits encoding footprint permuted := by
  have hsum : (permuted.map (charge encoding)).sum = (jobs.map (charge encoding)).sum :=
    (hperm.map _).sum_eq
  rw [Fits, hsum]
  exact ⟨h.1, fun job hjob => h.2 job (hperm.mem_iff.mp hjob)⟩

/-! ## Normalizing twice -/

theorem normalized_normalized (shared settings : Settings) (limit : Nat) :
    normalized shared (min limit shared.concurrency) (normalized shared limit settings) =
      normalized shared limit settings := by
  simp only [normalized, Nat.min_assoc, Nat.min_self]

/-- A job that has been normalized stays as it is. -/
theorem normalizedJob_twice {jobs : List Job} {job : Job}
    (hjob : job ∈ jobs.map (normalizedJob jobs)) :
    normalizedJob (jobs.map (normalizedJob jobs)) job = job := by
  obtain ⟨before, hbefore, hnormalized⟩ := List.mem_map.mp hjob
  obtain ⟨tightest, htightest, heq⟩ := normalizedJob_eq hbefore
  have hall : ∀ other ∈ jobs.map (normalizedJob jobs), ∃ source ∈ jobs,
      other = { source with
        settings := normalized tightest (scopeLimit jobs source.scope) source.settings } := by
    intro other hother
    obtain ⟨source, hsource, rfl⟩ := List.mem_map.mp hother
    exact ⟨source, hsource, normalizedJob_unique hsource htightest⟩
  have hceilings : ∀ get ∈ ceilings, Least (fun job => get job.settings)
      (jobs.map (normalizedJob jobs)) (get tightest) := by
    intro get hget
    refine ⟨⟨job, hjob, ?_⟩, fun other hother => ?_⟩
    · rw [← hnormalized, heq]
      exact ceilings_normalized get hget ..
    · obtain ⟨source, -, rfl⟩ := hall other hother
      exact (ceilings_normalized get hget ..).ge
  -- all jobs of the scope have the same concurrency, which is therefore the least
  have hscope : scopeLimit (jobs.map (normalizedJob jobs)) job.scope =
      min (scopeLimit jobs before.scope) tightest.concurrency := by
    obtain ⟨⟨other, hother, hvalue⟩, -⟩ := least_scopeLimit hjob
    obtain ⟨hother, hsame⟩ := List.mem_filter.mp hother
    obtain ⟨source, -, rfl⟩ := hall other hother
    have hsource : source.scope = before.scope := by
      have hscopes := of_decide_eq_true hsame
      rw [← hnormalized, heq] at hscopes
      exact hscopes
    rw [← hvalue, ← hsource]
    rfl
  rw [normalizedJob_unique hjob hceilings, hscope, ← hnormalized, heq]
  dsimp only
  rw [normalized_normalized]

theorem fits_normalized {encoding : Encoding} {footprint : Footprint} {jobs : List Job}
    (h : Fits encoding footprint jobs) :
    Fits encoding footprint (jobs.map (normalizedJob jobs)) := by
  have hcharge : ∀ job ∈ jobs, charge encoding (normalizedJob jobs job) = charge encoding job := by
    intro job hjob
    obtain ⟨_, -, heq⟩ := normalizedJob_eq hjob
    rw [heq]
    rfl
  have hsum : ((jobs.map (normalizedJob jobs)).map (charge encoding)).sum =
      (jobs.map (charge encoding)).sum := by
    rw [List.map_map]
    exact congrArg List.sum (List.map_congr_left hcharge)
  rw [Fits, hsum]
  refine ⟨h.1, fun job hjob => ?_⟩
  obtain ⟨source, hsource, rfl⟩ := List.mem_map.mp hjob
  obtain ⟨tightest, htightest, heq⟩ := normalizedJob_eq hsource
  obtain ⟨⟨least, hmem, hvalue⟩, -⟩ := htightest (·.memoryBytes) (by simp [ceilings])
  have hmemory : (normalizedJob jobs source).settings.memoryBytes = least.settings.memoryBytes := by
    rw [heq]
    exact hvalue.symm
  rw [hmemory]
  exact h.2 least hmem

/-- Normalizing gives all jobs the least of each shared ceiling and all jobs of a scope the
least concurrency of the scope, capped by the shared one; the settings still keep their
limits. Normalizing again changes nothing, and in any other order the jobs get the same. -/
theorem normalize_spec (encoding : Encoding) (jobs next : List Job)
    (h : normalize encoding jobs = .ok next) :
    (∀ get ∈ ceilings, ∀ job ∈ next,
      Least (fun job => get job.settings) jobs (get job.settings)) ∧
    List.Forall₂ (fun before after => ∃ least,
      Least (·.settings.scopeConcurrency) (jobs.filter (·.scope = before.scope)) least ∧
      after.settings.scopeConcurrency = min least after.settings.concurrency ∧
      after = { before with
        settings := normalized after.settings least before.settings }) jobs next ∧
    (∀ job ∈ next, job.settings.validate = .ok ()) ∧
    normalize encoding next = .ok next ∧
    ∃ f : Job → Job, ∀ permuted : List Job, permuted.Perm jobs →
      normalize encoding permuted = .ok (permuted.map f) := by
  obtain ⟨hfits, rfl, hvalid⟩ := normalize_ok_iff.mp h
  refine ⟨?_, ?_, ?_, ?_, normalizedJob jobs, fun permuted hperm => ?_⟩
  · intro get hget job hjob
    obtain ⟨source, hsource, rfl⟩ := List.mem_map.mp hjob
    obtain ⟨tightest, htightest, heq⟩ := normalizedJob_eq hsource
    rw [heq]
    dsimp only
    rw [ceilings_normalized get hget]
    exact htightest get hget
  · rw [List.forall₂_map_right_iff, List.forall₂_same]
    intro job hjob
    obtain ⟨tightest, -, heq⟩ := normalizedJob_eq hjob
    refine ⟨scopeLimit jobs job.scope, least_scopeLimit hjob, by rw [heq]; rfl, ?_⟩
    rw [heq]
    rfl
  · intro job hjob
    rw [Settings.validate, hvalid job hjob]
    rfl
  · refine normalize_ok_iff.mpr ⟨fun hne => fits_normalized (hfits ?_), ?_, hvalid⟩
    · exact fun hnil => hne (by rw [hnil]; rfl)
    · exact ((List.map_congr_left fun job hjob => normalizedJob_twice hjob).trans
        (List.map_id' _)).symm
  · have hsame : permuted.map (normalizedJob jobs) = permuted.map (normalizedJob permuted) :=
      List.map_congr_left fun job hjob =>
        (normalizedJob_permuted hperm (hperm.mem_iff.mp hjob)).symm
    refine normalize_ok_iff.mpr ⟨fun hne => fits_permuted hperm (hfits ?_), hsame, ?_⟩
    · rintro rfl
      exact hne (List.perm_nil.mp hperm)
    · intro job hjob
      exact hvalid job ((hperm.map _).mem_iff.mp hjob)

/-- A queue check of the stream server with given concurrencies. -/
def streamingJob (concurrency scopeConcurrency : Nat) : Job where
  artifactOnly := false
  assessHealth := true
  requestedChecks := [.queues]
  kubeOnly := false
  samplingExplicit := false
  intervalExplicit := false
  target := streaming
  check := .queues
  settings := { Settings.default with concurrency, scopeConcurrency }
  revision := ""
  flowsEnabled := false
  severity := ∅

/-- The second job caps the concurrency, the first its scope. -/
theorem normalize_spec_streaming :
    ∃ next, normalize plainEncoding [streamingJob 16 4, streamingJob 8 6] = .ok next ∧
      next.map (fun job => (job.settings.concurrency, job.settings.scopeConcurrency)) =
        [(8, 4), (8, 4)] ∧
      normalize plainEncoding next = .ok next := by
  have hrun : ((normalize plainEncoding [streamingJob 16 4, streamingJob 8 6]).toOption.map
      fun next => next.map fun job =>
        (job.settings.concurrency, job.settings.scopeConcurrency)) = some [(8, 4), (8, 4)] := by
    decide +kernel
  obtain ⟨next, hnext, hlimits⟩ := ok_of_toOption hrun
  exact ⟨next, hnext, hlimits, (normalize_spec _ _ _ hnext).2.2.2.1⟩

end HealthMonitor.Resolve
