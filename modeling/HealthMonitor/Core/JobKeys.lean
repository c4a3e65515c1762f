import HealthMonitor.Core.Resolve
import HealthMonitor.Library.Groups
import Mathlib.Data.List.Nodup

/-!
# Job keys

Which jobs a resolved selection has, and when two of them share a key. The
passes over the settings keep what a job is about, so the list of subjects is
that of the selection followed by those of the two nested selections: one for
artifact targets and one for source repositories. Each of them adds a preflight
check of its own.
-/

namespace HealthMonitor.Resolve

/-! ## Subjects -/

/-- What a job is about, as the references read it. -/
structure Subject where
  name : String
  provider : Provider
  artifactTargets : List String
  check : Check
  deriving DecidableEq

def ConfiguredTarget.subject (target : ConfiguredTarget) (check : Check) : Subject :=
  { name := target.name, provider := target.provider
    artifactTargets := target.artifactTargets, check }

def Job.subject (job : Job) : Subject := ConfiguredTarget.subject job.target job.check

/-- The part of a subject a key is made of. -/
def Subject.pair (subject : Subject) : String × Check := (subject.name, subject.check)

theorem debug_injective : Function.Injective Check.debug := by
  intro a b h
  cases a <;> cases b <;> first | rfl | (revert h; decide)

/-- Jobs share a key exactly when they check the same thing on the same target. -/
theorem key_eq_iff (a b : Job) : a.key = b.key ↔ a.subject.pair = b.subject.pair := by
  constructor
  · intro h
    have hname : a.target.name = b.target.name :=
      Text.startsWith_unique a.target.toTarget.slash_notMem_name
        b.target.toTarget.slash_notMem_name (Text.startsWith_append _ a.check.debug)
        (by
          have hb : b.key = b.target.name ++ String.singleton '/' ++ b.check.debug := rfl
          change Text.startsWith a.key _ = true
          rw [h, hb]
          exact Text.startsWith_append _ _)
    have hcheck : a.check.debug = b.check.debug := by
      have hlists := congrArg String.toList h
      simp only [Job.key, Target.root, String.toList_append, hname,
        List.append_cancel_left_eq] at hlists
      exact String.toList_inj.mp hlists
    exact Prod.ext hname (debug_injective hcheck)
  · intro h
    have hname : a.target.name = b.target.name := congrArg Prod.fst h
    have hcheck : a.check = b.check := congrArg Prod.snd h
    simp only [Job.key, Target.root, hname, hcheck]

theorem keys_nodup_iff (jobs : List Job) :
    (jobs.map Job.key).Nodup ↔ ((jobs.map Job.subject).map Subject.pair).Nodup := by
  rw [List.map_map, List.nodup_iff_pairwise_ne, List.nodup_iff_pairwise_ne, List.pairwise_map,
    List.pairwise_map]
  have : (fun a b : Job => a.key ≠ b.key) =
      fun a b => (Subject.pair ∘ Job.subject) a ≠ (Subject.pair ∘ Job.subject) b := by
    funext a b
    exact propext (not_congr (key_eq_iff a b))
  rw [this]

/-! ## Passes over the settings -/

theorem follow_subject (job source : Job) : (follow job source).subject = job.subject := by
  unfold follow
  split
  · dsimp only
    split <;> rfl
  · rfl

theorem sampling_subjects {jobs paced : List Job} (h : sampling jobs = .ok paced) :
    paced.map Job.subject = jobs.map Job.subject := by
  unfold sampling at h
  dsimp only at h
  split at h
  · cases h
  split at h
  · cases h
  rw [← Except.ok.inj h, List.map_map]
  apply List.map_congr_left
  intro job _
  have key : ∀ (sources : List Job) (job : Job),
      (sources.foldl follow job).subject = job.subject := by
    intro sources
    induction sources with
    | nil => exact fun _ => rfl
    | cons source sources ih => exact fun job => (ih _).trans (follow_subject job source)
  exact key _ job

theorem normalize_subjects {encoding : Encoding} {jobs next : List Job}
    (h : normalize encoding jobs = .ok next) :
    next.map Job.subject = jobs.map Job.subject := by
  unfold normalize at h
  obtain ⟨_, -, h⟩ := Groups.bind_eq_ok h
  cases jobs with
  | nil =>
      cases h
      rfl
  | cons first rest =>
      dsimp only at h
      split at h
      · cases h
      · rw [← Except.ok.inj h, List.map_map]
        rfl

theorem withFlows_subjects (jobs : List Job) :
    (withFlows jobs).map Job.subject = jobs.map Job.subject := by
  unfold withFlows
  dsimp only
  rw [List.map_map]
  rfl

theorem asReference_subjects (revision : String) (jobs : List Job) :
    (jobs.map (asReference revision)).map Job.subject = jobs.map Job.subject := by
  rw [List.map_map]
  rfl

/-! ## Collecting -/

/-- A fold that appends to a list it carries, as long as it succeeds. -/
theorem foldlM_appends {ε α β γ : Type} {f : β → α → Except ε β} {g : β → List γ}
    {h : α → List γ} (hf : ∀ b a b', f b a = .ok b' → g b' = g b ++ h a) {l : List α} {b b' : β}
    (hrun : l.foldlM f b = .ok b') : g b' = g b ++ l.flatMap h := by
  induction l generalizing b with
  | nil =>
      cases hrun
      simp
  | cons a l ih =>
      rw [List.foldlM_cons] at hrun
      obtain ⟨next, hnext, hrest⟩ := Groups.bind_eq_ok hrun
      rw [ih hrest, hf b a next hnext, List.flatMap_cons, List.append_assoc]

section

variable (config : Config) (profile : Profile) (selection : Selection) (metadataOnly : Bool)

/-- The check runs on the target: it is planned and its settings leave it enabled. -/
def planned (target : ConfiguredTarget) (check : Check) : Bool :=
  plan config profile selection metadataOnly target check &&
    (settingsFor config profile selection target check).enabled

/-- The subjects of a selection, without its references. -/
def subjects : List Subject :=
  (config.targets.filter (selects selection)).flatMap fun target =>
    (allChecks.filter (planned config profile selection metadataOnly target)).map
      (ConfiguredTarget.subject target)

variable {config profile selection metadataOnly} {encoding : Encoding} {revision : String}

theorem collectCheck_subjects {target : ConfiguredTarget} {collected next : Collected}
    {check : Check}
    (h : collectCheck encoding config profile selection metadataOnly revision target collected
      check = .ok next) :
    next.jobs.map Job.subject = collected.jobs.map Job.subject ++
      (if (settingsFor config profile selection target check).enabled then
        [ConfiguredTarget.subject target check] else []) := by
  unfold collectCheck at h
  obtain ⟨_, -, h⟩ := Groups.bind_eq_ok h
  split at h
  · rename_i henabled
    obtain ⟨footprint, -, h⟩ := Groups.bind_eq_ok h
    rw [← Except.ok.inj h, List.map_append, if_pos henabled]
    rfl
  · rename_i henabled
    rw [← Except.ok.inj h, if_neg henabled, List.append_nil]

theorem collectTarget_subjects {target : ConfiguredTarget} {collected next : Collected}
    (h : collectTarget encoding config profile selection metadataOnly revision collected target =
      .ok next) :
    next.jobs.map Job.subject = collected.jobs.map Job.subject ++
      (allChecks.filter (planned config profile selection metadataOnly target)).map
        (ConfiguredTarget.subject target) := by
  have hfold := foldlM_appends (g := fun collected : Collected => collected.jobs.map Job.subject)
    (fun _ _ _ hstep => collectCheck_subjects hstep) h
  rw [hfold]
  congr 1
  rw [CheckSet.toList]
  induction allChecks with
  | nil => rfl
  | cons check checks ih =>
      by_cases hplan : plan config profile selection metadataOnly target check = true
      · rw [List.filter_cons_of_pos hplan, List.flatMap_cons, ih]
        by_cases henabled : (settingsFor config profile selection target check).enabled = true
        · rw [List.filter_cons_of_pos (by simp [planned, hplan, henabled]), if_pos henabled]
          rfl
        · rw [List.filter_cons_of_neg (by simp [planned, henabled]), if_neg henabled]
          rfl
      · rw [List.filter_cons_of_neg hplan, ih,
          List.filter_cons_of_neg (by simp [planned, hplan])]

theorem collect_subjects {collected : Collected}
    (h : collect encoding config profile selection metadataOnly revision = .ok collected) :
    collected.jobs.map Job.subject = subjects config profile selection metadataOnly := by
  have hfold := foldlM_appends (g := fun collected : Collected => collected.jobs.map Job.subject)
    (fun _ _ _ hstep => collectTarget_subjects hstep) h
  rw [hfold]
  rfl

theorem mem_subjects {subject : Subject} :
    subject ∈ subjects config profile selection metadataOnly ↔
      ∃ target ∈ config.targets, ∃ check, selects selection target = true ∧
        planned config profile selection metadataOnly target check = true ∧
        ConfiguredTarget.subject target check = subject := by
  simp only [subjects, List.mem_flatMap, List.mem_filter, List.mem_map]
  constructor
  · rintro ⟨target, ⟨htarget, hselects⟩, check, ⟨-, hplanned⟩, hsubject⟩
    exact ⟨target, htarget, check, hselects, hplanned, hsubject⟩
  · rintro ⟨target, htarget, check, hselects, hplanned, hsubject⟩
    have hall : check ∈ allChecks := by
      cases check <;> decide
    exact ⟨target, ⟨htarget, hselects⟩, check, ⟨hall, hplanned⟩, hsubject⟩

/-- One selection has no two subjects of one check on one target. -/
theorem subjects_nodup :
    ((subjects config profile selection metadataOnly).map Subject.pair).Nodup := by
  have hkey : (subjects config profile selection metadataOnly).map Subject.pair =
      (config.targets.filter (selects selection)).flatMap fun target =>
        (allChecks.filter (planned config profile selection metadataOnly target)).map
          fun check => (target.name, check) := by
    rw [subjects, List.map_flatMap]
    congr 1
    funext target
    rw [List.map_map]
    rfl
  rw [hkey, List.nodup_flatMap]
  constructor
  · intro target _
    refine List.Nodup.map (fun a b hab => congrArg Prod.snd hab) (List.Nodup.filter _ ?_)
    decide
  · have hdistinct : config.targets.Pairwise fun a b => a.name ≠ b.name :=
      List.pairwise_map.mp config.distinct
    refine (hdistinct.filter _).imp fun hne => ?_
    intro pair ha hb
    obtain ⟨_, -, rfl⟩ := List.mem_map.mp ha
    obtain ⟨_, -, hpair⟩ := List.mem_map.mp hb
    exact hne (congrArg Prod.fst hpair).symm

end

/-! ## References -/

theorem mem_dependencies {jobs : List Job} {name : String} :
    name ∈ dependencies jobs ↔
      (∃ subject ∈ jobs.map Job.subject, subject.check = .releases ∧
        name ∈ subject.artifactTargets) ∧
      ¬ ∃ subject ∈ jobs.map Job.subject, subject.pair = (name, .releases) := by
  rw [dependencies, sortDedup, List.mem_dedup, List.mem_insertionSort]
  simp only [List.mem_filter, List.mem_flatMap, List.mem_map, Bool.not_eq_true',
    List.any_eq_false, Bool.and_eq_true, beq_iff_eq]
  constructor
  · rintro ⟨⟨job, ⟨hjob, hcheck⟩, hname⟩, hmissing⟩
    refine ⟨⟨_, ⟨job, hjob, rfl⟩, hcheck, hname⟩, ?_⟩
    rintro ⟨_, ⟨other, hother, rfl⟩, hpair⟩
    exact hmissing other hother (Prod.ext_iff.mp hpair)
  · rintro ⟨⟨_, ⟨job, hjob, rfl⟩, hcheck, hname⟩, hmissing⟩
    refine ⟨⟨job, ⟨hjob, hcheck⟩, hname⟩, fun other hother hboth => hmissing ?_⟩
    exact ⟨_, ⟨other, hother, rfl⟩, Prod.ext hboth.1 hboth.2⟩

theorem mem_sources {config : Config} {jobs : List Job} {name : String} :
    name ∈ sources config jobs ↔
      ∃ target ∈ config.targets, target.name = name ∧ target.provider = .github ∧
        ¬ ∃ subject ∈ jobs.map Job.subject, subject.name = name ∧
          subject.check ∈ [Check.github, .releases, .inventory] := by
  simp only [sources, List.mem_filter, List.mem_map, Bool.and_eq_true, beq_iff_eq,
    Bool.not_eq_true', List.any_eq_false]
  constructor
  · rintro ⟨target, ⟨htarget, hprovider, hnone⟩, rfl⟩
    refine ⟨target, htarget, rfl, hprovider, ?_⟩
    rintro ⟨_, ⟨job, hjob, rfl⟩, hname, hcheck⟩
    exact hnone job hjob ⟨hname, List.contains_iff_mem.mpr hcheck⟩
  · rintro ⟨target, htarget, rfl, hprovider, hnone⟩
    refine ⟨target, ⟨htarget, hprovider, fun job hjob hboth => hnone ?_⟩, rfl⟩
    exact ⟨_, ⟨job, hjob, rfl⟩, hboth.1, List.contains_iff_mem.mp hboth.2⟩

/-- The selection the artifact targets of release checks are resolved with. -/
def artifactSelection (selection : Selection) (names : List String) : Selection :=
  { selection with checks := [.releases], targets := names }

/-- The selection the source repositories are resolved with. -/
def sourceSelection (selection : Selection) (names : List String) : Selection :=
  { selection with checks := [.github], resources := [], targets := names }

section

variable {config : Config} {profile : Profile} {selection : Selection} {names : List String}
  {target : ConfiguredTarget}

theorem planned_artifact {check : Check} :
    planned config profile (artifactSelection selection names) true target check = true ↔
      (check = .preflight ∨ check = .releases ∧ applicable target .releases = true) ∧
        (settingsFor config profile selection target check).enabled = true := by
  have hplan : plan config profile (artifactSelection selection names) true target check = true ↔
      check = .preflight ∨ check = .releases ∧ applicable target .releases = true := by
    have hrequested : ∀ check, requested profile (artifactSelection selection names) target check =
        (check == .releases && applicable target .releases) := by
      intro check
      cases check <;> rfl
    have hchecks : (artifactSelection selection names).checks.contains .discovery = false := rfl
    simp only [plan, hchecks]
    split <;> cases check <;> simp [hrequested]
  rw [planned, Bool.and_eq_true, hplan]
  rfl

theorem planned_source {check : Check} (h : target.provider = .github) :
    planned config profile (sourceSelection selection names) false target check = true ↔
      (check = .preflight ∨ check = .github) ∧
        (settingsFor config profile selection target check).enabled = true := by
  have hplan : plan config profile (sourceSelection selection names) false target check = true ↔
      check = .preflight ∨ check = .github := by
    have hrequested : ∀ check,
        requested profile (sourceSelection selection names) target check = (check == .github) := by
      intro check
      cases check <;> simp [requested, sourceSelection, applicable, h]
    simp only [plan, h]
    cases check <;> simp [hrequested]
  rw [planned, Bool.and_eq_true, hplan]
  rfl

end

section

variable {encoding : Encoding} {digest : Selection → String} {config : Config}
  {selection : Selection}

theorem checkSelection_profile {profile : Profile}
    (h : checkSelection config selection = .ok profile) :
    config.profiles[selection.profile.getD "full"]? = some profile := by
  unfold checkSelection at h
  split at h
  · cases h
  cases hprofile : config.profiles[selection.profile.getD "full"]? with
  | none =>
      rw [hprofile] at h
      cases h
  | some found =>
      rw [hprofile] at h
      dsimp only at h
      split at h
      · cases h
      · rw [Except.ok.inj h]

theorem resolveInner_ok {fuel : Nat} {metadataOnly : Bool} {effective : Effective}
    (h : resolveInner encoding digest config (fuel + 1) selection metadataOnly = .ok effective) :
    ∃ profile jobs artifacts repositories,
      checkSelection config selection = .ok profile ∧
      jobs.map Job.subject = subjects config profile selection metadataOnly ∧
      referenceJobs (resolveInner encoding digest config fuel · true)
        { selection with checks := [.releases] } (digest selection)
        (if metadataOnly then [] else dependencies jobs) = .ok artifacts ∧
      referenceJobs (resolveInner encoding digest config fuel · false)
        { selection with checks := [.github], resources := [] } (digest selection)
        (if !metadataOnly && (jobs ++ artifacts).any fun job : Job =>
          job.check == Check.releases && job.target.provider != Provider.github
        then sources config (jobs ++ artifacts) else []) = .ok repositories ∧
      effective.jobs.map Job.subject = (jobs ++ artifacts ++ repositories).map Job.subject := by
  unfold resolveInner at h
  obtain ⟨profile, hprofile, h⟩ := Groups.bind_eq_ok h
  obtain ⟨collected, hcollected, h⟩ := Groups.bind_eq_ok h
  obtain ⟨jobs, hjobs, h⟩ := Groups.bind_eq_ok h
  obtain ⟨artifacts, hartifacts, h⟩ := Groups.bind_eq_ok h
  obtain ⟨repositories, hrepositories, h⟩ := Groups.bind_eq_ok h
  obtain ⟨resolved, hresolved, h⟩ := Groups.bind_eq_ok h
  split at h
  · cases h
  refine ⟨profile, jobs, artifacts, repositories, hprofile, ?_, hartifacts, hrepositories, ?_⟩
  · rw [sampling_subjects hjobs, collect_subjects hcollected]
  · rw [← Except.ok.inj h]
    exact (withFlows_subjects _).trans (normalize_subjects hresolved)

theorem referenceJobs_nil {nested : Selection → Except String Effective} {revision : String}
    {jobs : List Job} (h : referenceJobs nested selection revision [] = .ok jobs) : jobs = [] :=
  (Except.ok.inj h).symm

theorem referenceJobs_ok {nested : Selection → Except String Effective} {revision : String}
    {names : List String} {jobs : List Job}
    (h : referenceJobs nested selection revision names = .ok jobs) :
    names = [] ∧ jobs = [] ∨
      names ≠ [] ∧ ∃ effective, nested { selection with targets := names } = .ok effective ∧
        jobs.map Job.subject = effective.jobs.map Job.subject := by
  unfold referenceJobs at h
  split at h
  · rename_i hnames
    exact .inl ⟨List.isEmpty_iff.mp hnames, (Except.ok.inj h).symm⟩
  · rename_i hnames
    refine .inr ⟨fun hnil => hnames (List.isEmpty_iff.mpr hnil), ?_⟩
    cases hnested : nested { selection with targets := names } with
    | error e =>
        rw [hnested] at h
        cases h
    | ok effective =>
        rw [hnested] at h
        refine ⟨effective, rfl, ?_⟩
        rw [← Except.ok.inj h]
        exact asReference_subjects _ _

/-- Jobs resolved for their metadata make no further references. -/
theorem resolveInner_metadata {fuel : Nat} {effective : Effective}
    (h : resolveInner encoding digest config (fuel + 1) selection true = .ok effective) :
    ∃ profile, checkSelection config selection = .ok profile ∧
      effective.jobs.map Job.subject = subjects config profile selection true := by
  obtain ⟨profile, jobs, artifacts, repositories, hprofile, hjobs, hartifacts, hrepositories,
    heffective⟩ := resolveInner_ok h
  have hnone := referenceJobs_nil hartifacts
  have hnone' := referenceJobs_nil hrepositories
  subst hnone hnone'
  exact ⟨profile, hprofile, by rw [heffective, List.append_nil, List.append_nil, hjobs]⟩

/-- Source repositories are resolved without a release check, so they make no further
references either. -/
theorem resolveInner_source {fuel : Nat} {names : List String} {effective : Effective}
    (hgithub : ∀ target ∈ config.targets, selects (sourceSelection selection names) target = true →
      target.provider = .github)
    (h : resolveInner encoding digest config (fuel + 1) (sourceSelection selection names) false =
      .ok effective) :
    ∃ profile, checkSelection config (sourceSelection selection names) = .ok profile ∧
      effective.jobs.map Job.subject =
        subjects config profile (sourceSelection selection names) false := by
  obtain ⟨profile, jobs, artifacts, repositories, hprofile, hjobs, hartifacts, hrepositories,
    heffective⟩ := resolveInner_ok h
  have hreleases : ∀ subject ∈ jobs.map Job.subject, subject.check ≠ .releases := by
    intro subject hsubject hcheck
    rw [hjobs] at hsubject
    obtain ⟨target, htarget, check, hselects, hplanned, rfl⟩ := mem_subjects.mp hsubject
    change check = .releases at hcheck
    rw [planned_source (hgithub target htarget hselects), hcheck] at hplanned
    exact absurd hplanned.1 (by decide)
  have hdependencies : dependencies jobs = [] := by
    rw [List.eq_nil_iff_forall_not_mem]
    intro name hname
    obtain ⟨subject, hsubject, hcheck, -⟩ := (mem_dependencies.mp hname).1
    exact hreleases subject hsubject hcheck
  rw [hdependencies] at hartifacts
  have hnone := referenceJobs_nil hartifacts
  subst hnone
  have hreleased : (jobs ++ []).any (fun job : Job =>
      job.check == Check.releases && job.target.provider != Provider.github) = false := by
    rw [List.append_nil, List.any_eq_false]
    intro job hjob hboth
    rw [Bool.and_eq_true, beq_iff_eq] at hboth
    exact hreleases _ (List.mem_map_of_mem hjob) hboth.1
  rw [hreleased] at hrepositories
  have hnone' := referenceJobs_nil hrepositories
  subst hnone'
  exact ⟨profile, hprofile, by rw [heffective, List.append_nil, List.append_nil, hjobs]⟩

end

/-! ## Collisions -/

section

variable (config : Config) (profile : Profile) (selection : Selection)

/-- The check of the target is enabled in its settings. -/
def Enabled (target : ConfiguredTarget) (check : Check) : Prop :=
  (settingsFor config profile selection target check).enabled = true

/-- The selection itself runs the check on the target. -/
def Selected (target : ConfiguredTarget) (check : Check) : Prop :=
  selects selection target = true ∧ planned config profile selection false target check = true

/-- A selected release check names the target, which has none itself. -/
def Referenced (target : ConfiguredTarget) : Prop :=
  (∃ other ∈ config.targets, Selected config profile selection other .releases ∧
    target.name ∈ other.artifactTargets) ∧
  ¬ Selected config profile selection target .releases

/-- The target has a release check, selected or for reference. -/
def Released (target : ConfiguredTarget) : Prop :=
  Selected config profile selection target .releases ∨
    Referenced config profile selection target ∧ applicable target .releases = true ∧
      Enabled config profile selection target .releases

/-- A source repository that no check observes, while some other target is released. -/
def Unobserved (target : ConfiguredTarget) : Prop :=
  target.provider = .github ∧
  (∃ other ∈ config.targets, other.provider ≠ .github ∧ Released config profile selection other) ∧
  ¬ Released config profile selection target ∧
  ¬ Selected config profile selection target .github ∧
  ¬ Selected config profile selection target .inventory

/-- Some target with an enabled preflight check is there for two reasons: selected, named
by a release check, or as a source repository. -/
def Collides : Prop :=
  ∃ target ∈ config.targets, Enabled config profile selection target .preflight ∧
    (selects selection target = true ∧ (Referenced config profile selection target ∨
        Unobserved config profile selection target) ∨
      Referenced config profile selection target ∧ Unobserved config profile selection target)

variable {config profile selection}

theorem Config.target_unique {a b : ConfiguredTarget} (ha : a ∈ config.targets)
    (hb : b ∈ config.targets) (h : a.name = b.name) : a = b :=
  List.inj_on_of_nodup_map config.distinct ha hb h

theorem planned_preflight {metadataOnly : Bool} {target : ConfiguredTarget} :
    planned config profile selection metadataOnly target .preflight = true ↔
      Enabled config profile selection target .preflight := by
  rw [planned, Bool.and_eq_true, Enabled, and_iff_right]
  simp [plan]

/-- Which pairs the selection itself has. -/
theorem pair_mem_selected {target : ConfiguredTarget} (htarget : target ∈ config.targets)
    {check : Check} :
    (target.name, check) ∈ (subjects config profile selection false).map Subject.pair ↔
      Selected config profile selection target check := by
  rw [List.mem_map]
  constructor
  · rintro ⟨subject, hsubject, hpair⟩
    obtain ⟨other, hother, check', hselects, hplanned, rfl⟩ := mem_subjects.mp hsubject
    obtain ⟨hname, hcheck⟩ := Prod.ext_iff.mp hpair
    change check' = check at hcheck
    have hsame := config.target_unique hother htarget hname
    exact ⟨hsame ▸ hselects, hsame ▸ hcheck ▸ hplanned⟩
  · intro h
    exact ⟨ConfiguredTarget.subject target check,
      mem_subjects.mpr ⟨target, htarget, check, h.1, h.2, rfl⟩, rfl⟩

/-- A list of names selects exactly those targets, unless it is empty. -/
theorem selects_names {selection : Selection} {target : ConfiguredTarget}
    (h : selection.targets ≠ []) :
    selects selection target = true ↔ target.name ∈ selection.targets := by
  rw [selects, List.isEmpty_eq_false_iff.mpr h, Bool.false_or, List.contains_iff_mem]

/-- Which pairs a reference adds, whichever selection resolves its names. -/
theorem pair_mem_reference {names : List String} {nested : Selection} {metadataOnly : Bool}
    (hnames : nested.targets = names) (hne : names ≠ []) {target : ConfiguredTarget}
    (htarget : target ∈ config.targets) {check : Check} :
    (target.name, check) ∈ (subjects config profile nested metadataOnly).map Subject.pair ↔
      target.name ∈ names ∧ planned config profile nested metadataOnly target check = true := by
  rw [List.mem_map]
  constructor
  · rintro ⟨subject, hsubject, hpair⟩
    obtain ⟨other, hother, check', hselects, hplanned, rfl⟩ := mem_subjects.mp hsubject
    obtain ⟨hname, hcheck⟩ := Prod.ext_iff.mp hpair
    change check' = check at hcheck
    have hsame := config.target_unique hother htarget hname
    subst hsame hcheck hnames
    exact ⟨(selects_names hne).mp hselects, hplanned⟩
  · intro ⟨hmem, hplanned⟩
    subst hnames
    exact ⟨ConfiguredTarget.subject target check,
      mem_subjects.mpr ⟨target, htarget, check, (selects_names hne).mpr hmem, hplanned, rfl⟩, rfl⟩

/-- Subjects of configured targets. -/
def Drawn (config : Config) (list : List Subject) : Prop :=
  ∀ subject ∈ list, ∃ target ∈ config.targets, ∃ check,
    ConfiguredTarget.subject target check = subject

theorem subjects_drawn {metadataOnly : Bool} :
    Drawn config (subjects config profile selection metadataOnly) := by
  intro subject hsubject
  obtain ⟨target, htarget, check, -, -, heq⟩ := mem_subjects.mp hsubject
  exact ⟨target, htarget, check, heq⟩

/-- What holds of some subject is told by its pair and its target. -/
theorem Drawn.exists_iff {list : List Subject} (h : Drawn config list)
    {p : Subject → Prop} :
    (∃ subject ∈ list, p subject) ↔ ∃ target ∈ config.targets, ∃ check,
      (target.name, check) ∈ list.map Subject.pair ∧ p (ConfiguredTarget.subject target check) := by
  constructor
  · rintro ⟨subject, hsubject, hp⟩
    obtain ⟨target, htarget, check, rfl⟩ := h subject hsubject
    exact ⟨target, htarget, check, List.mem_map_of_mem hsubject, hp⟩
  · rintro ⟨target, htarget, check, hpair, hp⟩
    obtain ⟨subject, hsubject, heq⟩ := List.mem_map.mp hpair
    obtain ⟨other, hother, check', rfl⟩ := h subject hsubject
    obtain ⟨hname, hcheck⟩ := Prod.ext_iff.mp heq
    change check' = check at hcheck
    have hsame := config.target_unique hother htarget hname
    subst hsame hcheck
    exact ⟨_, hsubject, hp⟩

theorem Drawn.append {list other : List Subject} (h : Drawn config list)
    (hother : Drawn config other) : Drawn config (list ++ other) := by
  intro subject hsubject
  exact (List.mem_append.mp hsubject).elim (h subject) (hother subject)

variable {encoding : Encoding} {digest : Selection → String} {fuel : Nat} {revision : String}
  {names : List String}

/-- The references to artifact targets. -/
theorem artifacts_ok {artifacts : List Job}
    (hprofile : config.profiles[selection.profile.getD "full"]? = some profile)
    (h : referenceJobs (resolveInner encoding digest config (fuel + 1) · true)
      { selection with checks := [.releases] } revision names = .ok artifacts) :
    Drawn config (artifacts.map Job.subject) ∧
    ((artifacts.map Job.subject).map Subject.pair).Nodup ∧
    ∀ target ∈ config.targets, ∀ check,
      (target.name, check) ∈ (artifacts.map Job.subject).map Subject.pair ↔
        target.name ∈ names ∧
          (check = .preflight ∨ check = .releases ∧ applicable target .releases = true) ∧
          Enabled config profile selection target check := by
  rcases referenceJobs_ok h with ⟨rfl, rfl⟩ | ⟨hne, effective, hnested, hsubjects⟩
  · exact ⟨by simp [Drawn], by simp, by simp⟩
  · obtain ⟨profile', hprofile', heffective⟩ := resolveInner_metadata hnested
    have hsame : profile' = profile :=
      Option.some.inj ((checkSelection_profile hprofile').symm.trans hprofile)
    subst hsame
    rw [hsubjects, heffective]
    refine ⟨subjects_drawn, subjects_nodup, fun target htarget check => ?_⟩
    rw [pair_mem_reference rfl hne htarget]
    exact and_congr_right fun _ => planned_artifact

/-- The references to source repositories. -/
theorem repositories_ok {repositories : List Job}
    (hprofile : config.profiles[selection.profile.getD "full"]? = some profile)
    (hgithub : ∀ target ∈ config.targets, target.name ∈ names → target.provider = .github)
    (h : referenceJobs (resolveInner encoding digest config (fuel + 1) · false)
      { selection with checks := [.github], resources := [] } revision names =
        .ok repositories) :
    Drawn config (repositories.map Job.subject) ∧
    ((repositories.map Job.subject).map Subject.pair).Nodup ∧
    ∀ target ∈ config.targets, ∀ check,
      (target.name, check) ∈ (repositories.map Job.subject).map Subject.pair ↔
        target.name ∈ names ∧ (check = .preflight ∨ check = .github) ∧
          Enabled config profile selection target check := by
  rcases referenceJobs_ok h with ⟨rfl, rfl⟩ | ⟨hne, effective, hnested, hsubjects⟩
  · exact ⟨by simp [Drawn], by simp, by simp⟩
  · have hselected : ∀ target ∈ config.targets,
        selects (sourceSelection selection names) target = true → target.provider = .github :=
      fun target htarget hselects => hgithub target htarget ((selects_names hne).mp hselects)
    obtain ⟨profile', hprofile', heffective⟩ := resolveInner_source hselected hnested
    have hsame : profile' = profile :=
      Option.some.inj ((checkSelection_profile hprofile').symm.trans hprofile)
    subst hsame
    rw [hsubjects, heffective]
    refine ⟨subjects_drawn, subjects_nodup, fun target htarget check => ?_⟩
    have hnames : (sourceSelection selection names).targets = names := rfl
    rw [pair_mem_reference hnames hne htarget]
    exact and_congr_right fun hmem => planned_source (hgithub target htarget hmem)

/-- Appending subjects with different keys repeats none as long as no target and check are
in both lists. -/
theorem Drawn.nodup_append_iff {list other : List Subject} (h : Drawn config other)
    (hother : (other.map Subject.pair).Nodup) :
    ((list ++ other).map Subject.pair).Nodup ↔
      (list.map Subject.pair).Nodup ∧ ∀ target ∈ config.targets, ∀ check,
        (target.name, check) ∈ other.map Subject.pair →
          (target.name, check) ∉ list.map Subject.pair := by
  rw [List.map_append, List.nodup_append, and_iff_right hother]
  refine and_congr_right fun _ => ?_
  constructor
  · intro hdisjoint target _ check hmem hlist
    exact hdisjoint _ hlist _ hmem rfl
  · intro hdisjoint pair hpair _ hmem heq
    subst heq
    obtain ⟨subject, hsubject, rfl⟩ := List.mem_map.mp hmem
    obtain ⟨target, htarget, check, rfl⟩ := h subject hsubject
    exact hdisjoint target htarget check hmem hpair

section

variable {jobs artifacts : List Job}
  (hjobs : jobs.map Job.subject = subjects config profile selection false)

include hjobs

theorem mem_dependencies_iff {target : ConfiguredTarget} (htarget : target ∈ config.targets) :
    target.name ∈ dependencies jobs ↔ Referenced config profile selection target := by
  rw [mem_dependencies, Referenced, hjobs]
  refine and_congr ?_ (not_congr ?_)
  · rw [subjects_drawn.exists_iff]
    constructor
    · rintro ⟨other, hother, check, hpair, hcheck, hname⟩
      change check = .releases at hcheck
      subst hcheck
      exact ⟨other, hother, (pair_mem_selected hother).mp hpair, hname⟩
    · rintro ⟨other, hother, hselected, hname⟩
      exact ⟨other, hother, .releases, (pair_mem_selected hother).mpr hselected, rfl, hname⟩
  · exact List.mem_map.symm.trans (pair_mem_selected htarget)

variable (hdrawn : Drawn config (artifacts.map Job.subject))
  (hartifacts : ∀ target ∈ config.targets, ∀ check,
    (target.name, check) ∈ (artifacts.map Job.subject).map Subject.pair ↔
      target.name ∈ dependencies jobs ∧
        (check = .preflight ∨ check = .releases ∧ applicable target .releases = true) ∧
        Enabled config profile selection target check)

include hartifacts

theorem pair_mem_observed {target : ConfiguredTarget} (htarget : target ∈ config.targets)
    {check : Check} :
    (target.name, check) ∈ ((jobs ++ artifacts).map Job.subject).map Subject.pair ↔
      Selected config profile selection target check ∨
        Referenced config profile selection target ∧
          (check = .preflight ∨ check = .releases ∧ applicable target .releases = true) ∧
          Enabled config profile selection target check := by
  rw [List.map_append, List.map_append, List.mem_append, hjobs, pair_mem_selected htarget,
    hartifacts target htarget, mem_dependencies_iff hjobs htarget]

theorem released_iff {target : ConfiguredTarget} (htarget : target ∈ config.targets) :
    (target.name, Check.releases) ∈ ((jobs ++ artifacts).map Job.subject).map Subject.pair ↔
      Released config profile selection target := by
  rw [pair_mem_observed hjobs hartifacts htarget, Released]
  simp

include hdrawn

theorem any_released_iff :
    ((jobs ++ artifacts).any fun job : Job =>
      job.check == Check.releases && job.target.provider != Provider.github) = true ↔
      ∃ other ∈ config.targets, other.provider ≠ .github ∧
        Released config profile selection other := by
  have hsubjects : ((jobs ++ artifacts).any fun job : Job =>
      job.check == Check.releases && job.target.provider != Provider.github) = true ↔
      ∃ subject ∈ (jobs ++ artifacts).map Job.subject,
        subject.check = .releases ∧ subject.provider ≠ .github := by
    simp only [List.any_eq_true, List.mem_map, Bool.and_eq_true, beq_iff_eq, bne_iff_ne]
    constructor
    · rintro ⟨job, hjob, hboth⟩
      exact ⟨_, ⟨job, hjob, rfl⟩, hboth⟩
    · rintro ⟨_, ⟨job, hjob, rfl⟩, hboth⟩
      exact ⟨job, hjob, hboth⟩
  have hall : Drawn config ((jobs ++ artifacts).map Job.subject) := by
    rw [List.map_append, hjobs]
    exact subjects_drawn.append hdrawn
  rw [hsubjects, hall.exists_iff]
  constructor
  · rintro ⟨other, hother, check, hpair, hcheck, hprovider⟩
    change check = .releases at hcheck
    subst hcheck
    exact ⟨other, hother, hprovider, (released_iff hjobs hartifacts hother).mp hpair⟩
  · rintro ⟨other, hother, hprovider, hreleased⟩
    exact ⟨other, hother, .releases, (released_iff hjobs hartifacts hother).mpr hreleased, rfl,
      hprovider⟩

theorem mem_sources_iff {target : ConfiguredTarget} (htarget : target ∈ config.targets) :
    target.name ∈ (if ((jobs ++ artifacts).any fun job : Job =>
        job.check == Check.releases && job.target.provider != Provider.github) = true
      then sources config (jobs ++ artifacts) else []) ↔
      Unobserved config profile selection target := by
  have hnone : (¬ ∃ subject ∈ (jobs ++ artifacts).map Job.subject, subject.name = target.name ∧
      subject.check ∈ [Check.github, .releases, .inventory]) ↔
      ¬ Released config profile selection target ∧
        ¬ Selected config profile selection target .github ∧
        ¬ Selected config profile selection target .inventory := by
    have hpairs : (∃ subject ∈ (jobs ++ artifacts).map Job.subject, subject.name = target.name ∧
        subject.check ∈ [Check.github, .releases, .inventory]) ↔
        ∃ check ∈ [Check.github, .releases, .inventory],
          (target.name, check) ∈ ((jobs ++ artifacts).map Job.subject).map Subject.pair := by
      constructor
      · rintro ⟨subject, hsubject, hname, hcheck⟩
        exact ⟨subject.check, hcheck, List.mem_map.mpr ⟨subject, hsubject, Prod.ext hname rfl⟩⟩
      · rintro ⟨check, hcheck, hpair⟩
        obtain ⟨subject, hsubject, heq⟩ := List.mem_map.mp hpair
        obtain ⟨hname, hsame⟩ := Prod.ext_iff.mp heq
        change subject.check = check at hsame
        exact ⟨subject, hsubject, hname, hsame ▸ hcheck⟩
    have hgithub : (target.name, Check.github) ∈ _ ↔ _ :=
      pair_mem_observed hjobs hartifacts htarget
    have hinventory : (target.name, Check.inventory) ∈ _ ↔ _ :=
      pair_mem_observed hjobs hartifacts htarget
    simp only [reduceCtorEq, false_and, and_false, or_false] at hgithub hinventory
    rw [hpairs]
    simp only [List.mem_cons, List.not_mem_nil, or_false, exists_eq_or_imp, exists_eq_left,
      released_iff hjobs hartifacts htarget, hgithub, hinventory]
    tauto
  split
  · rename_i hany
    rw [any_released_iff hjobs hdrawn hartifacts] at hany
    rw [mem_sources, Unobserved, and_iff_right hany]
    constructor
    · rintro ⟨other, hother, hname, hprovider, h⟩
      have hsame := config.target_unique hother htarget hname
      exact ⟨hsame ▸ hprovider, hnone.mp h⟩
    · intro ⟨hprovider, h⟩
      exact ⟨target, htarget, rfl, hprovider, hnone.mpr h⟩
  · rename_i hany
    rw [any_released_iff hjobs hdrawn hartifacts] at hany
    exact iff_of_false List.not_mem_nil fun h => hany h.2.1

end

end

/-! ## The keys of a resolved selection -/

/-- A resolved job list has different keys exactly when no target with an enabled
preflight check is there for two reasons. -/
theorem resolve_keys_nodup_iff (encoding : Encoding) (digest : Selection → String)
    (config : Config) (selection : Selection) (effective : Effective)
    (h : resolve encoding digest config selection = .ok effective) :
    (effective.jobs.map Job.key).Nodup ↔
      ¬ ∃ profile, config.profiles[selection.profile.getD "full"]? = some profile ∧
        Collides config profile selection := by
  obtain ⟨profile, jobs, artifacts, repositories, hchecked, hjobs, hartifacts, hrepositories,
    heffective⟩ := resolveInner_ok h
  have hprofile := checkSelection_profile hchecked
  obtain ⟨hdrawn, hnodup, hartifacts⟩ := artifacts_ok hprofile hartifacts
  simp only [Bool.false_eq_true, if_false, Bool.not_false, Bool.true_and] at hartifacts hrepositories
  have hsources : ∀ target ∈ config.targets, _ ↔ Unobserved config profile selection target :=
    fun target htarget => mem_sources_iff hjobs hdrawn hartifacts htarget
  obtain ⟨hdrawn', hnodup', hrepositories⟩ := repositories_ok hprofile
    (fun target htarget hmem => ((hsources target htarget).mp hmem).1) hrepositories
  have hmain : ((jobs.map Job.subject).map Subject.pair).Nodup := by
    rw [hjobs]
    exact subjects_nodup
  have hcollides : (∃ profile, config.profiles[selection.profile.getD "full"]? = some profile ∧
      Collides config profile selection) ↔ Collides config profile selection := by
    simp [hprofile]
  rw [keys_nodup_iff, heffective, hcollides, List.map_append, hdrawn'.nodup_append_iff hnodup',
    List.map_append, hdrawn.nodup_append_iff hnodup, and_iff_right hmain, ← List.map_append]
  constructor
  · rintro ⟨hartifact, hsource⟩ ⟨target, htarget, henabled, hreasons⟩
    have hselected (hselects : selects selection target = true) :
        Selected config profile selection target .preflight :=
      ⟨hselects, planned_preflight.mpr henabled⟩
    have hobserved : (target.name, Check.preflight) ∈ _ ↔ _ :=
      pair_mem_observed hjobs hartifacts htarget
    have hreferenced := mem_dependencies_iff hjobs htarget
    rcases hreasons with ⟨hselects, href | hrepository⟩ | ⟨href, hrepository⟩
    · refine hartifact target htarget .preflight ?_ ?_
      · exact (hartifacts target htarget _).mpr ⟨hreferenced.mpr href, .inl rfl, henabled⟩
      · rw [hjobs]
        exact (pair_mem_selected htarget).mpr (hselected hselects)
    · refine hsource target htarget .preflight ?_ (hobserved.mpr (.inl (hselected hselects)))
      exact (hrepositories target htarget _).mpr
        ⟨(hsources target htarget).mpr hrepository, .inl rfl, henabled⟩
    · refine hsource target htarget .preflight ?_
        (hobserved.mpr (.inr ⟨href, .inl rfl, henabled⟩))
      exact (hrepositories target htarget _).mpr
        ⟨(hsources target htarget).mpr hrepository, .inl rfl, henabled⟩
  · intro hnone
    refine ⟨fun target htarget check hmem hselected => hnone ?_,
      fun target htarget check hmem hobserved => hnone ?_⟩
    · obtain ⟨hname, hcheck, henabled⟩ := (hartifacts target htarget check).mp hmem
      have href := (mem_dependencies_iff hjobs htarget).mp hname
      rw [hjobs, pair_mem_selected htarget] at hselected
      rcases hcheck with rfl | ⟨rfl, -⟩
      · exact ⟨target, htarget, henabled, .inl ⟨hselected.1, .inl href⟩⟩
      · exact absurd hselected href.2
    · obtain ⟨hname, hcheck, henabled⟩ := (hrepositories target htarget check).mp hmem
      have hrepository := (hsources target htarget).mp hname
      rw [pair_mem_observed hjobs hartifacts htarget] at hobserved
      rcases hcheck with rfl | rfl
      · rcases hobserved with hselected | ⟨href, -⟩
        · exact ⟨target, htarget, henabled, .inl ⟨hselected.1, .inr hrepository⟩⟩
        · exact ⟨target, htarget, henabled, .inr ⟨href, hrepository⟩⟩
      -- the github check of a source repository is not selected, and no reference
      -- to an artifact target is one
      · rcases hobserved with hselected | ⟨-, hcheck | ⟨hcheck, -⟩, -⟩
        · exact absurd hselected hrepository.2.2.2.1
        · cases hcheck
        · cases hcheck

/-- Encoded lengths that only count characters. -/
def plainEncoding : Encoding where
  target target := target.name.length
  selectors selectors := (selectors.map String.length).sum
  severity _ := 2

/-- A cloud target whose release check names artifacts on the given targets. -/
def releasing (artifacts : List String) : ConfiguredTarget :=
  { name := "a", valid := by decide, provider := .gcp, scope := "p", artifactTargets := artifacts }

/-- A stream server. -/
def streaming : ConfiguredTarget :=
  { name := "b", valid := by decide, provider := .nats, scope := "s" }

def releaseConfig (artifacts : List String) : Config :=
  { profiles := (∅ : Table Profile).insert "full" {}
    targets := [releasing artifacts, streaming]
    distinct := by simp [releasing, streaming] }

def releaseSelection (targets : List String) : Selection := { checks := [.releases], targets }

theorem ok_of_toOption {ε α β : Type} {x : Except ε α} {f : α → β} {b : β}
    (h : x.toOption.map f = some b) : ∃ a, x = .ok a ∧ f a = b := by
  cases x with
  | error e => cases h
  | ok a => exact ⟨a, rfl, Option.some.inj h⟩

/-- The referenced target is not selected. -/
theorem resolve_keys_nodup_iff_referenced :
    ∃ effective, resolve plainEncoding (fun _ => "") (releaseConfig ["b"])
        (releaseSelection ["a"]) = .ok effective ∧
      effective.jobs.map Job.key = ["a/Preflight", "a/Inventory", "a/Releases", "b/Preflight"] ∧
      ((effective.jobs.map Job.key).Nodup ↔
        ¬ ∃ profile, (releaseConfig ["b"]).profiles["full"]? = some profile ∧
          Collides (releaseConfig ["b"]) profile (releaseSelection ["a"])) := by
  have hkeys : ((resolve plainEncoding (fun _ => "") (releaseConfig ["b"])
      (releaseSelection ["a"])).toOption.map fun effective => effective.jobs.map Job.key) =
      some ["a/Preflight", "a/Inventory", "a/Releases", "b/Preflight"] := by
    decide +kernel
  obtain ⟨effective, heffective, hkeys⟩ := ok_of_toOption hkeys
  exact ⟨effective, heffective, hkeys, resolve_keys_nodup_iff _ _ _ _ _ heffective⟩

/-- A target that is selected and named by the release check of another has two preflight
checks of one key. -/
theorem resolve_keys_repeated :
    ∃ effective, resolve plainEncoding (fun _ => "") (releaseConfig ["b"])
        (releaseSelection []) = .ok effective ∧
      effective.jobs.map Job.key =
        ["a/Preflight", "a/Inventory", "a/Releases", "b/Preflight", "b/Preflight"] ∧
      ¬ (effective.jobs.map Job.key).Nodup := by
  have hkeys : ((resolve plainEncoding (fun _ => "") (releaseConfig ["b"])
      (releaseSelection [])).toOption.map fun effective => effective.jobs.map Job.key) =
      some ["a/Preflight", "a/Inventory", "a/Releases", "b/Preflight", "b/Preflight"] := by
    decide +kernel
  obtain ⟨effective, heffective, hkeys⟩ := ok_of_toOption hkeys
  refine ⟨effective, heffective, hkeys, ?_⟩
  rw [hkeys]
  decide

end HealthMonitor.Resolve
