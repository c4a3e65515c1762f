import HealthMonitor.Core.Isolation
import HealthMonitor.Server.View

/-!
# Overview

The summary of each target on the dashboard, computed from the view that is out at the time
it is read, and what the entries of the view it is computed from stand for.
-/

namespace HealthMonitor.Server

open View

structure TargetSummary where
  target : View.Target
  health : Health
  completeChecks : Nat
  totalChecks : Nat
  errors : Nat
  warnings : Nat
  resources : Nat
  latestObservation : Option Time
  deriving DecidableEq, Repr

namespace Overview

/-- The row is the target's own. -/
def completeAt (now : Time) (check : CheckView) : Bool :=
  check.complete && check.expiresAt.any (now ≤ ·)

def hasHealth (now : Time) (resources : List Resource) (health : Health) : Bool :=
  resources.any fun resource => currentHealth resource.health resource.expiresAt now == health

def summary (view : View) (target : View.Target) (now : Time) : TargetSummary :=
  let checks := view.checks.filter (·.target == target.name)
  let complete := checks.countP (completeAt now)
  let findings := view.findings.filter (·.target == target.name)
  let errors := findings.countP (·.severity == .error)
  let warnings := findings.countP (·.severity == .warning)
  let resources := view.resources.filter (·.target == target.name)
  { target
    health :=
      if 0 < errors || hasHealth now resources .unhealthy then .unhealthy
      else if 0 < warnings || hasHealth now resources .degraded then .degraded
      else if complete != checks.length || checks.isEmpty || resources.isEmpty
          || hasHealth now resources .unknown then .unknown
      else if !resources.isEmpty && resources.all (·.health == .expectedInactive) then
        .expectedInactive
      else .healthy
    completeChecks := complete
    totalChecks := checks.length
    errors
    warnings
    resources := resources.length
    latestObservation := (resources.map (·.observedAt)).max? }

/-! ## What a good summary rests on -/

/-- A target is shown as well only if no finding, no row and no resource of it speaks against
it. -/
structure Well (view : View) (name : String) (now : Time) : Prop where
  findings : ∀ f ∈ view.findings, f.target = name → f.severity = .info
  checked : ∃ check ∈ view.checks, check.target = name
  complete : ∀ check ∈ view.checks, check.target = name →
    check.complete = true ∧ ∃ time ∈ check.expiresAt, now ≤ time
  seen : ∃ resource ∈ view.resources, resource.target = name
  current : ∀ resource ∈ view.resources, resource.target = name →
    now ≤ resource.expiresAt ∧ resource.health.clear = true

theorem current_of_hasHealth {now : Time} {resources : List Resource}
    (hunhealthy : hasHealth now resources .unhealthy = false)
    (hdegraded : hasHealth now resources .degraded = false)
    (hunknown : hasHealth now resources .unknown = false) :
    ∀ resource ∈ resources, now ≤ resource.expiresAt ∧ resource.health.clear = true := by
  intro resource hresource
  have hnot : ∀ health : Health, hasHealth now resources health = false →
      currentHealth resource.health resource.expiresAt now ≠ health := by
    intro health hnone heq
    rw [hasHealth, List.any_eq_false] at hnone
    exact hnone resource hresource (beq_iff_eq.mpr heq)
  have hcurrent : ¬resource.expiresAt < now := by
    intro hexpired
    exact hnot .unknown hunknown (by rw [currentHealth, if_pos hexpired])
  refine ⟨Int.not_lt.mp hcurrent, ?_⟩
  have hhealth : ∀ health : Health, hasHealth now resources health = false →
      resource.health ≠ health := by
    intro health hnone
    have hne := hnot health hnone
    rwa [currentHealth, if_neg hcurrent] at hne
  cases hkind : resource.health with
  | healthy => rfl
  | expectedInactive => rfl
  | unhealthy => exact absurd hkind (hhealth _ hunhealthy)
  | degraded => exact absurd hkind (hhealth _ hdegraded)
  | unknown => exact absurd hkind (hhealth _ hunknown)

theorem well_of_summary {view : View} {target : View.Target} {now : Time}
    (h : (summary view target now).health.clear = true) : Well view target.name now := by
  rw [summary] at h
  dsimp only at h
  split at h
  · cases h
  · next herrors =>
      split at h
      · cases h
      · next hwarnings =>
          split at h
          · cases h
          · next hknown =>
              simp only [Bool.or_eq_true, not_or, Bool.not_eq_true, decide_eq_true_eq, Nat.not_lt,
                Nat.le_zero_eq, bne_eq_false_iff_eq, List.isEmpty_eq_false_iff,
                List.countP_eq_zero, List.mem_filter, beq_iff_eq, and_imp]
                at herrors hwarnings hknown
              obtain ⟨⟨⟨hcomplete, hchecks⟩, hresources⟩, hunknown⟩ := hknown
              rw [List.countP_eq_length] at hcomplete
              refine ⟨fun f hf hname => ?_, ?_, fun check hcheck hname => ?_, ?_,
                fun resource hresource hname => ?_⟩
              · cases hseverity : f.severity with
                | info => rfl
                | warning => exact absurd hseverity (hwarnings.1 f hf hname)
                | error => exact absurd hseverity (herrors.1 f hf hname)
              · obtain ⟨check, hcheck⟩ := List.exists_mem_of_ne_nil _ hchecks
                rw [List.mem_filter, beq_iff_eq] at hcheck
                exact ⟨check, hcheck⟩
              · have hrow := hcomplete check (by simp [hcheck, hname])
                rw [completeAt, Bool.and_eq_true] at hrow
                refine ⟨hrow.1, ?_⟩
                simpa [Option.any_eq_true] using hrow.2
              · obtain ⟨resource, hresource⟩ := List.exists_mem_of_ne_nil _ hresources
                rw [List.mem_filter, beq_iff_eq] at hresource
                exact ⟨resource, hresource⟩
              · exact current_of_hasHealth herrors.2 hwarnings.2 hunknown resource
                  (by simp [hresource, hname])

end Overview

/-! ## Whose a resource is -/

namespace View

theorem targetsOf_some {jobs : List EffectiveJob} {name : String} {t : View.Target}
    (h : (targetsOf jobs)[name]? = some t) :
    t.name = name ∧ ∃ job ∈ jobs, job.target.name = name := by
  have hall : ∀ (rest : List EffectiveJob) (table : Table View.Target),
      (∀ name t, table[name]? = some t → t.name = name ∧ ∃ job ∈ jobs, job.target.name = name) →
      (∀ job ∈ rest, job ∈ jobs) →
      ∀ name t, (rest.foldl (fun table (job : EffectiveJob) =>
        if table.contains job.target.name then table
        else
          table.insert job.target.name
            { name := job.target.name
              provider := job.target.provider
              scope := job.target.scope
              regions := job.target.regions }) table)[name]? = some t →
        t.name = name ∧ ∃ job ∈ jobs, job.target.name = name := by
    intro rest
    induction rest with
    | nil => exact fun table htable _ => htable
    | cons job rest ih =>
        intro table htable hrest
        rw [List.foldl_cons]
        apply ih
        · intro name t hlookup
          split at hlookup
          · exact htable name t hlookup
          · rw [Std.ExtTreeMap.getElem?_insert] at hlookup
            split at hlookup
            · next heq =>
                have hname : job.target.name = name := by simpa using heq
                cases hlookup
                exact ⟨hname, job, hrest job List.mem_cons_self, hname⟩
            · exact htable name t hlookup
        · exact fun job hjob => hrest job (List.mem_cons_of_mem _ hjob)
  exact hall jobs ∅ (by simp) (fun job hjob => hjob) name t h

/-- The targets of a view are those of its jobs. -/
theorem mem_targets {jobs : List EffectiveJob} {t : View.Target}
    (h : t ∈ (targetsOf jobs).toList.map Prod.snd) :
    ∃ job ∈ jobs, job.target.name = t.name := by
  obtain ⟨⟨name, t⟩, hmem, rfl⟩ := List.mem_map.mp h
  obtain ⟨hname, hjob⟩ := targetsOf_some (Table.mem_toList.mp hmem)
  rw [hname]
  exact hjob

theorem longer_mem {targets : List View.Target} {best : Option View.Target} {t : View.Target}
    (h : targets.foldl Target.longer best = some t) : best = some t ∨ t ∈ targets := by
  induction targets generalizing best with
  | nil => exact .inl h
  | cons other rest ih =>
      rcases ih h with hfirst | hrest
      · cases best with
        | none =>
            cases hfirst
            exact .inr List.mem_cons_self
        | some current =>
            rw [Target.longer] at hfirst
            split at hfirst
            · cases hfirst
              exact .inr List.mem_cons_self
            · exact .inl hfirst
      · exact .inr (List.mem_cons_of_mem _ hrest)

theorem longer_some {targets : List View.Target} {best : Option View.Target}
    (h : best.isSome = true ∨ targets ≠ []) :
    (targets.foldl Target.longer best).isSome = true := by
  induction targets generalizing best with
  | nil => exact h.resolve_right fun hne => hne rfl
  | cons other rest ih =>
      apply ih
      left
      cases best with
      | none => rfl
      | some current =>
          rw [Target.longer]
          split <;> rfl

/-- The names of targets have no `/`, so a resource belongs to one of them at most. -/
theorem target_eq {jobs : List EffectiveJob} {t : View.Target} {resource : String}
    (ht : t ∈ (targetsOf jobs).toList.map Prod.snd) (howns : t.owns resource = true) :
    target resource ((targetsOf jobs).toList.map Prod.snd) = t.name := by
  have hname : ∀ other ∈ (targetsOf jobs).toList.map Prod.snd, '/' ∉ other.name.toList := by
    intro other hother
    obtain ⟨job, -, heq⟩ := mem_targets hother
    rw [← heq]
    exact job.target.slash_notMem_name
  have hmem : t ∈ ((targetsOf jobs).toList.map Prod.snd).filter (·.owns resource) :=
    List.mem_filter.mpr ⟨ht, howns⟩
  have hsome := @longer_some (((targetsOf jobs).toList.map Prod.snd).filter (·.owns resource)) none
    (.inr (List.ne_nil_of_mem hmem))
  obtain ⟨other, hother⟩ := Option.isSome_iff_exists.mp hsome
  rw [target, hother]
  rcases longer_mem hother with hnone | hlisted
  · cases hnone
  · rw [List.mem_filter] at hlisted
    exact Text.startsWith_unique (hname other hlisted.1) (hname t ht) hlisted.2 howns

/-! ## What an entry of the catalog stands for -/

variable (snapshot : Snapshot) (jobs : List EffectiveJob)

/-- Some job that is in effect has the observation stored. -/
def Stored (obs : Observation) (job : EffectiveJob) : Prop :=
  job ∈ jobs ∧ obs ∈ stored snapshot job ∧ relates obs.data = false

/-- The entry of a resource that is reported has the health of the snapshot, belongs to the
target of a job that reports it, and lasts as long as one of the observations of it. -/
structure Resource.Reported (key : String) (resource : Resource) : Prop where
  id : resource.id = key
  health : resource.health = (snapshot.health[key]?).getD .unknown
  target : ∃ obs job, Stored snapshot jobs obs job ∧ obs.resource = key
    ∧ resource.target = job.target.name
  expiry : ∃ obs job, Stored snapshot jobs obs job ∧ obs.resource = key
    ∧ resource.expiresAt = expiryOf obs (freshnessOf snapshot job)

def AllReported (resources : Table Resource) : Prop :=
  ∀ (key : String) (resource : Resource), resources[key]? = some resource →
    resource.Reported snapshot jobs key

variable {snapshot jobs} {facts : Data → List Fact} {resources : Table Resource}

theorem Resource.Reported.observe {id : String} {resource : Resource}
    (h : resource.Reported snapshot jobs id) {obs : Observation} {job : EffectiveJob}
    (hstored : Stored snapshot jobs obs job) (hid : obs.resource = id) {evidence : Evidence}
    (hexpiry : evidence.expiresAt = expiryOf obs (freshnessOf snapshot job)) :
    (attach (resource.observe job obs evidence) evidence).Reported snapshot jobs id := by
  unfold attach Resource.observe
  split
  · exact ⟨h.id, h.health, h.target, obs, job, hstored, hid, hexpiry⟩
  · exact ⟨h.id, h.health, h.target, h.expiry⟩

theorem AllReported.addObservation (h : AllReported snapshot jobs resources)
    {job : EffectiveJob} {obs : Observation} (hjob : job ∈ jobs)
    (hobs : obs ∈ stored snapshot job) :
    AllReported snapshot jobs (addObservation facts snapshot job resources obs) := by
  intro key resource hlookup
  rw [View.addObservation] at hlookup
  split at hlookup
  · exact h key resource hlookup
  · next hrelates =>
      have hstored : Stored snapshot jobs obs job := ⟨hjob, hobs, by simpa using hrelates⟩
      dsimp only at hlookup
      rw [Std.ExtTreeMap.getElem?_insert] at hlookup
      split at hlookup
      · next heq =>
          have hkey : obs.resource = key := by simpa using heq
          cases hlookup
          apply Resource.Reported.observe _ hstored hkey rfl
          rw [hkey]
          cases hold : resources[key]? with
          | some old => exact h key old hold
          | none =>
              refine ⟨hkey, ?_, ⟨obs, job, hstored, hkey, rfl⟩, obs, job, hstored, hkey, rfl⟩
              rw [← hkey]
              rfl
      · exact h key resource hlookup

theorem addObservation_contains {job : EffectiveJob} {obs : Observation} {id : String} :
    (addObservation facts snapshot job resources obs).contains id = true ↔
      resources.contains id = true ∨ relates obs.data = false ∧ obs.resource = id := by
  rw [addObservation]
  cases hrelates : relates obs.data with
  | true => simp
  | false =>
      simp only [Bool.false_eq_true, if_false, Std.ExtTreeMap.contains_insert, Bool.or_eq_true,
        beq_iff_eq, Std.LawfulEqCmp.compare_eq_iff_eq, true_and]
      exact or_comm

theorem AllReported.addJob (h : AllReported snapshot jobs resources) {job : EffectiveJob}
    (hjob : job ∈ jobs) : AllReported snapshot jobs (addJob facts snapshot resources job) := by
  have hall : ∀ (rest : List Observation) (resources : Table Resource),
      (∀ obs ∈ rest, obs ∈ stored snapshot job) → AllReported snapshot jobs resources →
      AllReported snapshot jobs
        (rest.foldl (View.addObservation facts snapshot job) resources) := by
    intro rest
    induction rest with
    | nil => exact fun resources _ h => h
    | cons obs rest ih =>
        intro resources hstored h
        apply ih _ fun obs hobs => hstored obs (List.mem_cons_of_mem _ hobs)
        exact h.addObservation hjob (hstored obs List.mem_cons_self)
  exact hall _ _ (fun obs hobs => hobs) h

theorem addJob_contains {job : EffectiveJob} {id : String} :
    (addJob facts snapshot resources job).contains id = true ↔
      resources.contains id = true
        ∨ ∃ obs ∈ stored snapshot job, relates obs.data = false ∧ obs.resource = id := by
  unfold addJob
  induction stored snapshot job generalizing resources with
  | nil => simp
  | cons obs rest ih =>
      rw [List.foldl_cons, ih, addObservation_contains, List.exists_mem_cons_iff, or_assoc]

/-- The catalog before the findings are added. -/
theorem AllReported.addJobs (h : AllReported snapshot jobs resources) {rest : List EffectiveJob}
    (hrest : ∀ job ∈ rest, job ∈ jobs) :
    AllReported snapshot jobs (rest.foldl (View.addJob facts snapshot) resources) := by
  induction rest generalizing resources with
  | nil => exact h
  | cons job rest ih =>
      apply ih _ fun job hjob => hrest job (List.mem_cons_of_mem _ hjob)
      exact h.addJob (hrest job List.mem_cons_self)

theorem reported_contains (rest : List EffectiveJob) {id : String} :
    (rest.foldl (addJob facts snapshot) resources).contains id = true ↔
      resources.contains id = true ∨ ∃ job ∈ rest, ∃ obs ∈ stored snapshot job,
        relates obs.data = false ∧ obs.resource = id := by
  induction rest generalizing resources with
  | nil => simp
  | cons job rest ih =>
      rw [List.foldl_cons, ih, addJob_contains, List.exists_mem_cons_iff, or_assoc]

/-- The entries that are there are not touched by the findings. -/
theorem addFinding_of_contains {finding : Finding} {id : String} {resource : Resource}
    (h : resources[id]? = some resource) :
    (addFinding facts jobs resources finding)[id]? = some resource := by
  unfold addFinding
  split
  · exact h
  · split
    · exact h
    · split
      · exact h
      · next hmissing =>
          rw [Std.ExtTreeMap.getElem?_insert]
          split
          · next heq =>
              have hid : finding.resource = id := by simpa using heq
              rw [hid, Std.ExtTreeMap.contains_eq_isSome_getElem?, h] at hmissing
              exact absurd rfl hmissing
          · exact h

/-- Every resource that a job in effect reports is in the catalog. -/
theorem catalog_reported {obs : Observation} {job : EffectiveJob}
    (h : Stored snapshot jobs obs job) :
    ∃ resource, (catalog facts snapshot jobs)[obs.resource]? = some resource
      ∧ resource.Reported snapshot jobs obs.resource := by
  have hcontains : (jobs.foldl (addJob facts snapshot) ∅).contains obs.resource = true :=
    (reported_contains jobs).mpr (.inr ⟨job, h.1, obs, h.2.1, h.2.2, rfl⟩)
  rw [Std.ExtTreeMap.contains_eq_isSome_getElem?] at hcontains
  obtain ⟨resource, hresource⟩ := Option.isSome_iff_exists.mp hcontains
  have hempty : AllReported snapshot jobs ∅ := by
    intro key resource hlookup
    simp at hlookup
  refine ⟨resource, ?_, hempty.addJobs (fun job hjob => hjob) _ _ hresource⟩
  unfold catalog
  dsimp only
  generalize jobs.foldl (addJob facts snapshot) ∅ = resources at hresource
  induction snapshot.findings.toList.map Prod.snd generalizing resources with
  | nil => exact hresource
  | cons finding rest ih => exact ih _ (addFinding_of_contains hresource)

theorem mem_buildResources {effective : Effective} {id : String} {resource : Resource}
    (h : (catalog facts snapshot effective.jobs)[id]? = some resource) :
    resource.sorted ∈ buildResources facts snapshot effective :=
  List.mem_map.mpr ⟨(id, resource), Table.mem_toList.mpr h, rfl⟩

end View

end HealthMonitor.Server
