import HealthMonitor.Core.Expiry
import HealthMonitor.Core.Runs
import HealthMonitor.Core.Scanning

/-!
# HealthSupport

What stands behind a healthy or expected-inactive resource. Health is one table
for all jobs; a pass downgrades the resources its own result reports without
complete coverage, and an expiry those with an outdated observation. Two things
escape both: a result that drops a resource which only it backed, and an
operation that ages out before the observations it owns.
-/

namespace HealthMonitor

open State

variable {host : Host}

/-- The result reports the resource under a complete operation. -/
def CheckResult.Backs (result : CheckResult) (resource : String) : Prop :=
  ∃ obs ∈ result.observations, obs.resource = resource ∧ result.backs obs = true

/-- The operation is complete and owns an observation of the resource. -/
structure CheckResult.Owns (result : CheckResult) (op : Operation) (resource : String) :
    Prop where
  mem : op ∈ result.operations
  complete : op.coverage = .complete
  owned : ∃ obs ∈ result.observations, obs.resource = resource ∧ op.id = obs.operation

/-- The operation is past the limit, or it owns an outdated observation of a
resource with health. -/
def CheckResult.Ages (result : CheckResult) (limit : Nat) (now : Time) (health : Table Health)
    (op : Operation) : Prop :=
  numSeconds now op.observedAt > limit
    ∨ ∃ obs ∈ result.observations, outdated limit now obs = true ∧ obs.resource ∈ health
      ∧ op.id = obs.operation

theorem CheckResult.backs_iff_owns {result : CheckResult} {resource : String} :
    result.Backs resource ↔ ∃ op, result.Owns op resource := by
  constructor
  · rintro ⟨obs, hobs, hr, hback⟩
    obtain ⟨op, hop, hmatch⟩ := List.any_eq_true.mp hback
    rw [Bool.and_eq_true, beq_iff_eq, beq_iff_eq] at hmatch
    exact ⟨op, hop, hmatch.2, obs, hobs, hr, hmatch.1⟩
  · rintro ⟨op, hop, hcomplete, obs, hobs, hr, hid⟩
    refine ⟨obs, hobs, hr, List.any_eq_true.mpr ⟨op, hop, ?_⟩⟩
    rw [hid, hcomplete]
    simp

/-- The resource is reported healthy or expected to be inactive. -/
def Snapshot.Clear (s : Snapshot) (resource : String) : Prop :=
  ∃ health, s.health[resource]? = some health ∧ health.clear = true

/-- Some stored result has a current observation of the resource under a
complete operation. -/
def Snapshot.Supports (s : Snapshot) (now : Time) (resource : String) : Prop :=
  ∃ (key : String) (result : CheckResult) (limit : Nat),
    s.results[key]? = some result ∧ s.freshness[key]? = some limit
      ∧ ∃ obs ∈ result.observations, obs.resource = resource
        ∧ numSeconds now obs.observedAt ≤ limit ∧ result.backs obs = true

/-- Some stored result backs the resource. -/
def Snapshot.Backed (s : Snapshot) (resource : String) : Prop :=
  ∃ (key : String) (result : CheckResult), s.results[key]? = some result
    ∧ result.Backs resource

/-- Every clear resource is backed, and every result has its freshness
limit. -/
structure Snapshot.Sound (s : Snapshot) : Prop where
  backed : ∀ resource, s.Clear resource → s.Backed resource
  limited : ∀ key ∈ s.results, key ∈ s.freshness

theorem new_sound (revision : String) (scope : List String) (clock : Time) :
    (State.new revision scope clock).Sound :=
  ⟨fun r hclear => by
      obtain ⟨h, hr, _⟩ := hclear
      simp [State.new] at hr,
    fun key h => by simp [State.new] at h⟩

/-! ## Expiry -/

/-- The complete operations that own observations of the clear resource are all
due to age out, although no observation of the resource is. -/
structure Snapshot.AgesOut (s : Snapshot) (freshness : Nat) (now : Time)
    (resource : String) : Prop where
  clear : s.Clear resource
  current : ∀ (key : String) (result : CheckResult), s.results[key]? = some result →
    ∀ obs ∈ result.observations, obs.resource = resource →
      outdated (limitAt s freshness key) now obs = false
  owned : ∃ (key : String) (result : CheckResult) (op : Operation),
    s.results[key]? = some result ∧ result.Owns op resource
  aged : ∀ (key : String) (result : CheckResult) (op : Operation),
    s.results[key]? = some result → result.Owns op resource →
      result.Ages (limitAt s freshness key) now s.health op

/-- What a result backs after an expiry, it backed by an operation that was not due. -/
theorem backs_expired {limit : Nat} {now : Time} {health : Table Health} {result : CheckResult}
    {resource : String} {op : Operation} (howns : result.Owns op resource)
    (hages : ¬ result.Ages limit now health op) :
    (expiredResult limit now health result).Backs resource := by
  refine CheckResult.backs_iff_owns.mpr ⟨op, ?_, howns.complete, howns.owned⟩
  have hkeep : (decide (numSeconds now op.observedAt > limit)
      || result.observations.any (spoils limit now health op)) = false := by
    rw [Bool.or_eq_false_iff, decide_eq_false_iff_not, List.any_eq_false]
    refine ⟨fun hlate => hages (.inl hlate), fun obs hobs hspoils => hages (.inr ⟨obs, hobs, ?_⟩)⟩
    simp only [spoils, Bool.and_eq_true, beq_iff_eq] at hspoils
    exact ⟨hspoils.1.1, Std.ExtTreeMap.contains_iff_mem.mp hspoils.1.2, hspoils.2⟩
  rw [expiredResult, expiredOperations, downgrade]
  refine List.mem_map.mpr ⟨op, howns.mem, ?_⟩
  simp only [hkeep, Bool.false_and, Bool.false_eq_true, if_false]

theorem outdatedIn_eq_false {s : Snapshot} {freshness : Nat} {now : Time} {resource : String}
    (h : outdatedIn s freshness now resource = false) {key : String} {result : CheckResult}
    (hresult : s.results[key]? = some result) {obs : Observation}
    (hobs : obs ∈ result.observations) (hr : obs.resource = resource) :
    outdated (limitAt s freshness key) now obs = false := by
  rw [outdatedIn, List.any_eq_false] at h
  have hof := h (key, result) (Table.mem_toList.mpr hresult)
  rw [Bool.not_eq_true, outdatedOf, List.any_eq_false] at hof
  simpa [hr] using hof obs hobs

/-- A resource that stays clear was backed by nothing outdated. -/
theorem clear_of_expire {s : Snapshot} {freshness : Nat} {now : Time} {resource : String}
    (h : (expire s freshness now).1.Clear resource) :
    s.Clear resource ∧ outdatedIn s freshness now resource = false := by
  obtain ⟨health, hr, hclear⟩ := h
  rw [expire_health, Option.map_eq_some_iff] at hr
  obtain ⟨before, hbefore, rfl⟩ := hr
  cases ho : outdatedIn s freshness now resource with
  | true =>
      rw [ho] at hclear
      cases hclear
  | false =>
      rw [ho] at hclear
      exact ⟨⟨before, hbefore, hclear⟩, rfl⟩

theorem expire_supports {s : Snapshot} {freshness : Nat} {now : Time} {resource : String}
    (hlimited : ∀ key ∈ s.results, key ∈ s.freshness)
    (hbacked : s.Clear resource → outdatedIn s freshness now resource = false →
      s.Backed resource)
    (hage : ¬ s.AgesOut freshness now resource)
    (h : (expire s freshness now).1.Clear resource) :
    (expire s freshness now).1.Supports now resource := by
  obtain ⟨hclear, hcurrent⟩ := clear_of_expire h
  have hkept : ∃ (key : String) (result : CheckResult) (op : Operation),
      s.results[key]? = some result ∧ result.Owns op resource
        ∧ ¬ result.Ages (limitAt s freshness key) now s.health op := by
    by_contra hnone
    obtain ⟨key, result, hresult, hback⟩ := hbacked hclear hcurrent
    obtain ⟨op, howns⟩ := CheckResult.backs_iff_owns.mp hback
    refine hage ⟨hclear, fun key result hresult obs hobs hr =>
      outdatedIn_eq_false hcurrent hresult hobs hr, ⟨key, result, op, hresult, howns⟩, ?_⟩
    intro key result op hresult howns
    by_contra hkept
    exact hnone ⟨key, result, op, hresult, howns, hkept⟩
  obtain ⟨key, result, op, hresult, howns, hages⟩ := hkept
  obtain ⟨obs, hobs, hr, hbacks⟩ := backs_expired howns hages
  obtain ⟨limit, hlimit⟩ := Table.mem_iff_getElem?.mp
    (hlimited key (Table.mem_iff_getElem?.mpr ⟨result, hresult⟩))
  refine ⟨key, _, limit, ?_, hlimit, obs, hobs, hr, ?_, hbacks⟩
  · rw [expire_results, hresult, Option.map_some]
  · -- An observation beyond its limit would be outdated.
    have hobsfresh := outdatedIn_eq_false hcurrent hresult hobs hr
    have hlimitAt : limitAt s freshness key = limit := by rw [limitAt, hlimit]; rfl
    rw [hlimitAt] at hobsfresh
    simp only [outdated, Bool.or_eq_false_iff, decide_eq_false_iff_not] at hobsfresh
    exact Int.not_lt.mp hobsfresh.1

theorem sound_of_supports {s : Snapshot} {now : Time}
    (hlimited : ∀ key ∈ s.results, key ∈ s.freshness)
    (h : ∀ resource, s.Clear resource → s.Supports now resource) : s.Sound := by
  refine ⟨fun resource hclear => ?_, hlimited⟩
  obtain ⟨key, result, _, hresult, _, obs, hobs, hr, _, hbacks⟩ := h resource hclear
  exact ⟨key, result, hresult, obs, hobs, hr, hbacks⟩

theorem expire_limited {s : Snapshot} {freshness : Nat} {now : Time}
    (hlimited : ∀ key ∈ s.results, key ∈ s.freshness) :
    ∀ key ∈ (expire s freshness now).1.results, key ∈ (expire s freshness now).1.freshness := by
  intro key hkey
  obtain ⟨result, hresult⟩ := Table.mem_iff_getElem?.mp hkey
  rw [expire_results, Option.map_eq_some_iff] at hresult
  obtain ⟨old, hold, _⟩ := hresult
  exact hlimited key (Table.mem_iff_getElem?.mpr ⟨old, hold⟩)

namespace State

/-! ## The reconciliation -/

section Reconcile

variable {l : List Observation} {resource : String}

/-- A resource is clear after the reconciliation only if all its observations
are under complete operations. -/
theorem reconcile_health {complete : List String} {health : Table Health} {after : Health}
    (h : (l.foldl (Index.downgradeHealth complete) health)[resource]? = some after)
    (hclear : after.clear = true) :
    health[resource]? = some after
      ∧ ∀ obs ∈ l, obs.resource = resource → obs.operation ∈ complete := by
  induction l generalizing health with
  | nil => exact ⟨h, fun obs hobs => by cases hobs⟩
  | cons obs l ih =>
      obtain ⟨hstep, hrest⟩ := ih h
      unfold Index.downgradeHealth at hstep
      by_cases hr : obs.resource = resource
      · split at hstep
        · rw [hr, Std.ExtTreeMap.getElem?_insert_self] at hstep
          cases hstep
          cases hclear
        · rename_i hkeep
          refine ⟨hstep, fun o ho hor => ?_⟩
          rcases List.mem_cons.mp ho with rfl | ho
          · rw [hr, hstep] at hkeep
            simpa [hclear] using hkeep
          · exact hrest o ho hor
      · have hsame : health[resource]? = some after := by
          split at hstep
          · rwa [Table.getElem?_insert_ne (Ne.symm hr)] at hstep
          · exact hstep
        refine ⟨hsame, fun o ho hor => ?_⟩
        rcases List.mem_cons.mp ho with rfl | ho
        · exact absurd hor hr
        · exact hrest o ho hor

end Reconcile

/-! ## A pass -/

namespace Application

variable {a : Application}

/-- The result of the pass, as limited, lacks a clear resource that only the result
it replaces backed, while another stored result still reports it and no
observation of it is outdated. -/
structure Orphans (host : Host) (a : Application) (resource : String) : Prop where
  clear : a.before.Clear resource
  dropped : CheckResult.reports (a.limited host) resource = false
  held : ∃ result, a.before.results[a.job.key]? = some result ∧ result.Backs resource
  only : ∀ (key : String) (result : CheckResult), key ≠ a.job.key →
    a.before.results[key]? = some result → ¬ result.Backs resource
  reported : ∃ (key : String) (result : CheckResult), key ≠ a.job.key
    ∧ a.before.results[key]? = some result ∧ CheckResult.reports result resource = true
  current : ∀ (key : String) (result : CheckResult), key ≠ a.job.key →
    a.before.results[key]? = some result → ∀ obs ∈ result.observations,
      obs.resource = resource →
        outdated (limitAt a.before a.job.settings.freshness key) a.now obs = false

theorem pending_limited (h : ∀ key ∈ a.before.results, key ∈ a.before.freshness) :
    ∀ key ∈ (a.pending host).results, key ∈ (a.pending host).freshness := by
  intro key hkey
  have hfreshness : (a.pending host).freshness
      = a.before.freshness.insert a.job.key a.job.settings.freshness := by
    rw [pending_freshness, prepared, prepare_freshness]
  rw [hfreshness, Std.ExtTreeMap.mem_insert]
  rw [pending_results, results, Std.ExtTreeMap.mem_insert, prepared_same.results] at hkey
  rcases hkey with hkey | hkey
  · exact .inl hkey
  · exact .inr (h key hkey)

/-- A pass replaces the result of its job only. -/
theorem pending_other {key : String} (hne : key ≠ a.job.key) :
    (a.pending host).results[key]? = a.before.results[key]?
      ∧ limitAt (a.pending host) a.job.settings.freshness key
        = limitAt a.before a.job.settings.freshness key := by
  constructor
  · rw [pending_results, results, Table.getElem?_insert_ne hne, prepared_same.results]
  · rw [limitAt, limitAt, pending_freshness, prepared, prepare_freshness,
      Table.getElem?_insert_ne hne]

/-- What is clear before the expiry of a pass is backed or orphaned. -/
theorem pending_backed {resource : String} (hsound : a.before.Sound)
    (hclear : (a.pending host).Clear resource)
    (hcurrent : outdatedIn (a.pending host) a.job.settings.freshness a.now resource = false)
    (horphan : ¬ a.Orphans host resource) : (a.pending host).Backed resource := by
  obtain ⟨health, hhealth, hc⟩ := hclear
  rw [pending_health, Table.getElem?_retain_eq_some] at hhealth
  obtain ⟨hhealth, hobserved⟩ := hhealth
  rw [← pending_results] at hobserved
  have hreconciled : ((a.stored host).observations.foldl
      (Index.downgradeHealth (completeIds (a.stored host).operations))
      (a.scanned host).health)[resource]? = some health := by
    rw [reconciled] at hhealth
    exact hhealth
  obtain ⟨hscanned, hall⟩ := reconcile_health hreconciled hc
  by_cases hreports : CheckResult.reports (a.stored host) resource = true
  · -- The stored result reports it: all its observations are complete.
    rw [CheckResult.reports, List.any_eq_true] at hreports
    obtain ⟨obs, hobs, hr⟩ := hreports
    have hr : obs.resource = resource := by simpa using hr
    refine ⟨a.job.key, a.stored host, ?_, obs, hobs, hr, ?_⟩
    · rw [pending_results, results, Std.ExtTreeMap.getElem?_insert_self]
    · exact CheckResult.backs_iff.mpr (hall obs hobs hr)
  · -- It keeps the health it had, so some result backed it before.
    have hdropped : CheckResult.reports (a.stored host) resource = false := by
      simpa using hreports
    have hother : ∀ obs ∈ (a.limited host).observations, obs.resource ≠ resource := by
      intro obs hobs hr
      refine hreports (List.any_eq_true.mpr ⟨obs, ?_, by simpa using hr⟩)
      rw [stored_observations]
      exact hobs
    rw [scanned_eq, scan_health_other hother, start_health] at hscanned
    have hbefore : a.before.Clear resource := ⟨health, hscanned, hc⟩
    have honly : ∃ (key : String) (result : CheckResult),
        a.before.results[key]? = some result ∧ result.Backs resource ∧ key ≠ a.job.key := by
      by_contra hnone
      have hnot : ∀ (key : String) (result : CheckResult), key ≠ a.job.key →
          a.before.results[key]? = some result → ¬ result.Backs resource :=
        fun key result hne hresult hback => hnone ⟨key, result, hresult, hback, hne⟩
      obtain ⟨key, result, hresult, hback⟩ := hsound.backed resource hbefore
      have hkey : key = a.job.key := by
        by_contra hne
        exact hnot key result hne hresult hback
      obtain ⟨⟨other, report⟩, hmem, hreport⟩ := List.any_eq_true.mp hobserved
      have hother := Table.mem_toList.mp hmem
      have hne : other ≠ a.job.key := by
        rintro rfl
        rw [pending_results, results, Std.ExtTreeMap.getElem?_insert_self,
          Option.some.injEq] at hother
        rw [← hother, hdropped] at hreport
        cases hreport
      refine horphan ⟨hbefore, hdropped, ⟨result, hkey ▸ hresult, hback⟩, hnot,
        ⟨other, report, hne, (pending_other hne).1 ▸ hother, hreport⟩, ?_⟩
      intro key result hne hresult obs hobs hr
      rw [← (@pending_other host a key hne).2]
      exact outdatedIn_eq_false hcurrent ((pending_other hne).1.trans hresult) hobs hr
    obtain ⟨key, result, hresult, hback, hne⟩ := honly
    exact ⟨key, result, (pending_other hne).1.trans hresult, hback⟩

end Application

end State

/-! ## Runs -/

/-- The instant of an entry. -/
def Entry.now : Entry → Time
  | applied a => a.now
  | expired _ _ now => now

/-- The entry drops a clear resource from the one result that backed it, or its
expiry takes the operations of one before its observations. -/
def Entry.Undermines (host : Host) : Entry → Prop
  | applied a => ∃ resource, a.Orphans host resource
      ∨ (a.pending host).AgesOut a.job.settings.freshness a.now resource
  | expired before freshness now => ∃ resource, before.AgesOut freshness now resource

/-- What is clear has support at the instant. -/
def Snapshot.Supported (s : Snapshot) (now : Time) : Prop :=
  ∀ resource, s.Clear resource → s.Supports now resource

/-- An entry that leaves nothing without support keeps the state sound. -/
theorem Entry.supported {e : Entry} (hs : e.before.Sound) (h : ¬ e.Undermines host) :
    (e.after host).Sound ∧ (e.after host).Supported e.now := by
  cases e with
  | applied a =>
      have hlimited := @State.Application.pending_limited host a hs.limited
      have hsupported : (a.after host).Supported a.now := by
        intro resource hclear
        rw [State.Application.after_eq] at hclear ⊢
        refine expire_supports hlimited (fun hclear hcurrent => ?_)
          (fun hage => h ⟨resource, .inr hage⟩) hclear
        exact State.Application.pending_backed hs hclear hcurrent
          fun horphan => h ⟨resource, .inl horphan⟩
      refine ⟨sound_of_supports ?_ hsupported, hsupported⟩
      show ∀ key ∈ (a.after host).results, key ∈ (a.after host).freshness
      rw [State.Application.after_eq]
      exact expire_limited hlimited
  | expired before freshness now =>
      have hsupported : (State.expire before freshness now).1.Supported now := by
        intro resource hclear
        exact expire_supports hs.limited (fun hclear _ => hs.backed resource hclear)
          (fun hage => h ⟨resource, hage⟩) hclear
      exact ⟨sound_of_supports (expire_limited hs.limited) hsupported, hsupported⟩

/-- A pass without an entry touches neither health nor results. -/
theorem pass_sound (s : Snapshot) (action : Action) (hs : s.Sound)
    (h : ∀ e ∈ ((passes host).step s action).2, ¬ e.Undermines host) :
    ((passes host).step s action).1.Sound
    ∧ ∀ e ∈ ((passes host).step s action).2, (e.after host).Supported e.now := by
  cases action with
  | collect job result now clock =>
      obtain ⟨hsound, hsupported⟩ := Entry.supported
        (e := .applied { before := s, job, result, now, clock }) hs (h _ (by simp [passes]))
      exact ⟨hsound, fun e he => List.mem_singleton.mp he ▸ hsupported⟩
  | evaluateFlows job now clock =>
      obtain ⟨progress, he, _, _⟩ := Flows.evaluate_snapshot s job now clock
      simp only [passes, he]
      exact ⟨⟨hs.backed, hs.limited⟩, fun e he => by cases he⟩
  | restoreSamples key samples =>
      exact ⟨⟨hs.backed, hs.limited⟩, fun e he => by cases he⟩
  | expire freshness now =>
      obtain ⟨hsound, hsupported⟩ := Entry.supported
        (e := .expired s freshness now) hs (h _ (by simp [passes]))
      exact ⟨hsound, fun e he => List.mem_singleton.mp he ▸ hsupported⟩

theorem journal_supported {s : Snapshot} {steps : List Step} (hs : s.Sound)
    (h : ∀ e ∈ journal host s steps, ¬ e.Undermines host) :
    ∀ e ∈ journal host s steps, (e.after host).Supported e.now := by
  have htracks : (passes host).Tracks (fun _ => True) fun log t =>
      (∀ e ∈ log, ¬ e.Undermines host) →
        t.Sound ∧ ∀ e ∈ log, (e.after host).Supported e.now := by
    intro log t action _ ih hall
    obtain ⟨ht, hlog⟩ := ih fun e he => hall e (List.mem_append_left _ he)
    obtain ⟨hsound, hnew⟩ := pass_sound t action ht
      fun e he => hall e (List.mem_append_right _ he)
    refine ⟨hsound, fun e he => ?_⟩
    rcases List.mem_append.mp he with he | he
    · exact hlog e he
    · exact hnew e he
  exact (htracks.run_start s (actions host s steps) (fun _ _ => trivial)
    (fun _ => ⟨hs, fun e he => by cases he⟩) h).2

/-- The instant of an apply or an expiry. -/
def Step.instant : Step → Option Time
  | .apply _ _ now _ => some now
  | .expire _ now => some now
  | .refreshReleases _ _ _ => none

/-- An apply or an expiry leaves the health, the results and the limits of its
last pass. -/
theorem last_entry (s : Snapshot) (step : Step) {now : Time} (h : step.instant = some now) :
    ∃ e ∈ journal host s [step], e.now = now
      ∧ ((monitor host).step s step).1.health = (e.after host).health
      ∧ ((monitor host).step s step).1.results = (e.after host).results
      ∧ ((monitor host).step s step).1.freshness = (e.after host).freshness := by
  have hjournal : journal host s [step] = ((passes host).run s (step.actions host s)).2 := by
    simp [journal, actions, Process.expand]
  rw [perform_eq, hjournal]
  cases step with
  | refreshReleases => cases h
  | expire freshness at' =>
      cases h
      refine ⟨.expired s freshness now, ?_, rfl, ?_, ?_, ?_⟩ <;>
        simp [Step.actions, passes, Entry.after]
  | apply job result at' clock =>
      cases h
      simp only [Step.actions, applyActions]
      split
      · refine ⟨.applied
          { before := (Flows.evaluate (collect host s job result now clock).1 (flowJob job)
              now clock).1
            job := flowJob job
            result := (Flows.evaluate (collect host s job result now clock).1 (flowJob job)
              now clock).2
            now, clock }, ?_, rfl, rfl, rfl, rfl⟩
        simp [passes, Process.run_cons, collect]
      · refine ⟨.applied { before := s, job, result, now, clock }, ?_, rfl, ?_, ?_, ?_⟩ <;>
          simp [passes, Entry.after]

/-- As long as no pass drops the last complete evidence of a clear resource that
another result still reports, and no expiry takes the operations of a clear
resource before its observations, every apply and every expiry leaves only
clear resources that a current observation under a complete operation
supports. -/
theorem clear_supported (host : Host) (revision : String) (scope : List String)
    (clock : Time) (steps : List Step)
    (h : ∀ e ∈ journal host (State.new revision scope clock) steps, ¬ e.Undermines host) :
    (∀ e ∈ journal host (State.new revision scope clock) steps, (e.after host).Supported e.now)
    ∧ ∀ before step after now, steps = before ++ step :: after → step.instant = some now →
        ((monitor host).run (State.new revision scope clock)
          (before ++ [step])).1.Supported now := by
  have hentries := journal_supported (new_sound revision scope clock) h
  refine ⟨hentries, fun before step after now hsteps hnow => ?_⟩
  obtain ⟨e, he, hinstant, hhealth, hresults, hfreshness⟩ := @last_entry host
    ((monitor host).run (State.new revision scope clock) before).1 step now hnow
  have hmem : e ∈ journal host (State.new revision scope clock) steps := by
    rw [hsteps, List.append_cons, journal_append, journal_append]
    exact List.mem_append_left _ (List.mem_append_right _ he)
  rw [Process.run_append, Process.run_singleton]
  intro resource hclear
  unfold Snapshot.Clear at hclear
  rw [hhealth] at hclear
  have hsupports := hentries e hmem resource hclear
  unfold Snapshot.Supports at hsupports ⊢
  rw [hresults, hfreshness, ← hinstant]
  exact hsupports

/-- The managed services report a resource without complete coverage, the
inventory reports it completely, and then no more. -/
def orphaningSteps : List Step :=
  [.apply (Sample.job .managed)
      (Sample.result .managed 0 [Sample.operation "services" 0 .unavailable]
        [Sample.condition "app/web" "services" 0 true]) 0 0,
    Sample.sighting .inventory "app/web" "list" (Sample.sec 1) true,
    .apply (Sample.job .inventory)
      (Sample.result .inventory (Sample.sec 2) [Sample.operation "list" (Sample.sec 2)] [])
      (Sample.sec 2) (Sample.sec 2)]

/-- The inventory reports an operation that is older than what it found. -/
def skewedSteps : List Step :=
  [.apply (Sample.job .inventory)
      (Sample.result .inventory 0 [Sample.operation "list" 0]
        [Sample.condition "app/web" "list" (Sample.sec 300) true])
      (Sample.sec 300) (Sample.sec 300),
    .expire 690 (Sample.sec 700)]

theorem not_supported {s : Snapshot} {now : Time} {resource : String}
    (hhealth : s.health[resource]? = some .healthy)
    (h : ∀ e ∈ s.results.toList, ∀ obs ∈ e.2.observations, obs.resource = resource →
      e.2.backs obs = false) : ¬ s.Supported now := by
  intro hsupported
  obtain ⟨key, result, _, hresult, _, obs, hobs, hr, _, hbacks⟩ :=
    hsupported resource ⟨_, hhealth, rfl⟩
  rw [h (key, result) (Table.mem_toList.mpr hresult) obs hobs hr] at hbacks
  cases hbacks

/-- A resource stays healthy on another job's incomplete leftover, and on an
operation that has become stale. -/
theorem healthy_without_support :
    ¬ ((monitor Sample.machine).run Sample.start orphaningSteps).1.Supported (Sample.sec 2)
    ∧ ¬ ((monitor Sample.machine).run Sample.start skewedSteps).1.Supported
        (Sample.sec 700) := by
  constructor
  · exact @not_supported _ _ "app/web" (by decide +kernel) (by decide +kernel)
  · exact @not_supported _ _ "app/web" (by decide +kernel) (by decide +kernel)

/-- Nothing in the state is due to age out. -/
def timely (s : Snapshot) (freshness : Nat) (now : Time) : Bool :=
  s.results.toList.all fun e =>
    e.2.operations.all (fun op =>
        decide (numSeconds now op.observedAt ≤ limitAt s freshness e.1))
      && e.2.observations.all fun obs => !outdated (limitAt s freshness e.1) now obs

theorem not_agesOut {s : Snapshot} {freshness : Nat} {now : Time} {resource : String}
    (h : timely s freshness now = true) : ¬ s.AgesOut freshness now resource := by
  intro hages
  obtain ⟨key, result, op, hresult, howns⟩ := hages.owned
  have hboth := List.all_eq_true.mp h (key, result) (Table.mem_toList.mpr hresult)
  rw [Bool.and_eq_true, List.all_eq_true, List.all_eq_true] at hboth
  rcases hages.aged key result op hresult howns with hlate | ⟨obs, hobs, hout, _⟩
  · have hle := decide_eq_true_iff.mp (hboth.1 op howns.mem)
    exact absurd hlate (Int.not_lt.mpr hle)
  · have hcurrent := hboth.2 obs hobs
    rw [hout] at hcurrent
    cases hcurrent

/-- The only job of the run, and nothing is due to age out. -/
def settledEntry (host : Host) : Entry → Bool
  | .applied a => a.before.results.toList.all (·.1 == a.job.key)
      && timely (a.pending host) a.job.settings.freshness a.now
  | .expired s freshness now => timely s freshness now

theorem not_undermines {e : Entry} (h : settledEntry host e = true) : ¬ e.Undermines host := by
  cases e with
  | applied a =>
      rw [settledEntry, Bool.and_eq_true, List.all_eq_true] at h
      rintro ⟨resource, horphans | hages⟩
      · obtain ⟨key, result, hne, hresult, _⟩ := horphans.reported
        exact hne (beq_iff_eq.mp (h.1 (key, result) (Table.mem_toList.mpr hresult)))
      · exact not_agesOut h.2 hages
  | expired s freshness now =>
      rintro ⟨resource, hages⟩
      exact not_agesOut h hages

/-- The inventory reports two resources, then one of them, and time goes by. -/
def shrinkingSteps : List Step :=
  [.apply (Sample.job .inventory)
      (Sample.result .inventory 0 [Sample.operation "list" 0]
        [Sample.condition "app/api" "list" 0 true, Sample.condition "app/web" "list" 0 true])
      0 0,
    Sample.sighting .inventory "app/api" "list" (Sample.sec 60) true,
    .expire 690 (Sample.sec 120)]

/-- The resource that is still reported is healthy and has support. -/
theorem clear_supported_single :
    let run := (monitor Sample.machine).run Sample.start shrinkingSteps
    run.1.Supported (Sample.sec 120)
    ∧ run.1.health.toList = [("app/api", .healthy)] := by
  have hsettled : ∀ e ∈ journal Sample.machine Sample.start shrinkingSteps,
      settledEntry Sample.machine e = true := by
    decide +kernel
  refine ⟨?_, by decide +kernel⟩
  exact (clear_supported Sample.machine "" ["app"] 0 shrinkingSteps
    fun e he => not_undermines (hsettled e he)).2 (shrinkingSteps.take 2) _ [] (Sample.sec 120)
      rfl rfl

end HealthMonitor
