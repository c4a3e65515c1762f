import HealthMonitor.Core.Lifecycle
import HealthMonitor.Core.Runs

/-!
# Isolation

What a pass for one target can do to another. The tables of the snapshot are
shared by all targets, and every loop of a pass walks over all of them; the
resources of two targets differ in their root, and a pass whose evidence stays
under the root of its target leaves the rest of the tables to expiry and
trimming.
-/

namespace HealthMonitor

open State

variable {host : Host}

/-! ## Ownership -/

/-- The text lies under the root of the target. -/
def Target.Owns (t : Target) (text : String) : Prop :=
  Text.startsWith text t.root = true

instance (t : Target) : DecidablePred t.Owns := fun text =>
  inferInstanceAs (Decidable (Text.startsWith text t.root = true))

theorem Target.owns_unique {t u : Target} {text : String} (h : t.Owns text)
    (h' : u.Owns text) : t.name = u.name :=
  Text.startsWith_unique t.slash_notMem_name u.slash_notMem_name h h'

theorem Target.owns_congr {t u : Target} (h : t.name = u.name) {text : String} :
    t.Owns text ↔ u.Owns text := by
  unfold Target.Owns Target.root
  rw [h]

theorem Target.Owns.append {t : Target} {text : String} (h : t.Owns text) (more : String) :
    t.Owns (text ++ more) :=
  Text.startsWith_append_of_startsWith more h

theorem Job.owns_key (job : Job) : job.target.Owns job.key :=
  Text.startsWith_append _ _

theorem Job.owns_confirmation (job : Job) (id : String) :
    job.target.Owns (confirmationKey job id) := by
  unfold confirmationKey
  exact (job.owns_key.append "|").append id

/-! ## Tables that name what they hold -/

theorem observed_iff {results : Table CheckResult} {resource : String} :
    observed results resource = true
      ↔ ∃ (key : String) (result : CheckResult), results[key]? = some result
        ∧ ∃ obs ∈ result.observations, obs.resource = resource := by
  simp only [observed, CheckResult.reports, List.any_eq_true, beq_iff_eq]
  constructor
  · rintro ⟨e, he, h⟩
    exact ⟨e.1, e.2, Table.mem_toList.mp he, h⟩
  · rintro ⟨key, result, hr, h⟩
    exact ⟨(key, result), Table.mem_toList.mpr hr, h⟩

theorem outdatedIn_iff {s : Snapshot} {freshness : Nat} {now : Time} {resource : String} :
    outdatedIn s freshness now resource = true
      ↔ ∃ (key : String) (result : CheckResult), s.results[key]? = some result
        ∧ outdatedOf (limitAt s freshness key) now result resource = true := by
  simp only [outdatedIn, List.any_eq_true]
  constructor
  · rintro ⟨e, he, h⟩
    exact ⟨e.1, e.2, Table.mem_toList.mp he, h⟩
  · rintro ⟨key, result, hr, h⟩
    exact ⟨(key, result), Table.mem_toList.mpr hr, h⟩

theorem outdatedOf_iff {limit : Nat} {now : Time} {result : CheckResult} {resource : String} :
    outdatedOf limit now result resource = true
      ↔ ∃ obs ∈ result.observations, obs.resource = resource
        ∧ outdated limit now obs = true := by
  simp only [outdatedOf, List.any_eq_true, Bool.and_eq_true, beq_iff_eq]

/-- The evidence stored for the target lies under its root, every health and
pressure entry has evidence, and findings are stored under their resource and
rule. -/
structure Snapshot.Proper (s : Snapshot) (t : Target) : Prop where
  rooted : ∀ (key : String) (result : CheckResult), s.results[key]? = some result →
    t.Owns key → ∀ obs ∈ result.observations, t.Owns obs.resource
  health : ∀ resource ∈ s.health, observed s.results resource = true
  pressure : ∀ resource ∈ s.pressure, observed s.results resource = true
  keyed : ∀ (id : String) (f : Finding), s.findings[id]? = some f →
    id = f.resource ++ "/" ++ f.rule

theorem Snapshot.Proper.of_name {s : Snapshot} {t u : Target} (h : s.Proper t)
    (hname : t.name = u.name) : s.Proper u where
  rooted key result hr hkey obs hobs :=
    (Target.owns_congr hname).mp
      (h.rooted key result hr ((Target.owns_congr hname).mpr hkey) obs hobs)
  health := h.health
  pressure := h.pressure
  keyed := h.keyed

theorem new_proper (revision : String) (scope : List String) (clock : Time) (t : Target) :
    (State.new revision scope clock).Proper t :=
  ⟨fun _ _ h => by simp [State.new] at h, fun _ h => by simp [State.new] at h,
    fun _ h => by simp [State.new] at h, fun _ _ h => by simp [State.new] at h⟩

/-- Another target's resource has its evidence under another key. -/
theorem Snapshot.Proper.elsewhere {s : Snapshot} {t : Target} {job : Job}
    (hs : s.Proper job.target)
    (hne : t.name ≠ job.target.name) {resource : String} (h : t.Owns resource)
    (hin : observed s.results resource = true) :
    ∃ (key : String) (result : CheckResult), key ≠ job.key ∧ s.results[key]? = some result
      ∧ ∃ obs ∈ result.observations, obs.resource = resource := by
  obtain ⟨key, result, hr, obs, hobs, hres⟩ := observed_iff.mp hin
  refine ⟨key, result, fun hk => ?_, hr, obs, hobs, hres⟩
  subst hk
  have := hs.rooted _ result hr job.owns_key obs hobs
  rw [hres] at this
  exact hne (Target.owns_unique h this)

/-! ## What may happen to another target -/

/-- A finding is as before, or has become stale because its time was up. -/
def Ages (now : Time) (f g : Finding) : Prop :=
  g = f ∨ (∃ freshness, aged freshness now f = true) ∧ g = { f with stale := true }

/-- A health is as before, or unknown because of outdated evidence. -/
def Fades (outdated : Prop) (h k : Health) : Prop := k = h ∨ outdated ∧ k = .unknown

/-- The time of an operation is up, or that of an observation it made. -/
def Overdue (limit : Nat) (now : Time) (result : CheckResult) (op : Operation) : Prop :=
  limit < numSeconds now op.observedAt
    ∨ ∃ obs ∈ result.observations, obs.operation = op.id ∧ outdated limit now obs = true

/-- An operation is as before, or a complete one that has become stale. -/
def Dates (late : Operation → Prop) (op op' : Operation) : Prop :=
  op' = op ∨ op.coverage = .complete ∧ late op ∧ op' = { op with coverage := .stale }

/-- A result is as before, up to complete operations that have become stale. -/
def Wanes (late : Operation → Prop) (r q : CheckResult) : Prop :=
  q = { r with operations := q.operations }
    ∧ List.Forall₂ (Dates late) r.operations q.operations

/-- The operation's time is up by the limit of the key it is stored under. -/
def Late (s : Snapshot) (now : Time) (key : String) (result : CheckResult)
    (op : Operation) : Prop :=
  ∃ freshness, Overdue (limitAt s freshness key) now result op

section Relations

variable {now : Time}

theorem Ages.trans {f g k : Finding} (h : Ages now f g) (h' : Ages now g k) :
    Ages now f k := by
  rcases h with rfl | ⟨hf, rfl⟩
  · exact h'
  · rcases h' with rfl | ⟨_, rfl⟩
    · exact .inr ⟨hf, rfl⟩
    · exact .inr ⟨hf, rfl⟩

theorem Fades.trans {p : Prop} {h k l : Health} (a : Fades p h k) (b : Fades p k l) :
    Fades p h l := by
  rcases b with rfl | ⟨hp, rfl⟩
  · exact a
  · exact .inr ⟨hp, rfl⟩

theorem Dates.trans {late : Operation → Prop} {a b c : Operation} (h : Dates late a b)
    (h' : Dates late b c) : Dates late a c := by
  rcases h' with rfl | ⟨hc, hlate, rfl⟩
  · exact h
  · rcases h with rfl | ⟨_, _, rfl⟩
    · exact .inr ⟨hc, hlate, rfl⟩
    · cases hc

theorem forall₂_trans {α : Type} {r : α → α → Prop} (h : ∀ a b c, r a b → r b c → r a c)
    {xs ys zs : List α} (hxy : List.Forall₂ r xs ys) (hyz : List.Forall₂ r ys zs) :
    List.Forall₂ r xs zs := by
  induction hxy generalizing zs with
  | nil => exact hyz
  | cons hab _ ih =>
      cases hyz with
      | cons hbc hrest => exact .cons (h _ _ _ hab hbc) (ih hrest)

theorem Wanes.refl (late : Operation → Prop) (r : CheckResult) : Wanes late r r :=
  ⟨rfl, List.forall₂_same.mpr fun _ _ => .inl rfl⟩

theorem Wanes.trans {late : Operation → Prop} {r q p : CheckResult} (h : Wanes late r q)
    (h' : Wanes late q p) : Wanes late r p :=
  ⟨by rw [h'.1, h.1], forall₂_trans (r := Dates late) (fun _ _ _ => Dates.trans) h.2 h'.2⟩

/-- What is late of a result is late of the result it comes from. -/
theorem Wanes.late_of {s s' : Snapshot} {key : String} {r q p : CheckResult}
    (hfresh : s'.freshness[key]? = s.freshness[key]?)
    (hrq : q = { r with operations := q.operations }) (h : Wanes (Late s' now key q) q p) :
    Wanes (Late s now key r) q p := by
  refine ⟨h.1, h.2.imp fun op op' hd => ?_⟩
  rcases hd with rfl | ⟨hc, ⟨freshness, hlate⟩, rfl⟩
  · exact .inl rfl
  · refine .inr ⟨hc, ⟨freshness, ?_⟩, rfl⟩
    have hlimit : limitAt s' freshness key = limitAt s freshness key := by
      unfold limitAt
      rw [hfresh]
    rw [hlimit] at hlate
    rw [hrq] at hlate
    exact hlate

theorem rel_refl {α : Type} {r : α → α → Prop} (h : ∀ a, r a a) (o : Option α) :
    Option.Rel r o o := by
  cases o with
  | none => exact .none
  | some a => exact .some (h a)

theorem rel_trans {α : Type} {r : α → α → Prop} (h : ∀ a b c, r a b → r b c → r a c)
    {o p q : Option α} (hop : Option.Rel r o p) (hpq : Option.Rel r p q) :
    Option.Rel r o q := by
  cases hop with
  | none => exact hpq
  | some hab =>
      cases hpq with
      | some hbc => exact .some (h _ _ _ hab hbc)

end Relations

/-- Nothing of the target changes but by expiry and by trimming, and what is
emitted about it is `Stale`. A removal counter is left alone unless its key ends
like the id of a finding that ended. -/
structure Isolated (t : Target) (now : Time) (s s' : Snapshot) (log : List Transition) :
    Prop where
  findings : ∀ id, t.Owns id → Option.Rel (Ages now) s.findings[id]? s'.findings[id]?
  health : ∀ resource, t.Owns resource →
    Option.Rel (Fades (∃ freshness, outdatedIn s freshness now resource = true))
      s.health[resource]? s'.health[resource]?
  pressure : ∀ resource, t.Owns resource → s'.pressure[resource]? = s.pressure[resource]?
  progress : ∀ key, t.Owns key → s'.progress[key]? = s.progress[key]?
  freshness : ∀ key, t.Owns key → s'.freshness[key]? = s.freshness[key]?
  results : ∀ key, t.Owns key →
    Option.Rel (fun r q => Wanes (Late s now key r) r q) s.results[key]? s'.results[key]?
  evidence : ∀ resource freshness, t.Owns resource →
    outdatedIn s' freshness now resource = outdatedIn s freshness now resource
  retired : ∀ id, t.Owns id → s'.retired[id]? = s.retired[id]?
    ∨ s'.retired[id]? = none ∧ ∃ (table : Table Transition) (limit : Nat),
        table[id]? = s.retired[id]? ∧ id ∈ trimmed table limit
  confirmations : ∀ key, t.Owns key →
    (∀ u ∈ log, u.kind = .recovered ∨ u.kind = .removed →
      Text.endsWith key ("|" ++ u.finding) = false) →
    s'.confirmations[key]? = s.confirmations[key]?
  transitions : ∀ u ∈ log, t.Owns u.finding → u.kind = .stale

theorem Isolated.trans {t : Target} {now : Time} {a b c : Snapshot}
    {log log' : List Transition} (h : Isolated t now a b log) (h' : Isolated t now b c log') :
    Isolated t now a c (log ++ log') where
  findings id hid := rel_trans (r := Ages now) (fun _ _ _ => Ages.trans)
    (h.findings id hid) (h'.findings id hid)
  health r hr := by
    have hb := h'.health r hr
    simp only [fun freshness => h.evidence r freshness hr] at hb
    exact rel_trans (r := Fades _) (fun _ _ _ => Fades.trans) (h.health r hr) hb
  pressure r hr := (h'.pressure r hr).trans (h.pressure r hr)
  progress k hk := (h'.progress k hk).trans (h.progress k hk)
  freshness k hk := (h'.freshness k hk).trans (h.freshness k hk)
  results k hk := by
    have ha := h.results k hk
    have hb := h'.results k hk
    revert ha hb
    generalize a.results[k]? = ra
    generalize b.results[k]? = rb
    generalize c.results[k]? = rc
    rintro (hrq | _)
    · rintro (hqp | _)
      exact .some (hrq.trans (hqp.late_of (h.freshness k hk) hrq.1))
    · rintro (_ | _)
      exact .none
  evidence r freshness hr := (h'.evidence r freshness hr).trans (h.evidence r freshness hr)
  retired id hid := by
    rcases h'.retired id hid with he | ⟨hnone, table, limit, htable, hmem⟩
    · rw [he]
      exact h.retired id hid
    · rcases h.retired id hid with he | ⟨_, htrim⟩
      · exact .inr ⟨hnone, table, limit, htable.trans he, hmem⟩
      · exact .inr ⟨hnone, htrim⟩
  confirmations key hk hlog :=
    (h'.confirmations key hk fun u hu => hlog u (List.mem_append_right _ hu)).trans
      (h.confirmations key hk fun u hu => hlog u (List.mem_append_left _ hu))
  transitions u hu ht := by
    rcases List.mem_append.mp hu with hu | hu
    · exact h.transitions u hu ht
    · exact h'.transitions u hu ht

theorem outdatedIn_congr {s s' : Snapshot} (hresults : s'.results = s.results)
    (hfreshness : s'.freshness = s.freshness) (freshness : Nat) (now : Time)
    (resource : String) :
    outdatedIn s' freshness now resource = outdatedIn s freshness now resource := by
  unfold outdatedIn limitAt
  rw [hresults, hfreshness]

/-- A change of nothing but the progress of other targets isolates. -/
theorem Isolated.of_same {t : Target} {now : Time} {s s' : Snapshot} (h : SameTables s' s)
    (hfreshness : s'.freshness = s.freshness)
    (hprogress : ∀ key, t.Owns key → s'.progress[key]? = s.progress[key]?) :
    Isolated t now s s' [] where
  findings _ _ := by
    rw [h.findings]
    exact rel_refl (fun _ => .inl rfl) _
  health _ _ := by
    rw [h.health]
    exact rel_refl (fun _ => .inl rfl) _
  pressure _ _ := by rw [h.pressure]
  progress := hprogress
  freshness _ _ := by rw [hfreshness]
  results _ _ := by
    rw [h.results]
    exact rel_refl (fun r => Wanes.refl _ r) _
  evidence r freshness _ := outdatedIn_congr h.results hfreshness freshness now r
  retired _ _ := .inl (by rw [h.retired])
  confirmations _ _ _ := by rw [h.confirmations]
  transitions u hu := by cases hu

/-! ## Expiry -/

theorem expiredResult_wanes (s : Snapshot) (freshness : Nat) (now : Time) (key : String)
    (result : CheckResult) :
    Wanes (Late s now key result) result
      (expiredResult (limitAt s freshness key) now s.health result) := by
  refine ⟨rfl, ?_⟩
  unfold expiredResult expiredOperations downgrade
  rw [List.forall₂_map_right_iff]
  refine List.forall₂_same.mpr fun op _ => ?_
  split
  · rename_i h
    simp only [Bool.and_eq_true, beq_iff_eq, Bool.or_eq_true, decide_eq_true_eq,
      List.any_eq_true] at h
    refine .inr ⟨h.2, ⟨freshness, ?_⟩, rfl⟩
    rcases h.1 with htime | ⟨obs, hobs, hspoils⟩
    · exact .inl htime
    · simp only [spoils, Bool.and_eq_true, beq_iff_eq] at hspoils
      exact .inr ⟨obs, hobs, hspoils.2.symm, hspoils.1.1⟩
  · exact .inl rfl

theorem rel_map {α : Type} {r : α → α → Prop} {f : α → α} (h : ∀ a, r a (f a))
    (o : Option α) : Option.Rel r o (o.map f) := by
  cases o with
  | none => exact .none
  | some a => exact .some (h a)

theorem expire_evidence (s : Snapshot) (freshness limit : Nat) (now : Time)
    (resource : String) :
    outdatedIn (expire s freshness now).1 limit now resource
      = outdatedIn s limit now resource := by
  have hlimit : ∀ key, limitAt (expire s freshness now).1 limit key = limitAt s limit key := by
    intro key
    rfl
  rw [Bool.eq_iff_iff, outdatedIn_iff, outdatedIn_iff]
  constructor
  · rintro ⟨key, result, hr, h⟩
    rw [expire_results] at hr
    obtain ⟨old, hold, rfl⟩ := Option.map_eq_some_iff.mp hr
    exact ⟨key, old, hold, h⟩
  · rintro ⟨key, result, hr, h⟩
    refine ⟨key, expiredResult (limitAt s freshness key) now s.health result, ?_, h⟩
    rw [expire_results, hr, Option.map_some]

theorem expire_isolated (t : Target) (s : Snapshot) (freshness : Nat) (now : Time) :
    Isolated t now s (expire s freshness now).1 (expire s freshness now).2 where
  findings id _ := by
    rw [expire_findings]
    refine rel_map (fun f => ?_) _
    unfold age
    split
    · rename_i h
      exact .inr ⟨⟨freshness, h⟩, rfl⟩
    · exact .inl rfl
  health r _ := by
    rw [expire_health]
    refine rel_map (fun h => ?_) _
    split
    · rename_i ho
      exact .inr ⟨⟨freshness, ho⟩, rfl⟩
    · exact .inl rfl
  pressure _ _ := rfl
  progress _ _ := rfl
  freshness _ _ := rfl
  results key _ := by
    rw [expire_results]
    exact rel_map (fun result => expiredResult_wanes s freshness now key result) _
  evidence r limit _ := expire_evidence s freshness limit now r
  retired _ _ := .inl rfl
  confirmations _ _ _ := rfl
  transitions u hu _ := by
    obtain ⟨e, _, rfl⟩ := List.mem_map.mp hu
    rfl

theorem expire_observed (s : Snapshot) (freshness : Nat) (now : Time) (resource : String) :
    observed (expire s freshness now).1.results resource = observed s.results resource := by
  rw [Bool.eq_iff_iff, observed_iff, observed_iff]
  constructor
  · rintro ⟨key, result, hr, h⟩
    rw [expire_results] at hr
    obtain ⟨old, hold, rfl⟩ := Option.map_eq_some_iff.mp hr
    exact ⟨key, old, hold, h⟩
  · rintro ⟨key, result, hr, h⟩
    refine ⟨key, expiredResult (limitAt s freshness key) now s.health result, ?_, h⟩
    rw [expire_results, hr, Option.map_some]

theorem expire_proper {s : Snapshot} {t : Target} (hs : s.Proper t) (freshness : Nat)
    (now : Time) : (expire s freshness now).1.Proper t where
  rooted key result hr := by
    rw [expire_results] at hr
    obtain ⟨old, hold, rfl⟩ := Option.map_eq_some_iff.mp hr
    exact hs.rooted key old hold
  health r hr := by
    rw [expire_observed]
    refine hs.health r ?_
    obtain ⟨h, hh⟩ := Table.mem_iff_getElem?.mp hr
    rw [expire_health, Option.map_eq_some_iff] at hh
    obtain ⟨old, hold, _⟩ := hh
    exact Table.mem_iff_getElem?.mpr ⟨old, hold⟩
  pressure r hr := by
    rw [expire_observed]
    exact hs.pressure r hr
  keyed id f hf := by
    rw [expire_findings] at hf
    obtain ⟨g, hg, rfl⟩ := Option.map_eq_some_iff.mp hf
    have := hs.keyed id g hg
    unfold age
    split
    · exact this
    · exact this

namespace State

/-! ## The reconciliation -/

theorem reconcile_health_other {complete : List String} {l : List Observation}
    {resource : String} (h : ∀ obs ∈ l, obs.resource ≠ resource) (health : Table Health) :
    (l.foldl (Index.downgradeHealth complete) health)[resource]? = health[resource]? := by
  induction l generalizing health with
  | nil => rfl
  | cons obs l ih =>
      rw [List.foldl_cons, ih fun o ho => h o (by simp [ho])]
      unfold Index.downgradeHealth
      split
      · rw [Table.getElem?_insert_ne (Ne.symm (h obs (by simp)))]
      · rfl

namespace Application

variable {a : Application}

/-! ## A pass under the root of its target -/

/-- The evidence of a pass lies under the root of its target. -/
theorem stored_owned (hs : a.before.Proper a.job.target)
    (h : ∀ obs ∈ a.result.observations, a.job.target.Owns obs.resource) :
    ∀ obs ∈ (a.stored host).observations, a.job.target.Owns obs.resource := by
  intro obs hobs
  cases stored_origin hobs with
  | given old hold same => exact same.resource ▸ h old hold
  | kept previous hp old hold same =>
      exact same.resource ▸ hs.rooted _ previous hp a.job.owns_key old hold
  | log hcheck key finding hf hc same =>
      rw [LogRecovery.concerns, Bool.and_eq_true] at hc
      exact same ▸ hc.2
  | stage hcheck hstage =>
      obtain ⟨flow, _, stage, _, he⟩ := hstage
      rw [he]
      exact Flows.stageKey_root _ _ _
  | image image hr hroot hfrom =>
      rw [hr]
      exact Target.Owns.append hroot _

section Frame

variable (hs : a.before.Proper a.job.target)
  (h : ∀ obs ∈ a.result.observations, a.job.target.Owns obs.resource)

include hs h

/-- The pass sees no resource outside the root of its target. -/
theorem limited_foreign {resource : String} (ht : ¬ a.job.target.Owns resource) :
    ∀ obs ∈ (a.limited host).observations, obs.resource ≠ resource := by
  intro obs hobs he
  rw [← stored_observations] at hobs
  exact ht (he ▸ stored_owned hs h obs hobs)

/-- The pass detects no id outside the root of its target. -/
theorem current_foreign {id : String} (ht : ¬ a.job.target.Owns id) :
    id ∉ (a.scanned host).current := by
  intro hid
  rw [scanned_eq] at hid
  obtain ⟨obs, hobs, rule, rfl⟩ := @scan_current host a.job a.now (a.start host)
    (a.limited host).observations rfl id hid
  rw [← stored_observations] at hobs
  exact ht (((stored_owned hs h obs hobs).append "/").append rule)

/-- The index has no clearing evidence outside the root. -/
theorem clearFor_foreign {finding : Finding} (ht : ¬ a.job.target.Owns finding.resource) :
    (a.reconciled host).1.clearFor finding = none := by
  have hclear : (a.reconciled host).1.clear[finding.resource]? = none := by
    cases hc : (a.reconciled host).1.clear[finding.resource]? with
    | none => rfl
    | some evidence =>
        rw [reconciled] at hc
        have hc := (Table.getElem?_retain_eq_some.mp hc).1
        rw [scanned_eq] at hc
        obtain ⟨_, obs, _, hl, hr, _⟩ := ((@scan_index host a.job a.now (a.start host)
          (a.limited host).observations rfl).clear _ evidence.1 evidence.2 hc).evidence
        have hobs : obs ∈ (a.limited host).observations := by
          rw [hl]
          simp
        exact absurd hr (limited_foreign hs h ht obs hobs)
  rw [Index.clearFor, hclear]
  rfl

/-- The pass settles nothing about a finding outside the root. -/
theorem settle_foreign {id : String} {finding : Finding}
    (hid : id = finding.resource ++ "/" ++ finding.rule) (ht : ¬ a.job.target.Owns id)
    (c : Option RemovalConfirmation) :
    (settleFinding (a.settling host) id finding c).value = finding
      ∧ (settleFinding (a.settling host) id finding c).report = [] := by
  have hres : ¬ a.job.target.Owns finding.resource := by
    intro hown
    rw [hid] at ht
    exact ht ((hown.append "/").append finding.rule)
  have hremovable : ∀ b, removable (a.settling host) finding b = false := by
    intro b
    have hroot : Text.startsWith finding.resource a.job.target.root = false := by
      simpa [Target.Owns] using hres
    simp [removable, hroot]
  have hsettles := settles (a.settling host) id finding c
  generalize settleFinding (a.settling host) id finding c = visit at hsettles ⊢
  cases hsettles with
  | detected hin => exact absurd hin (current_foreign hs h ht)
  | cleared _ time hclear =>
      rw [settling_index, clearFor_foreign hs h hres] at hclear
      cases hclear
  | absent _ _ hrem =>
      rw [hremovable] at hrem
      cases hrem
  | unknown => exact ⟨rfl, rfl⟩

/-- Nothing outside the root is reported as ended. -/
theorem reports_foreign {id : String} (ht : ¬ a.job.target.Owns id) :
    id ∉ (a.settled host).reports.map Prod.fst := by
  intro hid
  obtain ⟨⟨k, kind⟩, hr, rfl⟩ := List.mem_map.mp hid
  rw [settled] at hr
  obtain ⟨f, hf, hr⟩ := mem_settle_reports.mp hr
  have hbefore : a.before.findings[k]? = some f := by
    rw [(scanned_stores.untouched (current_foreign hs h ht)).1, start_findings] at hf
    exact hf
  rw [(settle_foreign hs h (hs.keyed k f hbefore) ht _).2] at hr
  cases hr

/-- The pass leaves the findings outside the root. -/
theorem findings_foreign {id : String} (ht : ¬ a.job.target.Owns id) :
    (a.retirement host).findings[id]? = a.before.findings[id]? := by
  have hscanned : (a.scanned host).findings[id]? = a.before.findings[id]? := by
    rw [(scanned_stores.untouched (current_foreign hs h ht)).1, start_findings]
  have hreports := @reports_foreign host a hs h id ht
  rw [retirement, retire_findings, if_neg hreports, settled, settle_entries, hscanned]
  cases hf : a.before.findings[id]? with
  | none => rfl
  | some f => rw [Option.map_some, (settle_foreign hs h (hs.keyed id f hf) ht _).1]

end Frame

section Foreign

variable {t : Target} (hs : a.before.Proper a.job.target)
  (h : ∀ obs ∈ a.result.observations, a.job.target.Owns obs.resource)
  (hne : t.name ≠ a.job.target.name)

include hne in
theorem not_owns {text : String} (ht : t.Owns text) : ¬ a.job.target.Owns text :=
  fun hown => hne (Target.owns_unique ht hown)

include hs hne in
/-- Evidence of another target outlives the stored result. -/
theorem observed_foreign {resource : String} (ht : t.Owns resource)
    (hin : observed a.before.results resource = true) :
    observed (a.results host) resource = true := by
  obtain ⟨key, result, hkey, hr, hobs⟩ := hs.elsewhere hne ht hin
  refine observed_iff.mpr ⟨key, result, ?_, hobs⟩
  rw [results, Table.getElem?_insert_ne hkey, prepared_same.results]
  exact hr

include hs h hne in
theorem pending_health_foreign {resource : String} (ht : t.Owns resource) :
    (a.pending host).health[resource]? = a.before.health[resource]? := by
  have hother := @limited_foreign host a hs h resource (not_owns hne ht)
  have hsame : (a.reconciled host).2[resource]? = a.before.health[resource]? := by
    rw [reconciled, ← @start_health host a, ← scan_health_other hother, ← scanned_eq]
    exact reconcile_health_other (by rw [stored_observations]; exact hother) _
  rw [pending_health, Table.getElem?_retain, hsame]
  cases hb : a.before.health[resource]? with
  | none => rfl
  | some health =>
      have hin := @observed_foreign host a t hs hne resource ht
        (hs.health resource (Table.mem_iff_getElem?.mpr ⟨_, hb⟩))
      rw [Option.filter_some, if_pos hin]

include hs h hne in
theorem pending_pressure_foreign {resource : String} (ht : t.Owns resource) :
    (a.pending host).pressure[resource]? = a.before.pressure[resource]? := by
  have hother := @limited_foreign host a hs h resource (not_owns hne ht)
  rw [pending_pressure, Table.getElem?_retain, scanned_eq, scan_pressure_other hother,
    start_pressure]
  cases hb : a.before.pressure[resource]? with
  | none => rfl
  | some pressure =>
      have hin := @observed_foreign host a t hs hne resource ht
        (hs.pressure resource (Table.mem_iff_getElem?.mpr ⟨_, hb⟩))
      rw [Option.filter_some, if_pos hin]

include hne in
theorem pending_progress_foreign {key : String} (ht : t.Owns key) :
    (a.pending host).progress[key]? = a.before.progress[key]? := by
  rw [pending_progress, prepared]
  refine prepare_progress.1 key fun hstage => not_owns hne ht ?_
  obtain ⟨_, flow, _, stage, _, he⟩ := hstage
  rw [he]
  exact Flows.stageKey_root _ _ _

include hne in
theorem pending_results_foreign {key : String} (ht : t.Owns key) :
    (a.pending host).results[key]? = a.before.results[key]? := by
  have hkey : key ≠ a.job.key := fun he => not_owns hne ht (he ▸ a.job.owns_key)
  rw [pending_results, results, Table.getElem?_insert_ne hkey, prepared_same.results]

include hs h hne in
theorem pending_retired_foreign {id : String} (ht : t.Owns id) :
    (a.pending host).retired[id]? = a.before.retired[id]?
      ∨ (a.pending host).retired[id]? = none ∧ ∃ (table : Table Transition) (limit : Nat),
          table[id]? = a.before.retired[id]? ∧ id ∈ trimmed table limit := by
  have hreports := @reports_foreign host a hs h id (not_owns hne ht)
  have hrev : (a.settled host).reports.findRev? (·.1 == id) = none := by
    rw [List.findRev?_eq_find?_reverse, List.find?_eq_none]
    intro e he hid
    exact hreports (List.mem_map.mpr ⟨e, List.mem_reverse.mp he, by simpa using hid⟩)
  have hsame : (a.retirement host).retired[id]? = a.before.retired[id]? := by
    rw [retirement, retire_retired, hrev,
      (scanned_stores.untouched (current_foreign hs h (not_owns hne ht))).2, start_retired]
    rfl
  rw [pending_retired, trimRetired_getElem?]
  split
  · rename_i hmem
    exact .inr ⟨rfl, _, _, hsame, hmem⟩
  · exact .inl hsame

include hne in
theorem pending_freshness_foreign {key : String} (ht : t.Owns key) :
    (a.pending host).freshness[key]? = a.before.freshness[key]? := by
  have hkey : a.job.key ≠ key := fun he => not_owns hne ht (he ▸ a.job.owns_key)
  rw [pending_freshness, prepared, prepare_freshness, Std.ExtTreeMap.getElem?_insert]
  simp [hkey]

include hs h hne in
/-- The pass replaces no evidence of another target's resources. -/
theorem pending_evidence_foreign {resource : String} (freshness : Nat) (ht : t.Owns resource) :
    outdatedIn (a.pending host) freshness a.now resource
      = outdatedIn a.before freshness a.now resource := by
  have hlimit : ∀ key, key ≠ a.job.key →
      limitAt (a.pending host) freshness key = limitAt a.before freshness key := by
    intro key hkey
    unfold limitAt
    rw [pending_freshness, prepared, prepare_freshness,
      Table.getElem?_insert_ne hkey]
  rw [Bool.eq_iff_iff, outdatedIn_iff, outdatedIn_iff]
  constructor
  · rintro ⟨key, result, hr, hout⟩
    rw [pending_results, results, Std.ExtTreeMap.getElem?_insert] at hr
    split at hr
    · cases hr
      obtain ⟨obs, hobs, hres, _⟩ := outdatedOf_iff.mp hout
      rw [stored_observations] at hobs
      exact absurd hres (limited_foreign hs h (not_owns hne ht) obs hobs)
    · rename_i hkey
      have hkey : key ≠ a.job.key := fun he => hkey (by simp [he])
      rw [prepared_same.results] at hr
      rw [hlimit key hkey] at hout
      exact ⟨key, result, hr, hout⟩
  · rintro ⟨key, result, hr, hout⟩
    have hkey : key ≠ a.job.key := by
      rintro rfl
      obtain ⟨obs, hobs, hres, _⟩ := outdatedOf_iff.mp hout
      have hown := hs.rooted _ result hr a.job.owns_key obs hobs
      exact not_owns hne ht (hres ▸ hown)
    refine ⟨key, result, ?_, ?_⟩
    · rw [pending_results, results, Table.getElem?_insert_ne hkey, prepared_same.results]
      exact hr
    · rw [hlimit key hkey]
      exact hout

/-- A report is a recovery or a removal. -/
theorem reports_kind {id : String} {kind : TransitionKind}
    (hr : (id, kind) ∈ (a.settled host).reports) : kind = .recovered ∨ kind = .removed := by
  rw [settled] at hr
  obtain ⟨f, _, hr⟩ := mem_settle_reports.mp hr
  have hreport := settleFinding_report (a.settling host) id f
    (a.prepared host).1.confirmations[confirmationKey (a.settling host).job id]?
  rcases hreport with he | he | he
  · rw [he] at hr
    cases hr
  · rw [he, List.mem_singleton] at hr
    exact .inl (congrArg Prod.snd hr)
  · rw [he, List.mem_singleton] at hr
    exact .inr (congrArg Prod.snd hr)

include hne in
theorem pending_confirmations_foreign {key : String} (ht : t.Owns key)
    (hsuffix : ∀ (id : String) (kind : TransitionKind), (id, kind) ∈ (a.settled host).reports →
      Text.endsWith key ("|" ++ id) = false) :
    (a.pending host).confirmations[key]? = a.before.confirmations[key]? := by
  have hkey : ∀ id, key ≠ confirmationKey (a.settling host).job id := by
    intro id he
    rw [settling_job] at he
    exact not_owns hne ht (he ▸ a.job.owns_confirmation id)
  rw [pending_confirmations, retirement, retire_confirmations, if_neg]
  · rw [settled, settle_slot_other hkey, prepared_same.confirmations]
  · rw [List.any_eq_true]
    rintro ⟨⟨id, kind⟩, hr, hends⟩
    rw [hsuffix id kind hr] at hends
    cases hends

include hs h hne in
/-- Before its expiry a pass changes nothing of another target but by
trimming. -/
theorem pending_isolated :
    Isolated t a.now a.before (a.pending host)
      ((a.scanned host).transitions
        ++ (a.settled host).reports.map fun (finding, kind) =>
            { time := a.now, finding, kind }) where
  findings id ht := by
    rw [pending_findings, findings_foreign hs h (not_owns hne ht)]
    exact rel_refl (fun _ => .inl rfl) _
  health resource ht := by
    rw [pending_health_foreign hs h hne ht]
    exact rel_refl (fun _ => .inl rfl) _
  pressure _ ht := pending_pressure_foreign hs h hne ht
  progress _ ht := pending_progress_foreign hne ht
  results key ht := by
    rw [pending_results_foreign hne ht]
    exact rel_refl (fun r => Wanes.refl _ r) _
  freshness _ ht := pending_freshness_foreign hne ht
  evidence _ freshness ht := pending_evidence_foreign hs h hne freshness ht
  retired _ ht := pending_retired_foreign hs h hne ht
  confirmations key ht hlog := by
    refine pending_confirmations_foreign hne ht fun id kind hr => ?_
    exact hlog { time := a.now, finding := id, kind }
      (List.mem_append_right _ (List.mem_map.mpr ⟨(id, kind), hr, rfl⟩)) (reports_kind hr)
  transitions u hu ht := by
    rcases List.mem_append.mp hu with hu | hu
    · have hid : u.finding ∈ (a.scanned host).current := by
        rw [scanned_eq] at hu ⊢
        exact scan_transitions rfl u hu
      exact absurd hid (current_foreign hs h (not_owns hne ht))
    · obtain ⟨e, he, rfl⟩ := List.mem_map.mp hu
      exact absurd (List.mem_map.mpr ⟨e, he, rfl⟩)
        (@reports_foreign host a hs h e.1 (not_owns hne ht))

include hs h hne in
/-- A pass under the root of its target isolates every other target. -/
theorem after_isolated : Isolated t a.now a.before (a.after host) (a.transitions host) := by
  have hexpired := expire_isolated t (a.pending host) a.job.settings.freshness a.now
  rw [← after_eq] at hexpired
  exact (pending_isolated hs h hne).trans hexpired

end Foreign

/-! ## Runs under the roots of their targets -/

theorem pending_keyed {t : Target} (hs : a.before.Proper t) (id : String) (f : Finding)
    (hf : (a.pending host).findings[id]? = some f) : id = f.resource ++ "/" ++ f.rule := by
  rw [pending_findings, retirement, retire_findings] at hf
  split at hf
  · cases hf
  · rw [settled, settle_entries, scanned_stores.lookup, start_findings] at hf
    obtain ⟨g, hg, rfl⟩ := Option.map_eq_some_iff.mp hf
    have hsame := settleFinding_same (a.settling host) id g
      (a.prepared host).1.confirmations[confirmationKey (a.settling host).job id]?
    rw [hsame.resource, hsame.rule]
    rcases Option.or_eq_some_iff.mp hg with hg | ⟨_, hg⟩
    · obtain ⟨hmem, hid⟩ := mem_of_findRev? hg
      obtain ⟨obs, _, hd⟩ := detections_detected _ _ g hmem
      rw [← beq_iff_eq.mp hid, hd.resource]
      exact hd.id
    · exact hs.keyed id g hg

/-- A pass keeps the evidence of a target under its root when the result it is
given does, or is another target's. -/
theorem pending_proper {t : Target} (hs : a.before.Proper t)
    (h : a.job.target.name = t.name → ∀ obs ∈ a.result.observations, t.Owns obs.resource) :
    (a.pending host).Proper t where
  rooted key result hr ht obs hobs := by
    rw [pending_results, results, Std.ExtTreeMap.getElem?_insert] at hr
    split at hr
    · rename_i hkey
      have hkey : a.job.key = key := by simpa using hkey
      have hname := Target.owns_unique a.job.owns_key (hkey ▸ ht)
      cases hr
      refine (Target.owns_congr hname).mp ?_
      exact stored_owned (hs.of_name hname.symm)
        (fun o ho => (Target.owns_congr hname).mpr (h hname o ho)) obs hobs
    · rw [prepared_same.results] at hr
      exact hs.rooted key result hr ht obs hobs
  health resource hin := by
    rw [pending_health] at hin
    rw [pending_results]
    obtain ⟨v, hv⟩ := Table.mem_iff_getElem?.mp hin
    exact (Table.getElem?_retain_eq_some.mp hv).2
  pressure resource hin := by
    rw [pending_pressure] at hin
    rw [pending_results]
    obtain ⟨v, hv⟩ := Table.mem_iff_getElem?.mp hin
    exact (Table.getElem?_retain_eq_some.mp hv).2
  keyed := pending_keyed hs

theorem after_proper {t : Target} (hs : a.before.Proper t)
    (h : a.job.target.name = t.name → ∀ obs ∈ a.result.observations, t.Owns obs.resource) :
    (a.after host).Proper t := by
  rw [after_eq]
  exact expire_proper (pending_proper hs h) _ _

end Application

theorem restoreSamples_proper {s : Snapshot} {t : Target} (hs : s.Proper t) (key : String)
    (samples : Option Nat) : (restoreSamples s key samples).Proper t :=
  ⟨hs.rooted, hs.health, hs.pressure, hs.keyed⟩

theorem restoreSamples_isolated (t : Target) (now : Time) (s : Snapshot) (key : String)
    (samples : Option Nat) : Isolated t now s (restoreSamples s key samples) [] :=
  Isolated.of_same ⟨rfl, rfl, rfl, rfl, rfl, rfl⟩ rfl fun _ _ => rfl

section Apply

variable {s : Snapshot} {t : Target} {job : Job} {result : CheckResult} {now clock : Time}

theorem collect_proper (hs : s.Proper t)
    (h : job.target.name = t.name → ∀ obs ∈ result.observations, t.Owns obs.resource) :
    (collect host s job result now clock).1.Proper t :=
  Application.after_proper (a := { before := s, job, result, now, clock }) hs h

theorem collect_isolated (hs : s.Proper job.target)
    (h : ∀ obs ∈ result.observations, job.target.Owns obs.resource)
    (hne : t.name ≠ job.target.name) :
    Isolated t now s (collect host s job result now clock).1
      (collect host s job result now clock).2 :=
  @Application.after_isolated host { before := s, job, result, now, clock } t hs h hne

theorem evaluate_owned (s : Snapshot) (job : Job) (now clock : Time) :
    ∀ obs ∈ (Flows.evaluate s job now clock).2.observations,
      job.target.Owns obs.resource := by
  intro obs hobs
  obtain ⟨flow, _, _, stage, _, hr⟩ := Flows.evaluate_resources obs hobs
  rw [hr]
  exact Flows.stageKey_root _ _ _

theorem evaluate_proper (hs : s.Proper t) :
    (Flows.evaluate s job now clock).1.Proper t := by
  obtain ⟨progress, he, _, _⟩ := Flows.evaluate_snapshot s job now clock
  rw [he]
  exact ⟨hs.rooted, hs.health, hs.pressure, hs.keyed⟩

theorem evaluate_isolated (hne : t.name ≠ job.target.name) :
    Isolated t now s (Flows.evaluate s job now clock).1 [] := by
  obtain ⟨progress, he, hframe, _⟩ := Flows.evaluate_snapshot s job now clock
  rw [he]
  refine Isolated.of_same ⟨rfl, rfl, rfl, rfl, rfl, rfl⟩ rfl fun key ht => hframe key ?_
  rintro ⟨flow, _, stage, _, rfl⟩
  exact hne (Target.owns_unique ht (Flows.stageKey_root _ _ _))

theorem apply_proper (hs : s.Proper t)
    (h : job.target.name = t.name → ∀ obs ∈ result.observations, t.Owns obs.resource) :
    (State.apply host s job result now clock).1.Proper t := by
  have hcollect := @collect_proper host s t job result now clock hs h
  unfold State.apply
  dsimp only
  split
  · refine restoreSamples_proper (collect_proper (evaluate_proper hcollect) fun hname => ?_) _ _
    intro obs hobs
    exact (Target.owns_congr hname).mp (evaluate_owned _ (flowJob job) now clock obs hobs)
  · exact hcollect

theorem apply_isolated (hs : s.Proper job.target)
    (h : ∀ obs ∈ result.observations, job.target.Owns obs.resource)
    (hne : t.name ≠ job.target.name) :
    Isolated t now s (State.apply host s job result now clock).1
      (State.apply host s job result now clock).2 := by
  have hproper := @collect_proper host s job.target job result now clock hs fun _ => h
  have hcollect := @collect_isolated host s t job result now clock hs h hne
  unfold State.apply
  dsimp only
  split
  · -- the nested application is another pass for the same target
    have hevaluated : Isolated t now _ _ [] := @evaluate_isolated
      (collect host s job result now clock).1 t (flowJob job) now clock hne
    have hflow := @collect_isolated host _ t (flowJob job)
      (Flows.evaluate (collect host s job result now clock).1 (flowJob job) now clock).2
      now clock (@evaluate_proper _ job.target (flowJob job) now clock hproper)
      (evaluate_owned _ (flowJob job) now clock) hne
    have hpass := (hcollect.trans hevaluated).trans hflow
    rw [List.append_nil] at hpass
    have hall := hpass.trans (restoreSamples_isolated t now _ (flowJob job).key
      (Flows.evaluate (collect host s job result now clock).1 (flowJob job) now
        clock).1.samples[(flowJob job).key]?)
    rw [List.append_nil] at hall
    exact hall
  · exact hcollect

end Apply

end State

/-! ## Target isolation -/

/-- The step gives a job of the target evidence under its root only. -/
def Step.Rooted (t : Target) : Step → Prop
  | apply job result _ _ =>
      job.target.name = t.name → ∀ obs ∈ result.observations, t.Owns obs.resource
  | expire _ _ => True
  | refreshReleases _ _ _ => True

theorem monitor_proper (t : Target) :
    (monitor host).Preserves (Step.Rooted t) fun s => s.Proper t := by
  intro s step hstep hs
  cases step with
  | apply job result now clock => exact apply_proper hs hstep
  | expire freshness now => exact expire_proper hs _ _
  | refreshReleases jobs now clock =>
      refine List.foldlRecOn (motive := fun out : Snapshot × List Transition =>
        out.1.Proper t) _ _ hs ?_
      intro out hout job _
      unfold refreshStep
      split
      · exact hout
      · rename_i result hr
        -- the result applied again is the one stored under the job's key
        refine restoreSamples_proper (apply_proper hout fun hname => ?_) _ _
        exact hout.rooted job.key result hr
          ((Target.owns_congr hname).mp job.owns_key)

/-- **Target isolation.** A run gives the jobs of a target evidence under its
root only; one more application of such a job then leaves every other target to
expiry and trimming. -/
theorem apply_isolates (revision : String) (scope : List String) (began : Time)
    (steps : List Step) (job : Job) (result : CheckResult) (now clock : Time)
    (hsteps : ∀ step ∈ steps, step.Rooted job.target)
    (h : ∀ obs ∈ result.observations, job.target.Owns obs.resource) (t : Target)
    (hne : t.name ≠ job.target.name) :
    Isolated t now ((monitor host).run (State.new revision scope began) steps).1
      (State.apply host ((monitor host).run (State.new revision scope began) steps).1 job
        result now clock).1
      (State.apply host ((monitor host).run (State.new revision scope began) steps).1 job
        result now clock).2 :=
  apply_isolated ((monitor_proper job.target).run hsteps (new_proper revision scope began _))
    h hne

namespace Sample

/-- A second target, and what its inventory reports. -/
def database : Target where
  name := "db"
  valid := by decide
  provider := .kubernetes
  scope := "prod"

def stocktake (time : Time) (observations : List Observation) : Step :=
  .apply { job .inventory with target := database }
    { result .inventory time [operation "list" time] observations with target := "db" }
    time time

/-- The inventory of the database lost a queue once, and the first of two clearing
observations of a workload has arrived. -/
def waning (queue : String) : List Step :=
  [stocktake (sec 1) [condition queue "list" (sec 1) false], stocktake (sec 2) [],
    sighting .kubernetes "app/web" "pods" (sec 1) false,
    sighting .kubernetes "app/web" "pods" (sec 2) true]

/-- The second clearing observation. -/
def clearing : CheckResult :=
  result .kubernetes (sec 3) [operation "pods" (sec 3)]
    [condition "app/web" "pods" (sec 3) true]

/-- An inventory that reports a resource of the database. -/
def straying : List Step := [sighting .inventory "db/disk" "list" (sec 1) true]

end Sample

open Sample in
/-- Evidence stored for a target outside its root is dropped with its health by
the next result; and the recovery of one target's finding drops the removal
counter of another's whose key ends the same way. -/
theorem apply_interferes :
    (((monitor machine).run start straying).1.health["db/disk"]? = some .healthy
      ∧ (State.apply machine ((monitor machine).run start straying).1 (job .inventory)
          (result .inventory (sec 2) [operation "list" (sec 2)] []) (sec 2)
          (sec 2)).1.health["db/disk"]? = none)
    ∧ ((monitor machine).run start (waning "db/queue|app/web")).1.confirmations[
          "db/Inventory|db/queue|app/web/ready"]? = some { count := 1, lastAt := sec 2 }
      ∧ (State.apply machine ((monitor machine).run start (waning "db/queue|app/web")).1
          (job .kubernetes) clearing (sec 3) (sec 3)).1.confirmations[
            "db/Inventory|db/queue|app/web/ready"]? = none := by
  decide +kernel

open Sample in
/-- The removal counter of a plainly named queue outlives the recovery. -/
theorem apply_isolates_database :
    Isolated database (sec 3) ((monitor machine).run start (waning "db/queue")).1
      (State.apply machine ((monitor machine).run start (waning "db/queue")).1
        (job .kubernetes) clearing (sec 3) (sec 3)).1
      (State.apply machine ((monitor machine).run start (waning "db/queue")).1
        (job .kubernetes) clearing (sec 3) (sec 3)).2 := by
  have hroot : target.Owns "app/web" := by decide
  refine apply_isolates "" ["app"] 0 (waning "db/queue") (job .kubernetes) clearing (sec 3)
    (sec 3) ?_ ?_ database (by decide)
  · intro step hstep
    simp only [waning, List.mem_cons, List.not_mem_nil, or_false] at hstep
    rcases hstep with rfl | rfl | rfl | rfl
    · exact fun hname => absurd hname (by decide)
    · exact fun hname => absurd hname (by decide)
    · exact fun _ obs hobs => (List.mem_singleton.mp hobs) ▸ hroot
    · exact fun _ obs hobs => (List.mem_singleton.mp hobs) ▸ hroot
  · exact fun obs hobs => (List.mem_singleton.mp hobs) ▸ hroot

end HealthMonitor
