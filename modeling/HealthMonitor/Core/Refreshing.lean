import HealthMonitor.Core.Crediting
import HealthMonitor.Core.Rollout

/-!
# Refreshing

A refresh applies the stored result of a release job once more. One that finds the
evidence as the last one found it leaves the result as it was.
-/

namespace HealthMonitor

/-- A pass at an instant that stores no result under the key. -/
def Action.Spares (key : String) (now : Time) : Action → Prop
  | .collect job _ time _ => job.key ≠ key ∧ time = now
  | .expire _ time => time = now
  | .evaluateFlows _ _ _ => True
  | .restoreSamples _ _ => True

namespace State

variable {host : Host} {job : Job} {now : Time} {scan : Scan} {l : List Observation}
  {resource : String}

/-! ## Health entries stay -/

theorem scan_health_mem (h : resource ∈ scan.health) :
    resource ∈ (l.foldl (scanObservation host job now) scan).health := by
  refine scan_rule (P := fun s => resource ∈ s.health) ?_ ?_ h
  · intro s obs _ ih
    rw [note_health]
    split
    · exact Std.ExtTreeMap.mem_insert.mpr (.inr ih)
    · exact ih
  · intro s obs _ prior rule severity confidence ih
    rw [detect_health]
    exact ih

/-- What is assessed has a health. -/
theorem scan_health_assessed {obs : Observation} (hobs : obs ∈ l) (h : assessed job obs = true)
    (hevidence : obs.data.isHealthEvidence = true) :
    obs.resource ∈ (l.foldl (scanObservation host job now) scan).health := by
  obtain ⟨before, after, rfl⟩ := List.append_of_mem hobs
  rw [List.foldl_append, List.foldl_cons]
  refine scan_health_mem ?_
  have hnote : ∀ scan, obs.resource ∈ (note host job now scan obs).health := by
    intro scan
    rw [note_health, if_pos (by rw [h, hevidence]; rfl)]
    exact Std.ExtTreeMap.mem_insert_self
  rcases scanObservation_cases host job now (before.foldl (scanObservation host job now) scan) obs
    with ⟨_, _, he⟩ | ⟨_, _, _, _, he⟩
  · rw [he]
    exact hnote _
  · rw [he, detect_health]
    exact hnote _

/-- A pass that assesses nothing gives no resource a health. -/
theorem scan_health_unassessed (h : job.assessHealth = false) :
    (l.foldl (scanObservation host job now) scan).health = scan.health := by
  refine scan_rule (P := fun s => s.health = scan.health) ?_ ?_ rfl
  · intro s obs _ ih
    rw [note_health, assessed, h, Bool.false_and, Bool.false_and, if_neg Bool.false_ne_true]
    exact ih
  · intro s obs _ prior rule severity confidence ih
    rw [detect_health]
    exact ih

theorem downgradeHealth_mem {complete : List String} {health : Table Health} :
    resource ∈ l.foldl (Index.downgradeHealth complete) health ↔ resource ∈ health := by
  refine List.foldlRecOn (motive := fun after => resource ∈ after ↔ resource ∈ health) l _
    Iff.rfl ?_
  intro after ih obs _
  unfold Index.downgradeHealth
  split
  · rename_i hclear
    rw [Std.ExtTreeMap.mem_insert, ih]
    refine or_iff_right_of_imp fun he => ?_
    have hsame : obs.resource = resource := by simpa using he
    rw [Bool.and_eq_true, Option.any_eq_true] at hclear
    obtain ⟨-, known, hknown, -⟩ := hclear
    exact ih.mp (Table.mem_iff_getElem?.mpr ⟨known, hsame ▸ hknown⟩)
  · exact ih

theorem expire_health_mem {snapshot : Snapshot} {freshness : Nat} :
    resource ∈ (expire snapshot freshness now).1.health ↔ resource ∈ snapshot.health := by
  rw [Table.mem_iff_getElem?, Table.mem_iff_getElem?, expire_health]
  constructor
  · rintro ⟨health, h⟩
    obtain ⟨before, hbefore, _⟩ := Option.map_eq_some_iff.mp h
    exact ⟨before, hbefore⟩
  · rintro ⟨health, h⟩
    exact ⟨_, by rw [h]; rfl⟩

/-! ## One result at two expiries -/

theorem downgrade_congr {p q : Operation → Bool} {coverage : Coverage} {ops : List Operation}
    (h : ∀ op ∈ ops, op.coverage = .complete → p op = q op) :
    downgrade p coverage ops = downgrade q coverage ops := by
  unfold downgrade
  refine List.map_congr_left fun op hop => ?_
  by_cases hcomplete : op.coverage = .complete
  · rw [h op hop hcomplete]
  · have hno : (op.coverage == .complete) = false := by simpa using hcomplete
    rw [hno, Bool.and_false, Bool.and_false]

/-- Expiry depends on which resources of outdated observations have a health. -/
theorem expiredResult_congr {limit : Nat} {result : CheckResult} {health health' : Table Health}
    (h : ∀ op ∈ result.operations, op.coverage = .complete → ∀ obs ∈ result.observations,
      obs.operation = op.id → outdated limit now obs = true →
      (obs.resource ∈ health ↔ obs.resource ∈ health')) :
    expiredResult limit now health result = expiredResult limit now health' result := by
  have hspoils : ∀ op ∈ result.operations, op.coverage = .complete →
      result.observations.any (spoils limit now health op)
        = result.observations.any (spoils limit now health' op) := by
    intro op hop hcomplete
    rw [Bool.eq_iff_iff, List.any_eq_true, List.any_eq_true]
    refine exists_congr fun obs => and_congr_right fun hobs => ?_
    simp only [spoils, Bool.and_eq_true, Std.ExtTreeMap.contains_iff_mem, beq_iff_eq]
    constructor
    · rintro ⟨⟨hold, hmem⟩, hid⟩
      exact ⟨⟨hold, (h op hop hcomplete obs hobs hid.symm hold).mp hmem⟩, hid⟩
    · rintro ⟨⟨hold, hmem⟩, hid⟩
      exact ⟨⟨hold, (h op hop hcomplete obs hobs hid.symm hold).mpr hmem⟩, hid⟩
  rw [expiredResult, expiredResult, expiredOperations, expiredOperations,
    downgrade_congr fun op hop hcomplete => by rw [hspoils op hop hcomplete]]

/-- A later expiry that knows more resources takes the first one in. -/
theorem expiredResult_twice {limit : Nat} {result : CheckResult} {health health' : Table Health}
    (h : ∀ obs ∈ result.observations, obs.resource ∈ health → obs.resource ∈ health') :
    expiredResult limit now health' (expiredResult limit now health result)
      = expiredResult limit now health' result := by
  have hspoils : ∀ op, result.observations.any (spoils limit now health op) = true →
      result.observations.any (spoils limit now health' op) = true := by
    intro op hany
    obtain ⟨obs, hobs, hspoils⟩ := List.any_eq_true.mp hany
    refine List.any_eq_true.mpr ⟨obs, hobs, ?_⟩
    simp only [spoils, Bool.and_eq_true, Std.ExtTreeMap.contains_iff_mem] at hspoils ⊢
    exact ⟨⟨hspoils.1.1, h obs hobs hspoils.1.2⟩, hspoils.2⟩
  have hoperations : expiredOperations limit now health' (expiredResult limit now health result)
      = expiredOperations limit now health' result := by
    show downgrade _ _ (downgrade _ _ result.operations) = _
    rw [downgrade_downgrade (by decide), expiredOperations]
    refine downgrade_congr fun op _ _ => ?_
    have hor := hspoils op
    show ((_ || result.observations.any (spoils limit now health op))
      || (_ || result.observations.any (spoils limit now health' op))) = _
    cases hany : result.observations.any (spoils limit now health op) with
    | true => rw [hor hany, Bool.or_true, Bool.or_true]
    | false => rw [Bool.or_false, ← Bool.or_assoc, Bool.or_self]
  rw [expiredResult, hoperations]
  rfl

theorem downgrade_append (p : Operation → Bool) (coverage : Coverage) (l l' : List Operation) :
    downgrade p coverage (l ++ l') = downgrade p coverage l ++ downgrade p coverage l' :=
  List.map_append

theorem downgrade_twice (p : Operation → Bool) (ops : List Operation) :
    downgrade p .stale (downgrade p .stale ops) = downgrade p .stale ops := by
  rw [downgrade_downgrade (by decide)]
  simp only [Bool.or_self]

/-- Expiry is one downgrade, whatever the coverages are. -/
theorem exists_downgrade (limit : Nat) (now : Time) (health : Table Health) (result : CheckResult) :
    ∃ p, ∀ operations, expiredResult limit now health { result with operations }
      = { result with operations := downgrade p .stale operations } :=
  ⟨fun op => decide (numSeconds now op.observedAt > limit)
    || result.observations.any (spoils limit now health op), fun _ => rfl⟩

namespace Application

variable {a : Application}

/-- The health entries of the resources that are still reported stay. -/
theorem pending_health_mem (h : resource ∈ (a.scanned host).health)
    (hreported : observed (a.results host) resource = true) :
    resource ∈ (a.pending host).health := by
  have hreconciled : resource ∈ (a.reconciled host).2 := by
    rw [reconciled]
    exact downgradeHealth_mem.mpr h
  obtain ⟨health, hhealth⟩ := Table.mem_iff_getElem?.mp hreconciled
  rw [pending_health, Table.mem_retain]
  exact ⟨health, hhealth, hreported⟩

theorem observed_of_stored {key : String} {result : CheckResult} {obs : Observation}
    (hresult : (a.results host)[key]? = some result) (hobs : obs ∈ result.observations) :
    observed (a.results host) obs.resource = true := by
  rw [observed, List.any_eq_true]
  refine ⟨(key, result), Table.mem_toList.mpr hresult, ?_⟩
  rw [CheckResult.reports, List.any_eq_true]
  exact ⟨obs, hobs, beq_self_eq_true _⟩

/-- What is assessed has a health after the pass. -/
theorem pending_health_assessed {obs : Observation} (hobs : obs ∈ (a.stored host).observations)
    (h : assessed a.job obs = true) (hevidence : obs.data.isHealthEvidence = true) :
    obs.resource ∈ (a.pending host).health := by
  refine pending_health_mem ?_ (@observed_of_stored _ _ a.job.key _ _ ?_ hobs)
  · rw [scanned_eq]
    rw [stored_observations] at hobs
    exact scan_health_assessed hobs h hevidence
  · rw [results, Std.ExtTreeMap.getElem?_insert_self]

/-- The state after the whole `apply`. -/
def left (host : Host) (a : Application) : Snapshot :=
  (State.apply host a.before a.job a.result a.now a.clock).1

theorem after_health_mem :
    resource ∈ (a.after host).health ↔ resource ∈ (a.pending host).health := by
  rw [after_eq, expire_health_mem]

/-- A pass keeps the health of what another stored result reports. -/
theorem after_health_other {key : String} {result : CheckResult} {obs : Observation}
    (hkey : key ≠ a.job.key) (hresult : a.before.results[key]? = some result)
    (hobs : obs ∈ result.observations) (h : obs.resource ∈ a.before.health) :
    obs.resource ∈ (a.pending host).health := by
  refine pending_health_mem ?_ (@observed_of_stored _ _ key _ _ ?_ hobs)
  · rw [scanned_eq]
    refine scan_health_mem ?_
    rw [start_health]
    exact h
  · rw [results, Table.getElem?_insert_ne hkey, prepared_same.results]
    exact hresult

/-- A pass that assesses nothing gives no resource a health. -/
theorem mem_before_health (h : a.job.assessHealth = false)
    (hmem : resource ∈ (a.pending host).health) : resource ∈ a.before.health := by
  rw [pending_health, Table.mem_retain] at hmem
  obtain ⟨health, hhealth, -⟩ := hmem
  have hscanned : resource ∈ (a.scanned host).health := by
    have hreconciled := Table.mem_iff_getElem?.mpr ⟨health, hhealth⟩
    rw [reconciled] at hreconciled
    exact downgradeHealth_mem.mp hreconciled
  rwa [scanned_eq, scan_health_unassessed h, start_health] at hscanned

/-! ## What a pass leaves behind -/

/-- What a pass stored is still there, expired with the health that there is now. -/
structure Keeps (host : Host) (a : Application) (s : Snapshot) : Prop where
  result : s.results[a.job.key]?
    = some (expiredResult a.job.settings.freshness a.now s.health (a.stored host))
  freshness : s.freshness[a.job.key]? = some a.job.settings.freshness
  health : ∀ obs ∈ (a.stored host).observations, obs.resource ∈ (a.pending host).health →
    obs.resource ∈ s.health

theorem keeps_after (host : Host) (a : Application) : a.Keeps host (a.after host) where
  result := by
    have hafter := @after_result host a
    rw [pending_limitAt] at hafter
    rw [hafter]
    refine congrArg some (expiredResult_congr fun op _ _ obs _ _ _ => ?_)
    rw [after_health_mem]
  freshness := by
    rw [after_eq]
    show (a.pending host).freshness[a.job.key]? = _
    rw [pending_freshness, prepared, prepare_freshness, Std.ExtTreeMap.getElem?_insert_self]
  health obs _ hmem := after_health_mem.mpr hmem

theorem Keeps.of_eq {s t : Snapshot} (h : a.Keeps host s) (hresults : t.results = s.results)
    (hfreshness : t.freshness = s.freshness) (hhealth : t.health = s.health) :
    a.Keeps host t where
  result := by
    rw [hresults, hhealth]
    exact h.result
  freshness := by
    rw [hfreshness]
    exact h.freshness
  health := by
    rw [hhealth]
    exact h.health

theorem Keeps.expire {s : Snapshot} (h : a.Keeps host s) (freshness : Nat) :
    a.Keeps host (State.expire s freshness a.now).1 where
  result := by
    have hlimit : limitAt s freshness a.job.key = a.job.settings.freshness := by
      rw [limitAt, h.freshness]
      rfl
    rw [expire_results, h.result, Option.map_some, hlimit, expiredResult_twice fun _ _ => id]
    refine congrArg some (expiredResult_congr fun op _ _ obs _ _ _ => ?_)
    rw [expire_health_mem]
  freshness := h.freshness
  health obs hobs hmem := expire_health_mem.mpr (h.health obs hobs hmem)

/-- A pass of another job at the same instant keeps it. -/
theorem Keeps.after {c : Application} (h : a.Keeps host c.before) (hkey : c.job.key ≠ a.job.key)
    (hnow : c.now = a.now) : a.Keeps host (c.after host) := by
  have hpending : (c.pending host).results[a.job.key]? = c.before.results[a.job.key]? := by
    rw [pending_results, results, Table.getElem?_insert_ne hkey.symm, prepared_same.results]
  have hknown : ∀ obs ∈ (a.stored host).observations, obs.resource ∈ c.before.health →
      obs.resource ∈ (c.pending host).health := fun obs hobs hmem =>
    after_health_other hkey.symm h.result hobs hmem
  have hfreshness : (c.pending host).freshness[a.job.key]? = some a.job.settings.freshness := by
    rw [pending_freshness, prepared, prepare_freshness, Table.getElem?_insert_ne hkey.symm]
    exact h.freshness
  have hlimit : limitAt (c.pending host) c.job.settings.freshness a.job.key
      = a.job.settings.freshness := by
    rw [limitAt, hfreshness]
    rfl
  rw [after_eq]
  refine ⟨?_, hfreshness, fun obs hobs hmem =>
    expire_health_mem.mpr (hknown obs hobs (h.health obs hobs hmem))⟩
  rw [expire_results, hlimit, hpending, h.result, Option.map_some, hnow, expiredResult_twice hknown]
  refine congrArg some (expiredResult_congr fun op _ _ obs _ _ _ => ?_)
  rw [expire_health_mem]

/-- What a pass left stays through the passes that spare its key. -/
theorem keeps_preserved : (passes host).Preserves (Action.Spares a.job.key a.now)
    (a.Keeps host) := by
  intro s action hspares h
  cases action with
  | collect job result time clock =>
      exact Keeps.after (c := { before := s, job, result, now := time, clock }) h
        hspares.1 hspares.2
  | expire freshness time =>
      obtain rfl : time = a.now := hspares
      exact h.expire freshness
  | evaluateFlows job time clock =>
      obtain ⟨progress, he, _, _⟩ := Flows.evaluate_snapshot s job time clock
      show a.Keeps host (Flows.evaluate s job time clock).1
      rw [he]
      exact h.of_eq rfl rfl rfl
  | restoreSamples key samples => exact h.of_eq rfl rfl rfl

/-- The whole `apply` goes on from the pass itself, for the flows alone. -/
theorem left_eq : ∃ actions : List Action, (∀ action ∈ actions, action.Spares a.job.key a.now ∧
      ∀ p : Job → Prop, p (flowJob a.job) → action.For p)
    ∧ a.left host = ((passes host).run (a.after host) actions).1 := by
  unfold left
  rw [apply_eq, applyActions, Process.run_cons]
  refine ⟨_, ?_, rfl⟩
  intro action haction
  split at haction
  · rename_i hflows
    simp only [List.mem_cons, List.not_mem_nil, or_false] at haction
    rcases haction with rfl | rfl | rfl
    · exact ⟨trivial, fun _ h => h⟩
    · exact ⟨⟨flowJob_key_ne hflows.2, rfl⟩, fun _ h => h⟩
    · exact ⟨trivial, fun _ _ => trivial⟩
  · cases haction

theorem keeps_left (host : Host) (a : Application) : a.Keeps host (a.left host) := by
  obtain ⟨actions, hactions, he⟩ := @left_eq host a
  rw [he]
  exact keeps_preserved.run (fun action h => (hactions action h).1) (keeps_after host a)

/-- What is stored keeps its health. -/
theorem left_health_mem {obs : Observation} (hobs : obs ∈ (a.stored host).observations)
    (h : obs.resource ∈ a.before.health) : obs.resource ∈ (a.left host).health := by
  refine (keeps_left host a).health obs hobs
    (pending_health_mem ?_ (@observed_of_stored _ _ a.job.key _ _ ?_ hobs))
  · rw [scanned_eq]
    refine scan_health_mem ?_
    rw [start_health]
    exact h
  · rw [results, Std.ExtTreeMap.getElem?_insert_self]

/-- A job that does not assess leaves no health that was not there before. -/
theorem left_health_unassessed (h : a.job.assessHealth = false)
    (hmem : resource ∈ (a.left host).health) : resource ∈ a.before.health := by
  have hpreserved : (passes host).Preserves (Action.For fun job => job.assessHealth = false)
      (fun s => resource ∈ s.health → resource ∈ a.before.health) := by
    intro s action hfor hs hmem
    cases action with
    | collect job result time clock =>
        exact hs (mem_before_health (a := { before := s, job, result, now := time, clock }) hfor
          (after_health_mem.mp hmem))
    | expire freshness time => exact hs (expire_health_mem.mp hmem)
    | evaluateFlows job time clock =>
        obtain ⟨progress, he, _, _⟩ := Flows.evaluate_snapshot s job time clock
        exact hs (congrArg Snapshot.health he ▸ hmem)
    | restoreSamples key samples => exact hs hmem
  obtain ⟨actions, hactions, he⟩ := @left_eq host a
  rw [he] at hmem
  exact hpreserved.run (fun action hin => (hactions action hin).2 _ h)
    (fun hmem => mem_before_health h (after_health_mem.mp hmem)) hmem

/-! ## Refreshing again -/

/-- A pass over the stored result of its job. -/
def Refreshes (a : Application) : Prop := a.before.results[a.job.key]? = some a.result

/-- `b` refreshes the stored result at the instant of `a` and from the same evidence,
with only passes of other jobs between them. -/
structure Repeats (host : Host) (a b : Application) : Prop where
  job : b.job = a.job
  now : b.now = a.now
  between : ∃ actions : List Action, (∀ action ∈ actions, action.Spares a.job.key a.now)
    ∧ b.before = ((passes host).run (a.left host) actions).1
  refreshes : b.Refreshes
  evidence : Evidence.new (register b.before b.job) b.job (Releases.strip b.result) b.now
    = Evidence.new (register a.before a.job) a.job (Releases.strip a.result) a.now

theorem Repeats.keeps {b : Application} (h : a.Repeats host b) : a.Keeps host b.before := by
  obtain ⟨actions, hspares, he⟩ := h.between
  rw [he]
  exact keeps_preserved.run hspares (keeps_left host a)

theorem Repeats.result_eq {b : Application} (h : a.Repeats host b) :
    b.result = expiredResult a.job.settings.freshness a.now b.before.health (a.stored host) := by
  have hfound : b.before.results[a.job.key]? = some b.result := h.job ▸ h.refreshes
  exact Option.some.inj (hfound.symm.trans h.keeps.result)

/-- A refresh retains nothing but verdicts that it takes back. -/
theorem gathered_refresh (h : a.Derives) (hrefresh : a.Refreshes) (hback : ¬ a.TakesBack) :
    a.gathered host = a.enriched := by
  obtain ⟨retained, operations, heq, hretained, hown⟩ :=
    retain_eq host a.job (register a.before a.job) a.enriched
  have hnone : retained = [] := by
    rw [List.eq_nil_iff_forall_not_mem]
    intro obs hobs
    obtain ⟨hincomplete, heligible, previous, hprevious, hmem⟩ := hretained obs hobs
    have hresult : a.before.results[a.job.key]? = some previous := hprevious
    have hprev : a.result = previous := Option.some.inj (hrefresh.symm.trans hresult)
    cases hkind : Releases.isProvenance obs.data with
    | true => exact hback ⟨hincomplete, previous, obs, hresult, hmem, .inl hkind, heligible⟩
    | false =>
        have hstripped : obs ∈ a.enriched.observations := by
          refine List.mem_append_left _ (List.mem_filter.mpr ⟨hprev ▸ hmem, ?_⟩)
          rw [hkind]
          rfl
        rw [PartialResults.not_eligible hstripped] at heligible
        cases heligible
  have hops : operations = [] := by
    rw [List.eq_nil_iff_forall_not_mem]
    intro op hop
    obtain ⟨obs, hobs, _⟩ := hown op hop
    rw [hnone] at hobs
    cases hobs
  rw [gathered_eq h, heq, hnone, hops, List.append_nil, List.append_nil]

/-- What a refresh derives is what it stores behind the rewritten evidence of the
job itself. -/
theorem exists_kept (hfits : a.Fits) : ∃ kept,
    (rewrite a.job a.enriched a.now).observations = kept ++ a.derived.filterMap Prod.snd
      ∧ kept.length ≤ (Releases.strip a.result).observations.length
      ∧ kept.filter (Releases.isProvenance ·.data) = [] := by
  have hderived : ∀ obs ∈ a.derived.filterMap Prod.snd, Releases.isProvenance obs.data = true := by
    intro obs hobs
    obtain ⟨added, hadded, hsnd⟩ := List.mem_filterMap.mp hobs
    obtain ⟨image, _, _, hprovenance⟩ := Releases.mem_derived hadded
    exact (hprovenance obs hsnd).1
  have hobs : a.enriched.observations
      = (Releases.strip a.result).observations ++ a.derived.filterMap Prod.snd := by
    rw [enriched, Releases.enrich_observations, Releases.additions_of_fits hfits]
    rfl
  obtain ⟨kept, hkept, hlength⟩ := @rewrite_append a.job _ a.now _
    untouched_provenance _ _ hobs hderived
  refine ⟨kept, hkept, hlength, ?_⟩
  have hfilter := untouched_provenance.rewrite a.job a.enriched a.now
  have hown : a.enriched.observations.filter (Releases.isProvenance ·.data)
      = a.derived.filterMap Prod.snd := (Releases.enrich_filter hfits).2
  rw [hkept, hown, List.filter_append, List.filter_eq_self.mpr hderived] at hfilter
  exact List.append_left_eq_self.mp hfilter

/-- The verdicts of a repeated refresh are those of the first one. -/
theorem Repeats.derived_eq {b : Application} (h : a.Repeats host b) : b.derived = a.derived := by
  unfold derived Releases.derived
  rw [h.evidence, h.job, h.now]

/-- The operations of the job itself, validated with what the pass stores and then
downgraded. -/
def ownOperations (host : Host) (a : Application) (p : Operation → Bool) : List Operation :=
  downgrade p .stale ((a.stored host).observations.foldl
    (validateObservation a.job.settings.freshness a.now) (Releases.strip a.result).operations)

/-- What a refresh that drops nothing stores. -/
theorem stored_refresh (hderives : a.Derives) (hrefresh : a.Refreshes) (hdrops : ¬ a.Drops host)
    (hback : ¬ a.TakesBack) : a.stored host = rewrite a.job a.enriched a.now := by
  rw [stored_eq hdrops, gathered_refresh hderives hrefresh hback]

theorem enriched_operations (hfits : a.Fits) :
    a.enriched.operations = (Releases.strip a.result).operations ++ a.derived.map Prod.fst := by
  rw [enriched, Releases.enrich_operations, Releases.additions_of_fits hfits]
  rfl

/-- Enrichment adds no owner record and strips none. -/
theorem enriched_owners (hfits : a.Fits) :
    a.enriched.observations.filter (SchedulePolicy.isOwner ·.data)
      = a.result.observations.filter (SchedulePolicy.isOwner ·.data) := by
  have hother : ∀ data : Data, Releases.isProvenance data = true →
      SchedulePolicy.isOwner data = false := by
    intro data h
    cases data <;> first | rfl | cases h
  have hderived : (a.derived.filterMap Prod.snd).filter (SchedulePolicy.isOwner ·.data) = [] := by
    rw [List.filter_eq_nil_iff]
    intro obs hobs
    obtain ⟨added, hadded, hsnd⟩ := List.mem_filterMap.mp hobs
    obtain ⟨image, _, _, hprovenance⟩ := Releases.mem_derived hadded
    rw [hother _ (hprovenance obs hsnd).1]
    decide
  rw [enriched, Releases.enrich_observations, Releases.additions_of_fits hfits, List.filter_append]
  show _ ++ (a.derived.filterMap Prod.snd).filter _ = _
  rw [hderived, List.append_nil, Releases.strip, List.filter_filter]
  refine List.filter_congr fun obs _ => ?_
  cases hkind : Releases.isProvenance obs.data with
  | true => rw [hother _ hkind]; rfl
  | false => rw [Bool.not_false, Bool.and_true]

/-- An operation that is complete again was complete when the first refresh enriched. -/
theorem enriched_backs (hfits : a.Fits) {p : Operation → Bool} {observations : List Observation}
    {obs : Observation} (h : ({ a.stored host with
      operations := ownOperations host a p ++ a.derived.map Prod.fst } : CheckResult).backs obs
        = true) :
    ({ a.enriched with observations } : CheckResult).backs obs = true := by
  obtain ⟨f, hf, hlowered⟩ := @exists_validate a.job.settings.freshness a.now
    (a.stored host).observations
  simp only [CheckResult.backs, List.any_eq_true, Bool.and_eq_true, beq_iff_eq] at h ⊢
  obtain ⟨op, hop, hid, hcomplete⟩ := h
  rw [enriched_operations hfits]
  rcases List.mem_append.mp hop with hown | hderived
  · rw [ownOperations, hf] at hown
    obtain ⟨mid, hmid, he⟩ := List.mem_map.mp hown
    obtain ⟨first, hfirst, rfl⟩ := List.mem_map.mp hmid
    have hsame : f first = op := by
      split at he
      · rw [← he] at hcomplete
        cases hcomplete
      · exact he
    rw [← hsame] at hid hcomplete
    exact ⟨first, List.mem_append_left _ hfirst, (hlowered first).id_eq ▸ hid,
      (hlowered first).complete hcomplete⟩
  · exact ⟨op, List.mem_append_right _ hderived, hid, hcomplete⟩

section Repeats

variable {b : Application} (h : a.Repeats host b) (hderives : a.Derives) (hrefresh : a.Refreshes)
  (hdrops : ¬ a.Drops host) (hfits : a.Fits) (hback : ¬ a.TakesBack)

include h hderives hrefresh hdrops hfits hback

/-- A repeated refresh enriches what the first one stored: its operations are those of the
job itself as they are stored, and the verdicts derived again. -/
theorem Repeats.enriched_eq {p : Operation → Bool} (hresult : b.result = { a.stored host with
      operations := downgrade p .stale (a.stored host).operations }) :
    b.enriched = { a.stored host with
      operations := ownOperations host a p ++ a.derived.map Prod.fst } := by
  obtain ⟨kept, hkept, hlength, hnone⟩ := exists_kept hfits
  have hstored := stored_refresh hderives hrefresh hdrops hback
  rw [← hstored] at hkept
  have hverdict : ∀ obs ∈ a.derived.filterMap Prod.snd, Releases.isProvenance obs.data = true := by
    intro obs hobs
    obtain ⟨added, hadded, hsnd⟩ := List.mem_filterMap.mp hobs
    obtain ⟨image, _, _, hprovenance⟩ := Releases.mem_derived hadded
    exact (hprovenance obs hsnd).1
  have hstrip : (Releases.strip b.result).observations = kept := by
    have hderived : (a.derived.filterMap Prod.snd).filter
        (fun obs => !Releases.isProvenance obs.data) = [] := by
      rw [List.filter_eq_nil_iff]
      intro obs hobs
      rw [hverdict obs hobs]
      decide
    have hall : kept.filter (fun obs => !Releases.isProvenance obs.data) = kept := by
      rw [List.filter_eq_self]
      intro obs hobs
      rw [List.filter_eq_nil_iff] at hnone
      simpa using hnone obs hobs
    show b.result.observations.filter _ = kept
    rw [hresult]
    show (a.stored host).observations.filter _ = kept
    rw [hkept, List.filter_append, hderived, hall, List.append_nil]
  have hfits' : b.Fits := by
    unfold Fits Releases.Fits
    rw [h.evidence, h.job, hstrip]
    have := hfits
    unfold Fits Releases.Fits at this
    omega
  have hadditions : Releases.additions (register b.before b.job) b.job b.result b.now
      = a.derived := by
    rw [Releases.additions_of_fits hfits']
    exact h.derived_eq
  have hobs : b.enriched.observations = (a.stored host).observations := by
    rw [enriched, Releases.enrich_observations, hadditions, hstrip, hkept]
  -- validation and expiry keep the ids, so the stored verdicts are stripped again
  obtain ⟨f, hf, hlowered⟩ := @exists_validate a.job.settings.freshness a.now
    (a.stored host).observations
  have hops : b.enriched.operations = ownOperations host a p ++ a.derived.map Prod.fst := by
    have hsplit : (a.stored host).operations
        = ((Releases.strip a.result).operations ++ a.derived.map Prod.fst).map f := by
      rw [← enriched_operations hfits, ← hf, hstored]
      rfl
    have hkeeps : ∀ l : List Operation,
        (downgrade p .stale (l.map f)).filter (fun op => !Text.startsWith op.id "provenance/")
          = downgrade p .stale
            ((l.filter fun op => !Text.startsWith op.id "provenance/").map f) := by
      intro l
      unfold downgrade
      rw [List.map_map, List.filter_map, List.map_map]
      refine congrArg _ (List.filter_congr fun op _ => ?_)
      have hid : (f op).id = op.id := (hlowered op).id_eq
      simp only [Function.comp_apply]
      split <;> rw [hid]
    have hown : (Releases.strip b.result).operations
        = downgrade p .stale ((Releases.strip a.result).operations.map f) := by
      show b.result.operations.filter _ = _
      rw [hresult]
      show (downgrade p .stale (a.stored host).operations).filter _ = _
      rw [hsplit, hkeeps, List.filter_append]
      have hderived : (a.derived.map Prod.fst).filter
          (fun op => !Text.startsWith op.id "provenance/") = [] := by
        rw [List.filter_eq_nil_iff]
        intro op hop
        obtain ⟨added, hadded, rfl⟩ := List.mem_map.mp hop
        obtain ⟨image, _, hid, _⟩ := Releases.mem_derived hadded
        rw [hid, Text.startsWith_append]
        decide
      rw [hderived, List.append_nil, Releases.strip, List.filter_filter]
      simp only [Bool.and_self]
    rw [enriched, Releases.enrich_operations, hadditions, hown, ownOperations, hf]
  have hrest : b.enriched = { b.result with
      observations := b.enriched.observations, operations := b.enriched.operations } := rfl
  rw [hrest, hobs, hops, hresult]

/-- A repeated refresh stores the observations that the first one stored. -/
theorem Repeats.rewritten (hone : SchedulePolicy.OneOwner a.result) {p : Operation → Bool}
    (hresult : b.result = { a.stored host with
      operations := downgrade p .stale (a.stored host).operations }) :
    rewrite a.job b.enriched a.now = { a.stored host with
      operations := ownOperations host a p ++ (a.stored host).observations.foldl
        (validateObservation a.job.settings.freshness a.now) (a.derived.map Prod.fst) } := by
  have hstored := stored_refresh hderives hrefresh hdrops hback
  have henriched := h.enriched_eq hderives hrefresh hdrops hfits hback hresult
  generalize hfirst : ({ a.enriched with
    observations := Provenance.markRetries a.enriched.observations } : CheckResult) = first
  have hfilter : ∀ {q : Data → Bool}, Untouched q →
      b.enriched.observations.filter (q ·.data) = first.observations.filter (q ·.data) := by
    intro q hq
    rw [henriched, ← hfirst]
    show (a.stored host).observations.filter _ = (Provenance.markRetries _).filter _
    rw [hstored, hq.rewrite, Provenance.markRetries,
      filter_map_eq (fun o => (hq.markRetry _ o).1) fun o => (hq.markRetry _ o).2]
  have hbacks : ∀ obs, b.enriched.backs obs = true → first.backs obs = true := by
    intro obs hbacked
    rw [henriched] at hbacked
    rw [← hfirst]
    exact enriched_backs hfits hbacked
  have hsingle : SchedulePolicy.OneOwner first := by
    refine hone.congr ?_
    rw [← hfirst, ← enriched_owners hfits]
    exact filter_map_eq (fun o => (SchedulePolicy.untouched_owner.markRetry _ o).1)
      (fun o => (SchedulePolicy.untouched_owner.markRetry _ o).2) _
  have hobs : (rewrite a.job b.enriched a.now).observations = (a.stored host).observations := by
    rw [hstored]
    refine rewrite_observations_again (by rw [henriched, hstored]) fun obs => ?_
    rw [hfirst]
    exact SchedulePolicy.correlateObservation_of_lowered hbacks
      (hfilter SchedulePolicy.untouched_owner) hsingle (hfilter SchedulePolicy.untouched_job) obs
  have hops : (rewrite a.job b.enriched a.now).operations
      = ownOperations host a p ++ (a.stored host).observations.foldl
        (validateObservation a.job.settings.freshness a.now) (a.derived.map Prod.fst) := by
    show (rewrite a.job b.enriched a.now).observations.foldl _ b.enriched.operations = _
    obtain ⟨f, hf, _⟩ := @exists_validate a.job.settings.freshness a.now
      (a.stored host).observations
    rw [hobs, henriched, hf, List.map_append, ← hf, ← hf, ownOperations, validate_downgrade]
  have hrest : rewrite a.job b.enriched a.now = { b.enriched with
      observations := (rewrite a.job b.enriched a.now).observations
      operations := (rewrite a.job b.enriched a.now).operations } := rfl
  rw [hrest, hobs, hops, henriched]

/-- Nothing that a repeated refresh replaces is retained. -/
theorem Repeats.not_takesBack {p : Operation → Bool} (hresult : b.result = { a.stored host with
      operations := downgrade p .stale (a.stored host).operations }) : ¬ b.TakesBack := by
  rintro ⟨_, previous, obs, hprevious, hobs, _, heligible⟩
  obtain rfl : b.result = previous := Option.some.inj (h.refreshes.symm.trans hprevious)
  -- all that the first refresh left is reported again
  have hreported : obs ∈ b.enriched.observations := by
    rw [h.enriched_eq hderives hrefresh hdrops hfits hback hresult]
    rw [hresult] at hobs
    exact hobs
  rw [PartialResults.not_eligible hreported] at heligible
  cases heligible

/-- A repeated refresh that drops nothing leaves the stored result as it was. -/
theorem Repeats.final_eq (hone : SchedulePolicy.OneOwner a.result) (hagain : ¬ b.Drops host) :
    b.final host = some b.result := by
  have hderives' : b.Derives := ⟨h.job ▸ hderives.check, h.job ▸ hderives.artifactOnly⟩
  obtain ⟨p, hp⟩ := exists_downgrade a.job.settings.freshness a.now b.before.health (a.stored host)
  have hresult : b.result = { a.stored host with
      operations := downgrade p .stale (a.stored host).operations } :=
    h.result_eq.trans (hp _)
  have hstored : b.stored host = rewrite a.job b.enriched a.now := by
    rw [stored_refresh hderives' h.refreshes hagain
      (h.not_takesBack hderives hrefresh hdrops hfits hback hresult), h.job, h.now]
  have hrewritten := h.rewritten hderives hrefresh hdrops hfits hback hone hresult
  have hobs : (b.stored host).observations = (a.stored host).observations := by
    rw [hstored, hrewritten]
  -- what can spoil an operation has a health as before
  have hhealth : expiredResult a.job.settings.freshness a.now (b.left host).health (b.stored host)
      = expiredResult a.job.settings.freshness a.now b.before.health (b.stored host) := by
    refine expiredResult_congr fun op hop hcomplete obs hmem hid hold => ?_
    refine ⟨fun hleft => ?_, left_health_mem hmem⟩
    -- the validation has lowered what is past the freshness limit
    have hcurrent : ¬ numSeconds a.now obs.observedAt > a.job.settings.freshness := by
      rw [hstored] at hop hmem
      exact current_of_validated hop hcomplete hmem hid
    cases hassess : a.job.assessHealth with
    | false => exact left_health_unassessed (h.job ▸ hassess) hleft
    | true =>
        refine h.keeps.health obs (hobs ▸ hmem) (pending_health_assessed (hobs ▸ hmem) ?_ ?_)
        · rw [outdated, decide_eq_false hcurrent, Bool.false_or] at hold
          rw [assessed, hassess, hderives.check]
          cases hdata : obs.data with
          | provenance verdict => rfl
          | _ => simp [hdata] at hold
        · rw [outdated, decide_eq_false hcurrent, Bool.false_or] at hold
          cases hdata : obs.data with
          | provenance verdict => rfl
          | _ => simp [hdata] at hold
  have hfinal := (keeps_left host b).result
  rw [h.job, h.now, hhealth, hstored, hrewritten, hp, downgrade_append, ownOperations,
    downgrade_twice, ← downgrade_append] at hfinal
  show (b.left host).results[b.job.key]? = _
  rw [h.job, hfinal, hresult]
  -- the operations of the job and the verdicts were validated together
  obtain ⟨f, hf, _⟩ := @exists_validate a.job.settings.freshness a.now (a.stored host).observations
  have hsplit : (a.stored host).operations = (a.stored host).observations.foldl
      (validateObservation a.job.settings.freshness a.now) a.enriched.operations := by
    rw [stored_refresh hderives hrefresh hdrops hback]
    rfl
  rw [hsplit, enriched_operations hfits, hf, hf, hf, List.map_append]

end Repeats

/-! ## The verdicts of a stored result -/

/-- The verdicts of a result are those derived for the observed images, the
operations at most lowered, and it has no other. -/
structure Verdicts (a : Application) (result : CheckResult) : Prop where
  observations : result.observations.filter (Releases.isProvenance ·.data)
    = a.derived.filterMap Prod.snd
  operations : List.Forall₂ (Lowered a.job.settings.freshness a.now result.observations)
    (a.derived.map Prod.fst) (result.operations.filter Releases.ofProvenance)
  ofImages : ∀ obs ∈ result.observations, Releases.isProvenance obs.data = true →
    ∃ image ∈ (Evidence.new (register a.before a.job) a.job (Releases.strip a.result)
        a.now).images a.job.target, obs.resource = image.resource ++ "/provenance"
  ofImages' : ∀ op ∈ result.operations, Releases.ofProvenance op = true →
    ∃ image ∈ (Evidence.new (register a.before a.job) a.job (Releases.strip a.result)
        a.now).images a.job.target, op.id = "provenance/" ++ image.resource

/-- A release result stores the verdicts on the images that are observed when it is
applied, and a refresh from the same evidence leaves it alone. -/
theorem verdicts_current (host : Host) (a : Application) (h : a.Derives)
    (hdrops : ¬ a.Drops host) (hfits : a.Fits) (hback : ¬ a.TakesBack) :
    (∃ result, a.final host = some result ∧ a.Verdicts result)
      ∧ (a.Refreshes → SchedulePolicy.OneOwner a.result → ∀ b : Application, a.Repeats host b →
          ¬ b.Drops host → b.final host = some b.result) := by
  constructor
  · obtain ⟨result, hresult, hobs, hops⟩ := final_verdicts h hdrops hfits hback
    refine ⟨result, hresult, hobs, hops, fun obs hmem hkind => ?_, fun op hmem hkind => ?_⟩
    · have hderived : obs ∈ a.derived.filterMap Prod.snd :=
        hobs ▸ List.mem_filter.mpr ⟨hmem, hkind⟩
      obtain ⟨added, hadded, hsnd⟩ := List.mem_filterMap.mp hderived
      obtain ⟨image, himage, _, hprovenance⟩ := Releases.mem_derived hadded
      exact ⟨image, himage, (hprovenance obs hsnd).2.2⟩
    · obtain ⟨first, hfirst, hlowered⟩ := Groups.exists_of_forall₂ hops op
        (List.mem_filter.mpr ⟨hmem, hkind⟩)
      obtain ⟨added, hadded, rfl⟩ := List.mem_map.mp hfirst
      obtain ⟨image, himage, hid, _⟩ := Releases.mem_derived hadded
      exact ⟨image, himage, hlowered.id_eq.trans hid⟩
  · exact fun hrefresh hone b hagain hdrops' =>
      hagain.final_eq h hrefresh hdrops hfits hback hone hdrops'

end Application

end State

/-! ## Rollouts -/

namespace Sample

open State

/-- The pods run the image of one container. -/
def deployed (resource : String) (second : Nat) (expected : Expected) : Step :=
  .apply (job .kubernetes)
    (result .kubernetes (sec second) [operation "images" (sec second)]
      [{ image second 'a' with resource, expected }]) (sec second) (sec second)

/-- A pass of the release job after some steps. -/
def releasePass (steps : List Step) (second : Nat) : Application where
  before := ((monitor machine).run start steps).1
  job := job .releases
  result := result .releases (sec second) [] []
  now := sec second
  clock := sec second

/-- One container is replaced by another between two passes. -/
def rollout : Application :=
  releasePass
    [deployed "app/old/image/main" 60 .active, .apply (job .releases) release (sec 60) (sec 60),
      deployed "app/web/image/main" 61 .active] 61

/-- The container is scaled to zero, and the pods are not seen for a while. -/
def atRest : Application := releasePass [deployed "app/web/image/main" 60 .scaleToZero] 760

/-- The state after a first pass over an image and its registry entry, and the builds. -/
def assessedRelease : Snapshot :=
  (State.apply machine (released []) (job .releases)
    (result .releases (sec 60) [operation "builds" (sec 60)] []) (sec 60) (sec 60)).1

/-- The refresh of the stored release result. -/
def refresh (before : Snapshot) (second : Nat) : Application where
  before
  job := job .releases
  result := (before.results["app/Releases"]?).getD release
  now := sec second
  clock := sec second

/-- A refresh that finds the builds out of date. -/
def refreshed : Application := refresh assessedRelease 760

/-- The same refresh after an expiry. -/
def refreshedAgain : Application :=
  refresh (State.expire (refreshed.left machine) 600 (sec 760)).1 760

def ownerRecord (resource op : String) (second : Nat) (uid : String) (owner : Option String) :
    Observation :=
  { resource := resource ++ "/owner", operation := op, observedAt := sec second
    data := .owner uid owner }

/-- A schedule with two owner records, the second of an operation that ages first, and
a completed job of the first owner. -/
def contested : CheckResult :=
  result .releases (sec 60) [operation "first" (sec 60), operation "late" (sec 0)]
    [{ resource := "app/backup", operation := "first", observedAt := sec 60
       data := .schedule
        { createdAt := none, startingDeadlineSeconds := none, forbidOverlap := false
          schedule := "", timezone := "", suspended := false, active := 0
          lastSchedule := none, lastSuccess := none } },
      ownerRecord "app/backup" "first" 60 "u1" none,
      ownerRecord "app/backup" "late" 0 "u2" none,
      { resource := "app/run", operation := "first", observedAt := sec 60
        data := .job
          { completedAt := some (sec 50), scheduledAt := some (sec 40), complete := true
            failed := false, failedAttempts := 0, succeeded := 1, active := 0
            createdAt := none } },
      ownerRecord "app/run" "first" 60 "j1" (some "u1")]

/-- Its refresh when that operation is out of date, and the next one. -/
def disputed : Application :=
  refresh ((monitor machine).run start [.apply (job .releases) contested (sec 60) (sec 60)]).1 720

def disputedAgain : Application := refresh (disputed.left machine) 720

end Sample

namespace State.Application

open HealthMonitor.Sample

theorem evidence_ext {e e' : Evidence} (hcandidates : e.candidates.toList = e'.candidates.toList)
    (hexpiry : e.expiry.toList = e'.expiry.toList) (hfacts : e.facts = e'.facts)
    (howners : e.owners.toList = e'.owners.toList) : e = e' := by
  cases e
  cases e'
  simp only [Evidence.mk.injEq]
  exact ⟨Std.ExtTreeMap.toList_inj.mp hcandidates, Std.ExtTreeMap.toList_inj.mp hexpiry, hfacts,
    Std.ExtTreeMap.toList_inj.mp howners⟩

/-- The operation of a container that is gone comes back with its verdict, the verdict on
a container at rest is complete when it is derived but stale when it is stored, and a
refresh reads the other owner record once the operation of one is stale. -/
theorem verdicts_differ :
    (rollout.Derives ∧ ¬ rollout.Drops machine ∧ rollout.Fits
      ∧ ∃ result, rollout.final machine = some result
        ∧ (∃ op ∈ result.operations, op.id = "provenance/app/old/image/main"
          ∧ op.coverage ≠ .complete ∧ op.required = true)
        ∧ ∀ image ∈ (Evidence.new (register rollout.before rollout.job) rollout.job
            (Releases.strip rollout.result) rollout.now).images rollout.job.target,
          image.resource ≠ "app/old/image/main")
    ∧ (atRest.Derives ∧ ¬ atRest.Drops machine ∧ atRest.Fits ∧ ¬ atRest.TakesBack
      ∧ ∃ result, atRest.final machine = some result
        ∧ result.operations.filter Releases.ofProvenance ≠ atRest.derived.map Prod.fst)
    ∧ (disputed.Derives ∧ ¬ disputed.Drops machine ∧ disputed.Fits ∧ ¬ disputed.TakesBack
      ∧ disputed.Refreshes ∧ disputed.Repeats machine disputedAgain
      ∧ ¬ disputedAgain.Drops machine
      ∧ disputedAgain.final machine ≠ some disputedAgain.result) := by
  have hrollout : rollout.Derives ∧ ¬ rollout.Drops machine ∧ rollout.Fits
      ∧ (rollout.final machine).any (fun result => decide
        ((∃ op ∈ result.operations, op.id = "provenance/app/old/image/main"
            ∧ op.coverage ≠ .complete ∧ op.required = true)
          ∧ ∀ image ∈ (Evidence.new (register rollout.before rollout.job) rollout.job
              (Releases.strip rollout.result) rollout.now).images rollout.job.target,
            image.resource ≠ "app/old/image/main")) = true := by decide +kernel
  have hrest : atRest.Derives ∧ ¬ atRest.Drops machine ∧ atRest.Fits ∧ ¬ atRest.TakesBack
      ∧ (atRest.final machine).any (fun result => decide
        (result.operations.filter Releases.ofProvenance ≠ atRest.derived.map Prod.fst))
          = true := by decide +kernel
  have hdisputed : disputed.Derives ∧ ¬ disputed.Drops machine ∧ disputed.Fits
      ∧ ¬ disputed.TakesBack
      ∧ disputed.before.results[disputed.job.key]? = some disputed.result := by decide +kernel
  have hagain : disputedAgain.before.results[disputedAgain.job.key]? = some disputedAgain.result
      ∧ ¬ disputedAgain.Drops machine
      ∧ disputedAgain.final machine ≠ some disputedAgain.result := by decide +kernel
  obtain ⟨hderives, hdrops, hfits, hany⟩ := hrollout
  obtain ⟨hderives', hdrops', hfits', hback', hany'⟩ := hrest
  obtain ⟨hrival, hkept, hroom, hnone, hrefreshes⟩ := hdisputed
  obtain ⟨hstored, hkept', hchanged⟩ := hagain
  obtain ⟨result, hresult, hleft⟩ := (Option.any_eq_true _ _).mp hany
  obtain ⟨result', hresult', hlowered⟩ := (Option.any_eq_true _ _).mp hany'
  have hrepeats : disputed.Repeats machine disputedAgain :=
    { job := rfl, now := rfl, between := ⟨[], by simp, rfl⟩, refreshes := hstored
      evidence := evidence_ext (by decide +kernel) (by decide +kernel) (by decide +kernel)
        (by decide +kernel) }
  exact ⟨⟨hderives, hdrops, hfits, result, hresult, decide_eq_true_eq.mp hleft⟩,
    ⟨hderives', hdrops', hfits', hback', result', hresult', decide_eq_true_eq.mp hlowered⟩,
    hrival, hkept, hroom, hnone, hrefreshes, hrepeats, hkept', hchanged⟩

/-- An image without its commit: the missing verdict is stored, and stays when it is
refreshed once more after an expiry that finds the builds out of date. -/
theorem verdicts_current_refreshed :
    (∃ result, refreshed.final machine = some result ∧ refreshed.Verdicts result)
      ∧ refreshedAgain.final machine = some refreshedAgain.result := by
  have hfirst : refreshed.Derives ∧ ¬ refreshed.Drops machine ∧ refreshed.Fits
      ∧ ¬ refreshed.TakesBack
      ∧ refreshed.before.results[refreshed.job.key]? = some refreshed.result
      ∧ (refreshed.result.observations.filterMap SchedulePolicy.ownerOf).Nodup := by
    decide +kernel
  obtain ⟨hderives, hdrops, hfits, hback, hrefreshes, howners⟩ := hfirst
  have hagain : refreshedAgain.before.results[refreshedAgain.job.key]?
        = some refreshedAgain.result
      ∧ ¬ refreshedAgain.Drops machine := by decide +kernel
  have hrepeats : refreshed.Repeats machine refreshedAgain :=
    { job := rfl, now := rfl
      between := ⟨[.expire 600 (sec 760)], by simp [Action.Spares, refreshed, refresh], rfl⟩
      refreshes := hagain.1
      evidence := evidence_ext (by decide +kernel) (by decide +kernel) (by decide +kernel)
        (by decide +kernel) }
  have hcurrent := verdicts_current machine refreshed hderives hdrops hfits hback
  exact ⟨hcurrent.1, hcurrent.2 hrefreshes (SchedulePolicy.oneOwner_of_nodup howners)
    refreshedAgain hrepeats hagain.2⟩

end State.Application

end HealthMonitor
