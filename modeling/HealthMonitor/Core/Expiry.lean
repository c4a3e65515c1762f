import HealthMonitor.Core.State
import HealthMonitor.Core.EvaluationIndex

/-!
# Expiry

The expiry loop in closed form: which operations become stale, which resources
become unknown, and which findings age. The loop threads the health table
through every observation of every result, but it only rewrites entries that
exist, so each result can be read against the table the loop started with.
-/

namespace HealthMonitor.State

variable {limit freshness : Nat} {now : Time} {snapshot : Snapshot}

/-- The freshness limit of the result stored under a key. -/
def limitAt (snapshot : Snapshot) (freshness : Nat) (key : String) : Nat :=
  (snapshot.freshness[key]?).getD freshness

/-- An outdated observation with a health entry makes its operation stale. -/
def spoils (limit : Nat) (now : Time) (health : Table Health) (op : Operation)
    (obs : Observation) : Bool :=
  outdated limit now obs && health.contains obs.resource && op.id == obs.operation

/-- The operations of a result after expiry. -/
def expiredOperations (limit : Nat) (now : Time) (health : Table Health)
    (result : CheckResult) : List Operation :=
  downgrade (fun op => decide (numSeconds now op.observedAt > limit)
    || result.observations.any (spoils limit now health op)) .stale result.operations

/-- A result after expiry. -/
def expiredResult (limit : Nat) (now : Time) (health : Table Health)
    (result : CheckResult) : CheckResult :=
  { result with operations := expiredOperations limit now health result }

/-- Some outdated observation of a result is about the resource. -/
def outdatedOf (limit : Nat) (now : Time) (result : CheckResult) (resource : String) : Bool :=
  result.observations.any fun obs => obs.resource == resource && outdated limit now obs

/-- Some stored observation of the resource is outdated. -/
def outdatedIn (snapshot : Snapshot) (freshness : Nat) (now : Time) (resource : String) :
    Bool :=
  snapshot.results.toList.any fun e =>
    outdatedOf (limitAt snapshot freshness e.1) now e.2 resource

/-! ## One result -/

/-- Two downgrades are one, when neither completes an operation. -/
theorem downgrade_downgrade {p q : Operation → Bool} {coverage : Coverage}
    (hne : coverage ≠ .complete)
    (ops : List Operation) :
    downgrade p coverage (downgrade q coverage ops)
      = downgrade (fun op => q op || p op) coverage ops := by
  unfold downgrade
  rw [List.map_map]
  refine List.map_congr_left fun op _ => ?_
  by_cases hc : op.coverage = .complete
  · cases hq : q op <;> cases hop : p op <;> simp [hc, hq, hop, hne]
  · simp [hc]

/-- Setting entries that exist to a value. -/
theorem contains_insert_of_contains {table : Table Health} {j k : String} {v : Health}
    (h : table.contains k = true) : (table.insert k v).contains j = table.contains j := by
  rw [Std.ExtTreeMap.contains_insert]
  by_cases hk : k = j
  · subst hk
    simp [h]
  · simp [hk]

theorem spoils_congr {health health' : Table Health}
    (h : ∀ r, health.contains r = health'.contains r) (op : Operation) :
    spoils limit now health op = spoils limit now health' op := by
  funext obs
  rw [spoils, spoils, h]

/-- The observation loop of one result in closed form. -/
theorem foldl_expireObservation (l : List Observation) : ∀ (ops : List Operation)
    (health : Table Health),
    (l.foldl (expireObservation limit now) (ops, health)).1
        = downgrade (fun op => l.any (spoils limit now health op)) .stale ops
    ∧ (∀ r, (l.foldl (expireObservation limit now) (ops, health)).2[r]?
        = (health[r]?).map fun h =>
            if l.any fun obs => obs.resource == r && outdated limit now obs then .unknown
            else h) := by
  induction l with
  | nil =>
      intro ops health
      simp [downgrade]
  | cons obs l ih =>
      intro ops health
      rw [List.foldl_cons]
      cases hcond : outdated limit now obs && health.contains obs.resource with
      | false =>
          have hstep : expireObservation limit now (ops, health) obs = (ops, health) := by
            simp only [expireObservation, hcond, Bool.false_eq_true, if_false]
          rw [hstep]
          obtain ⟨hops, hhealth⟩ := ih ops health
          constructor
          · rw [hops]
            congr 1
            funext op
            simp [spoils, hcond]
          · intro r
            rw [hhealth r]
            cases hr : health[r]? with
            | none => rfl
            | some h =>
                have : (obs.resource == r && outdated limit now obs) = false := by
                  by_cases he : obs.resource = r
                  · have hin : health.contains obs.resource = true := by
                      rw [he, Std.ExtTreeMap.contains_eq_isSome_getElem?, hr]
                      rfl
                    rw [hin, Bool.and_true] at hcond
                    simp [hcond]
                  · simp [he]
                simp [List.any_cons, this]
      | true =>
          have hstep : expireObservation limit now (ops, health) obs
              = (downgrade (·.id == obs.operation) .stale ops,
                  health.insert obs.resource .unknown) := by
            simp only [expireObservation, hcond, if_true]
          simp only [Bool.and_eq_true] at hcond
          rw [hstep]
          obtain ⟨hops, hhealth⟩ := ih (downgrade (·.id == obs.operation) .stale ops)
            (health.insert obs.resource .unknown)
          constructor
          · rw [hops, downgrade_downgrade (by decide)]
            congr 1
            funext op
            rw [spoils_congr (fun r => contains_insert_of_contains hcond.2) op,
              List.any_cons]
            simp [spoils, hcond.1, hcond.2]
          · intro r
            rw [hhealth r, Std.ExtTreeMap.getElem?_insert]
            by_cases he : obs.resource = r
            · subst he
              obtain ⟨h, hr⟩ := Table.mem_iff_getElem?.mp
                (Std.ExtTreeMap.contains_iff_mem.mp hcond.2)
              simp [hr, hcond.1]
            · have hb : (obs.resource == r) = false := by simpa using he
              simp [he, hb]

theorem expireResult_eq (result : CheckResult) (health : Table Health) :
    (expireResult limit now result health).1 = expiredResult limit now health result
    ∧ ∀ r, (expireResult limit now result health).2[r]?
        = (health[r]?).map fun h =>
            if outdatedOf limit now result r then .unknown else h := by
  obtain ⟨hops, hhealth⟩ := @foldl_expireObservation limit now
    result.observations
    (downgrade (fun op => numSeconds now op.observedAt > limit) .stale result.operations)
    health
  refine ⟨?_, hhealth⟩
  unfold expireResult
  dsimp only
  rw [hops, downgrade_downgrade (by decide)]
  rfl

/-! ## All results -/

/-- The loop over the results in closed form. Health entries are rewritten but
never added or dropped, so every result sees the same keys. -/
theorem foldl_expireStep (freshnessOf : Table Nat) (l : List (String × CheckResult)) :
    ∀ (results : Table CheckResult) (health : Table Health), (l.map Prod.fst).Nodup →
    (∀ k, (l.foldl (expireStep freshnessOf freshness now) (results, health)).1[k]?
        = match l.find? (·.1 == k) with
          | some e =>
              some (expiredResult ((freshnessOf[e.1]?).getD freshness) now health e.2)
          | none => results[k]?)
    ∧ (∀ r, (l.foldl (expireStep freshnessOf freshness now) (results, health)).2[r]?
        = (health[r]?).map fun h =>
            if l.any fun e =>
              outdatedOf ((freshnessOf[e.1]?).getD freshness) now e.2 r then .unknown
            else h) := by
  induction l with
  | nil => intro results health _; simp
  | cons e l ih =>
      intro results health hnd
      rw [List.map_cons, List.nodup_cons] at hnd
      obtain ⟨hresult, hhealth⟩ := @expireResult_eq
        ((freshnessOf[e.1]?).getD freshness) now e.2 health
      rw [List.foldl_cons]
      have hstep : expireStep freshnessOf freshness now (results, health) e
          = (results.insert e.1
              (expireResult ((freshnessOf[e.1]?).getD freshness) now e.2 health).1,
            (expireResult ((freshnessOf[e.1]?).getD freshness) now e.2 health).2) := rfl
      rw [hstep, hresult]
      generalize hout :
        (expireResult ((freshnessOf[e.1]?).getD freshness) now e.2 health).2 = out at hhealth ⊢
      have hcontains : ∀ r, out.contains r = health.contains r := by
        intro r
        rw [Std.ExtTreeMap.contains_eq_isSome_getElem?,
          Std.ExtTreeMap.contains_eq_isSome_getElem?, hhealth, Option.isSome_map]
      have hexpired : ∀ limit result,
          expiredResult limit now out result = expiredResult limit now health result := by
        intro limit result
        unfold expiredResult expiredOperations
        simp only [spoils_congr hcontains]
      obtain ⟨ihresults, ihhealth⟩ := ih (results.insert e.1
        (expiredResult ((freshnessOf[e.1]?).getD freshness) now health e.2)) out hnd.2
      constructor
      · intro k
        rw [ihresults k, List.find?_cons]
        by_cases hk : e.1 = k
        · have hnone : l.find? (·.1 == k) = none := by
            rw [List.find?_eq_none]
            intro d hd
            simpa using fun hdk => hnd.1 (List.mem_map.mpr ⟨d, hd, hdk.trans hk.symm⟩)
          simp [hnone, hk]
        · have hb : (e.1 == k) = false := by simpa using hk
          simp only [hb]
          cases l.find? (·.1 == k) with
          | some d => simp only [hexpired]
          | none => simp [Std.ExtTreeMap.getElem?_insert, hk]
      · intro r
        rw [ihhealth r, hhealth r]
        cases health[r]? with
        | none => rfl
        | some h =>
            simp only [Option.map_some, List.any_cons, Bool.or_eq_true]
            split_ifs <;> tauto

/-! ## The whole expiry -/

/-- A stored result keeps everything but the coverage of its operations. -/
theorem expire_results (key : String) :
    (expire snapshot freshness now).1.results[key]?
      = (snapshot.results[key]?).map
          (expiredResult (limitAt snapshot freshness key) now snapshot.health) := by
  have h := (@foldl_expireStep freshness now snapshot.freshness
    snapshot.results.toList snapshot.results snapshot.health
    (Table.nodup_keys _)).1 key
  have hrw : (expire snapshot freshness now).1.results
      = (snapshot.results.toList.foldl (expireStep snapshot.freshness freshness now)
          (snapshot.results, snapshot.health)).1 := rfl
  rw [hrw, h]
  rw [Table.find?_toList]
  cases snapshot.results[key]? <;> rfl

/-- A resource becomes unknown as soon as one of its observations is
outdated. -/
theorem expire_health (resource : String) :
    (expire snapshot freshness now).1.health[resource]?
      = (snapshot.health[resource]?).map fun health =>
          if outdatedIn snapshot freshness now resource then .unknown else health :=
  (@foldl_expireStep freshness now snapshot.freshness
    snapshot.results.toList snapshot.results snapshot.health
    (Table.nodup_keys _)).2 resource

theorem expire_findings (id : String) :
    (expire snapshot freshness now).1.findings[id]?
      = (snapshot.findings[id]?).map (age freshness now) := by
  have hrw : (expire snapshot freshness now).1.findings
      = snapshot.findings.map fun _ finding => age freshness now finding := rfl
  rw [hrw, Std.ExtTreeMap.getElem?_map]

theorem expire_findings_size :
    (expire snapshot freshness now).1.findings.size = snapshot.findings.size :=
  Std.ExtTreeMap.size_map

@[simp] theorem expire_retired :
    (expire snapshot freshness now).1.retired = snapshot.retired := rfl

@[simp] theorem expire_confirmations :
    (expire snapshot freshness now).1.confirmations = snapshot.confirmations := rfl

@[simp] theorem expire_capturedAt :
    (expire snapshot freshness now).1.capturedAt = snapshot.capturedAt := rfl

/-- An operation is complete after expiry exactly when it was complete, is
itself current, and owns no outdated observation with a health entry. -/
theorem mem_completeIds_expired {health : Table Health} {result : CheckResult} {id : String} :
    id ∈ completeIds (expiredOperations limit now health result)
      ↔ ∃ op ∈ result.operations, op.id = id ∧ op.coverage = .complete
          ∧ numSeconds now op.observedAt ≤ limit
          ∧ ∀ obs ∈ result.observations, obs.operation = id →
              health.contains obs.resource = true → outdated limit now obs = false := by
  rw [mem_completeIds]
  constructor
  · rintro ⟨op, hop, rfl, hc⟩
    obtain ⟨old, hold, rfl⟩ := List.mem_map.mp hop
    split at hc
    · cases hc
    · rename_i hcond
      rw [if_neg hcond]
      simp only [hc, Bool.and_eq_true, Bool.or_eq_true, decide_eq_true_eq, beq_self_eq_true,
        and_true, not_or, List.any_eq_true, not_exists, not_and, Bool.not_eq_true] at hcond
      refine ⟨old, hold, rfl, hc, by omega, fun obs hobs hid hin => ?_⟩
      have := hcond.2 obs hobs
      rw [spoils, hin, hid] at this
      simpa using this
  · rintro ⟨op, hop, rfl, hc, htime, hobs⟩
    refine ⟨op, List.mem_map.mpr ⟨op, hop, ?_⟩, rfl, hc⟩
    rw [if_neg]
    simp only [hc, Bool.and_eq_true, Bool.or_eq_true, decide_eq_true_eq, beq_self_eq_true,
      and_true, not_or, List.any_eq_true, not_exists, not_and]
    refine ⟨by omega, fun obs ho hspoils => ?_⟩
    simp only [spoils, Bool.and_eq_true, beq_iff_eq] at hspoils
    have := hobs obs ho hspoils.2.symm hspoils.1.2
    rw [this] at hspoils
    exact absurd hspoils.1.1 (by simp)

end HealthMonitor.State
