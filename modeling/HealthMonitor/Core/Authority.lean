import HealthMonitor.Core.Ceilings

/-!
# Authority

The coverage of the result that an apply leaves behind. The index of a pass
takes an operation id as complete as soon as one operation of that id is; the
expiry that ends the pass may still date operations, and the nested flow
application expires once more. A result vouches for an id when neither can make
a difference.
-/

namespace HealthMonitor

open State

variable {host : Host}

/-- Every operation of the id is complete and current, and so is what was
observed under it. -/
structure CheckResult.Vouches (result : CheckResult) (limit : Nat) (now : Time) (id : String) :
    Prop where
  complete : ∀ op ∈ result.operations, op.id = id → op.coverage = .complete
  current : ∀ op ∈ result.operations, op.id = id → numSeconds now op.observedAt ≤ limit
  observed : ∀ obs ∈ result.observations, obs.operation = id → outdated limit now obs = false

instance (result : CheckResult) (limit : Nat) (now : Time) (id : String) :
    Decidable (result.Vouches limit now id) :=
  decidable_of_iff
    ((∀ op ∈ result.operations, op.id = id → op.coverage = .complete)
      ∧ (∀ op ∈ result.operations, op.id = id → numSeconds now op.observedAt ≤ limit)
      ∧ ∀ obs ∈ result.observations, obs.operation = id → outdated limit now obs = false)
    ⟨fun h => ⟨h.1, h.2.1, h.2.2⟩, fun h => ⟨h.complete, h.current, h.observed⟩⟩

namespace CheckResult.Vouches

variable {result : CheckResult} {limit : Nat} {now : Time} {id : String}

/-- Expiry leaves the operations a result vouches for. -/
theorem mem_expired {health : Table Health} (h : result.Vouches limit now id) {op : Operation}
    (hid : op.id = id) :
    op ∈ (expiredResult limit now health result).operations ↔ op ∈ result.operations := by
  have hkeep : ∀ old ∈ result.operations, old.id = id →
      (decide (numSeconds now old.observedAt > limit)
        || result.observations.any (spoils limit now health old)) = false := by
    intro old hold he
    rw [Bool.or_eq_false_iff, decide_eq_false_iff_not, List.any_eq_false]
    refine ⟨Int.not_lt.mpr (h.current old hold he), fun obs hobs hspoils => ?_⟩
    simp only [spoils, Bool.and_eq_true, beq_iff_eq] at hspoils
    rw [h.observed obs hobs (hspoils.2.symm.trans he)] at hspoils
    exact absurd hspoils.1.1 Bool.false_ne_true
  simp only [expiredResult, expiredOperations, downgrade, List.mem_map]
  constructor
  · rintro ⟨old, hold, rfl⟩
    have he : old.id = id := by
      rw [← hid]
      split <;> rfl
    simp only [hkeep old hold he, Bool.false_and, Bool.false_eq_true, if_false]
    exact hold
  · intro hop
    refine ⟨op, hop, ?_⟩
    simp only [hkeep op hop hid, Bool.false_and, Bool.false_eq_true, if_false]

theorem expired {health : Table Health} (h : result.Vouches limit now id) :
    (expiredResult limit now health result).Vouches limit now id where
  complete op hop hid := h.complete op ((h.mem_expired hid).mp hop) hid
  current op hop hid := h.current op ((h.mem_expired hid).mp hop) hid
  observed := h.observed

theorem completeIds_expired {health : Table Health} (h : result.Vouches limit now id)
    (hid : id ∈ completeIds result.operations) :
    id ∈ completeIds (expiredResult limit now health result).operations := by
  obtain ⟨op, hop, rfl, hc⟩ := mem_completeIds.mp hid
  exact mem_completeIds.mpr ⟨op, (h.mem_expired rfl).mpr hop, rfl, hc⟩

end CheckResult.Vouches

namespace State.Application

variable {a : Application}

/-- The result of the pass, as the whole `apply` leaves it: after the nested
flow application, if there is one. -/
def final (host : Host) (a : Application) : Option CheckResult :=
  (State.apply host a.before a.job a.result a.now a.clock).1.results[a.job.key]?

theorem pending_limitAt (freshness : Nat) :
    limitAt (a.pending host) freshness a.job.key = a.job.settings.freshness := by
  rw [limitAt, pending_freshness, prepared, prepare_freshness,
    Std.ExtTreeMap.getElem?_insert_self]
  rfl

theorem after_limitAt (freshness : Nat) :
    limitAt (a.after host) freshness a.job.key = a.job.settings.freshness := by
  rw [after_eq]
  exact pending_limitAt freshness

/-- A nested flow application stores under a key of its own. -/
theorem flowJob_key_ne {job : Job} (h : job.check ≠ .flows) : (flowJob job).key ≠ job.key := by
  intro he
  have hl : (Check.flows).debug.toList = job.check.debug.toList := by
    have := congrArg String.toList he
    simpa only [Job.key, flowJob, String.toList_append, List.append_cancel_left_eq] using this
  revert hl h
  cases job.check <;> decide

/-- The stored result after one expiry, or after two. -/
theorem final_eq : ∃ (health health' : Table Health),
    a.final host = some (expiredResult a.job.settings.freshness a.now health (a.stored host))
    ∨ a.final host
      = some (expiredResult a.job.settings.freshness a.now health'
          (expiredResult a.job.settings.freshness a.now health (a.stored host))) := by
  have hafter := @after_result host a
  rw [pending_limitAt] at hafter
  unfold final State.apply
  dsimp only [collect]
  split
  · rename_i hflows
    -- the nested pass reads the stored results and expires them once more
    have hkey := flowJob_key_ne hflows.2
    obtain ⟨progress, he, _, _⟩ := Flows.evaluate_snapshot (a.after host) (flowJob a.job) a.now
      a.clock
    generalize hb : ({ before := (Flows.evaluate (a.after host) (flowJob a.job) a.now a.clock).1
                       job := flowJob a.job
                       result := (Flows.evaluate (a.after host) (flowJob a.job) a.now a.clock).2
                       now := a.now, clock := a.clock } : Application) = b
    have hbefore : b.before.results[a.job.key]? = (a.after host).results[a.job.key]? := by
      rw [← hb, he]
    have hlimit : limitAt (b.pending host) b.job.settings.freshness a.job.key
        = a.job.settings.freshness := by
      have hfresh : b.before.freshness = (a.after host).freshness := by rw [← hb, he]
      have hbkey : b.job.key ≠ a.job.key := by rw [← hb]; exact hkey
      rw [← @after_limitAt host a b.job.settings.freshness, limitAt, limitAt, pending_freshness,
        prepared, prepare_freshness, Table.getElem?_insert_ne hbkey.symm, hfresh]
    refine ⟨(a.pending host).health, (b.pending host).health, .inr ?_⟩
    have hkey' : a.job.key ≠ b.job.key := by rw [← hb]; exact hkey.symm
    have hnow : b.now = a.now := by rw [← hb]
    show (b.after host).results[a.job.key]? = _
    rw [after_eq, expire_results, hlimit, pending_results, results,
      Table.getElem?_insert_ne hkey', prepared_same.results, hbefore, hafter, Option.map_some,
      hnow]
  · exact ⟨(a.pending host).health, ∅, .inl hafter⟩

/-- What the scanned result vouches for is complete in the final result, which
reports the scanned observations. -/
theorem final_complete {id : String}
    (hid : id ∈ completeIds (a.stored host).operations)
    (h : (a.limited host).Vouches a.job.settings.freshness a.now id) :
    ∃ result, a.final host = some result ∧ result.observations = (a.limited host).observations
      ∧ id ∈ completeIds result.operations
      ∧ ∀ op ∈ result.operations, op.id = id → op.coverage = .complete := by
  have hoperations := stored_operations_limited hid
  have hstored : (a.stored host).Vouches a.job.settings.freshness a.now id := by
    refine ⟨?_, ?_, ?_⟩
    · rw [hoperations]
      exact h.complete
    · rw [hoperations]
      exact h.current
    · rw [stored_observations]
      exact h.observed
  obtain ⟨health, health', he | he⟩ := @final_eq host a
  · exact ⟨_, he, stored_observations, hstored.completeIds_expired hid,
      hstored.expired.complete⟩
  · exact ⟨_, he, stored_observations,
      hstored.expired.completeIds_expired (hstored.completeIds_expired hid),
      hstored.expired.expired.complete⟩

end State.Application

end HealthMonitor
