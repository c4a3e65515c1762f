import HealthMonitor.Core.CollectionBudget
import HealthMonitor.Core.Expiry

/-!
# Silence

Expiry takes coverage and health away without a word: it causes a transition only where a
finding ages. What differs between a snapshot and the same snapshot after expiries that
caused none is that complete operations are stale and that resources are unknown.
-/

namespace HealthMonitor

open State

/-- A stored result, and itself with some complete operations gone stale. -/
def Dimmed (before after : CheckResult) : Prop :=
  ∃ p, after = { before with operations := downgrade p .stale before.operations }

/-- A snapshot, and the same after expiries that caused no transition. Nobody is told of
these: coverage and health are less than they were, and all else is the same. -/
structure Behind (before after : Snapshot) : Prop where
  revision : after.revision = before.revision
  capturedAt : after.capturedAt = before.capturedAt
  findings : after.findings = before.findings
  freshness : after.freshness = before.freshness
  results : ∀ key : String, Option.Rel Dimmed before.results[key]? after.results[key]?
  health : ∀ resource : String, after.health[resource]? = before.health[resource]?
    ∨ (before.health[resource]?).isSome = true ∧ after.health[resource]? = some .unknown

section Silence

variable {before after last : CheckResult}

theorem downgrade_false (coverage : Coverage) (ops : List Operation) :
    downgrade (fun _ => false) coverage ops = ops := by
  simp [downgrade]

theorem Dimmed.refl (result : CheckResult) : Dimmed result result :=
  ⟨fun _ => false, by rw [downgrade_false]⟩

theorem Dimmed.trans (h : Dimmed before after) (h' : Dimmed after last) : Dimmed before last := by
  obtain ⟨p, rfl⟩ := h
  obtain ⟨q, rfl⟩ := h'
  exact ⟨fun op => p op || q op, by rw [downgrade_downgrade (by decide)]⟩

/-- What is complete was complete. -/
theorem Dimmed.complete (h : Dimmed before after) (hcomplete : after.complete = true) :
    before.complete = true := by
  obtain ⟨p, rfl⟩ := h
  rw [CheckResult.complete, Bool.and_eq_true, List.all_eq_true] at hcomplete ⊢
  obtain ⟨hsome, hall⟩ := hcomplete
  refine ⟨by simpa [downgrade] using hsome, fun op hop => ?_⟩
  have hlower := hall _ (List.mem_map_of_mem hop)
  by_cases hkeep : (op.coverage == .complete) = true
  · rw [hkeep, Bool.or_true]
  · have hcoverage : op.coverage ≠ .complete := by simpa using hkeep
    simpa [hcoverage] using hlower

theorem relDimmed_trans {a b c : Option CheckResult} (h : Option.Rel Dimmed a b)
    (h' : Option.Rel Dimmed b c) : Option.Rel Dimmed a c := by
  cases h with
  | none =>
      cases h' with
      | none => exact .none
  | some h =>
      cases h' with
      | some h' => exact .some (h.trans h')

theorem relDimmed_refl (a : Option CheckResult) : Option.Rel Dimmed a a := by
  cases a with
  | none => exact .none
  | some result => exact .some (.refl result)

end Silence

namespace Behind

variable {before after last : Snapshot}

theorem refl (snapshot : Snapshot) : Behind snapshot snapshot where
  revision := rfl
  capturedAt := rfl
  findings := rfl
  freshness := rfl
  results _ := relDimmed_refl _
  health _ := .inl rfl

theorem trans (h : Behind before after) (h' : Behind after last) : Behind before last where
  revision := h'.revision.trans h.revision
  capturedAt := h'.capturedAt.trans h.capturedAt
  findings := h'.findings.trans h.findings
  freshness := h'.freshness.trans h.freshness
  results key := relDimmed_trans (h.results key) (h'.results key)
  health resource := by
    rcases h'.health resource with heq | ⟨hsome, hunknown⟩
    · rw [heq]
      exact h.health resource
    · rcases h.health resource with heq | ⟨hbefore, -⟩
      · rw [heq] at hsome
        exact .inr ⟨hsome, hunknown⟩
      · exact .inr ⟨hbefore, hunknown⟩

/-- An expiry that causes no transition. -/
theorem of_expire {freshness : Nat} {now : Time}
    (h : (expire before freshness now).2 = []) :
    Behind before (expire before freshness now).1 where
  revision := rfl
  capturedAt := rfl
  freshness := rfl
  findings := by
    have hfresh : ∀ (id : String) (finding : Finding), before.findings[id]? = some finding →
        aged freshness now finding = false := by
      intro id finding hfinding
      have hnone := List.map_eq_nil_iff.mp h
      rw [List.filter_eq_nil_iff] at hnone
      simpa using hnone (id, finding) (Table.mem_toList.mpr hfinding)
    apply Std.ExtTreeMap.ext_getElem?
    intro id
    rw [expire_findings]
    cases hfinding : before.findings[id]? with
    | none => rfl
    | some finding => simp [age, hfresh id finding hfinding]
  results key := by
    rw [expire_results]
    cases before.results[key]? with
    | none => exact .none
    | some result => exact .some ⟨_, rfl⟩
  health resource := by
    rw [expire_health]
    cases before.health[resource]? with
    | none => exact .inl rfl
    | some health =>
        by_cases houtdated : outdatedIn before freshness now resource = true
        · exact .inr ⟨rfl, by simp [houtdated]⟩
        · exact .inl (by simp [houtdated])

theorem observations (h : Behind before after) (key : String) :
    (after.results[key]?).map (·.observations) = (before.results[key]?).map (·.observations) := by
  have hrel := h.results key
  revert hrel
  generalize before.results[key]? = old
  generalize after.results[key]? = new
  intro hrel
  cases hrel with
  | none => rfl
  | some hdimmed =>
      obtain ⟨p, rfl⟩ := hdimmed
      rfl

end Behind

end HealthMonitor
