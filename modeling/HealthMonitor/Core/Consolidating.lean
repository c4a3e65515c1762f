import HealthMonitor.Core.Correlation
import HealthMonitor.Library.Coalesce
import Mathlib.Data.List.Pairwise
import Mathlib.Order.MinMax

/-!
# Consolidating

Consolidating recovery points merges the observations of a result by resource, so
what is left of a resource is told by its records alone: the fields of its latest
attempt and its latest success.
-/

namespace HealthMonitor

/-! ## Absent instants -/

theorem optionMax_cases (a b : Option Time) : optionMax a b = a ∨ optionMax a b = b := by
  cases a with
  | none => exact .inr (by cases b <;> rfl)
  | some a =>
      cases b with
      | none => exact .inl rfl
      | some b => exact (max_choice a b).imp (congrArg some) (congrArg some)

theorem optionLt_optionMax (a b : Option Time) :
    optionLt (optionMax a b) a = false ∧ optionLt (optionMax a b) b = false := by
  cases a <;> cases b <;> simp [optionMax, optionLt]

theorem optionLt_trans_le {a b c : Option Time} (h : optionLt b a = false)
    (h' : optionLt c b = false) : optionLt c a = false := by
  cases a with
  | none => cases c <;> rfl
  | some a =>
      cases b with
      | none => cases h
      | some b =>
          cases c with
          | none => cases h'
          | some c =>
              simp only [optionLt, decide_eq_false_iff_not, not_lt] at h h' ⊢
              exact h.trans h'

theorem optionLt_antisymm {a b : Option Time} (h : optionLt a b = false)
    (h' : optionLt b a = false) : a = b := by
  cases a with
  | none =>
      cases b with
      | none => rfl
      | some b => cases h
  | some a =>
      cases b with
      | none => cases h'
      | some b =>
          simp only [optionLt, decide_eq_false_iff_not, not_lt] at h h'
          exact congrArg some (le_antisymm h' h)

theorem optionLt_false_of_lt {a b : Option Time} (h : optionLt a b = true) :
    optionLt b a = false := by
  cases a with
  | none => cases b <;> rfl
  | some a =>
      cases b with
      | none => cases h
      | some b =>
          simp only [optionLt, decide_eq_true_eq, decide_eq_false_iff_not, not_lt] at h ⊢
          exact h.le

namespace Recovery

/-! ## Records of a resource -/

/-- The resource a recovery point belongs to. -/
def recoveryOf (obs : Observation) : Option String :=
  match obs.data with
  | .recovery _ => some obs.resource
  | _ => none

def attempt (obs : Observation) : Option Time :=
  match obs.data with
  | .recovery recovery => recovery.lastAttempt
  | _ => none

def success (obs : Observation) : Option Time :=
  match obs.data with
  | .recovery recovery => recovery.lastSuccess
  | _ => none

/-- The observation with another last success. -/
def withSuccess (obs : Observation) (instant : Option Time) : Observation :=
  match obs.data with
  | .recovery recovery => { obs with data := .recovery { recovery with lastSuccess := instant } }
  | _ => obs

/-- What is kept of two records of one resource. -/
def combine (old obs : Observation) : Observation :=
  let combined := optionMax (success old) (success obs)
  if optionLt (attempt old) (attempt obs) then withSuccess obs combined
  else withSuccess old combined

variable {old obs : Observation} {resource : String}

theorem recoveryOf_eq_some : recoveryOf obs = some resource ↔
    (∃ recovery, obs.data = .recovery recovery) ∧ obs.resource = resource := by
  unfold recoveryOf
  cases hdata : obs.data with
  | recovery recovery => simp
  | _ => simp

@[simp] theorem recoveryOf_withSuccess (instant : Option Time) :
    recoveryOf (withSuccess obs instant) = recoveryOf obs := by
  unfold withSuccess
  cases hdata : obs.data with
  | recovery recovery => simp [recoveryOf, hdata]
  | _ => rfl

@[simp] theorem attempt_withSuccess (instant : Option Time) :
    attempt (withSuccess obs instant) = attempt obs := by
  unfold withSuccess
  cases hdata : obs.data with
  | recovery recovery => simp [attempt, hdata]
  | _ => rfl

theorem success_withSuccess (h : recoveryOf obs = some resource) (instant : Option Time) :
    success (withSuccess obs instant) = instant := by
  obtain ⟨⟨recovery, hdata⟩, -⟩ := recoveryOf_eq_some.mp h
  simp [withSuccess, success, hdata]

@[simp] theorem withSuccess_withSuccess (first instant : Option Time) :
    withSuccess (withSuccess obs first) instant = withSuccess obs instant := by
  cases hdata : obs.data with
  | recovery recovery => simp [withSuccess, hdata]
  | _ => simp [withSuccess, hdata]

theorem withSuccess_self : withSuccess obs (success obs) = obs := by
  unfold withSuccess success
  cases hdata : obs.data with
  | recovery recovery => simp [← hdata]
  | _ => rfl

theorem recoveryOf_combine (hold : recoveryOf old = some resource)
    (hobs : recoveryOf obs = some resource) : recoveryOf (combine old obs) = some resource := by
  unfold combine
  dsimp only
  split
  · rw [recoveryOf_withSuccess, hobs]
  · rw [recoveryOf_withSuccess, hold]

/-- Consolidating is merging by resource. -/
theorem consolidate_eq_coalesce (observations : List Observation) :
    consolidate observations = Coalesce.coalesce recoveryOf combine observations := by
  have hmerge : ∀ (obs : Observation) (recovery : Recovery), obs.data = .recovery recovery →
      ∀ output, mergeInto obs recovery output =
        Coalesce.mergeInto recoveryOf combine obs obs.resource output := by
    intro obs recovery hobs output
    induction output with
    | nil => rfl
    | cons old rest ih =>
        simp only [mergeInto, Coalesce.mergeInto, ih]
        cases hold : old.data with
        | recovery previous =>
            have hcombine : merge old previous obs recovery = combine old obs := by
              simp [merge, combine, attempt, success, withSuccess, hold, hobs]
            simp [recoveryOf, hold, hcombine]
        | _ => simp [recoveryOf, hold]
  have hstep : consolidateStep = Coalesce.step recoveryOf combine := by
    funext output obs
    unfold consolidateStep Coalesce.step
    cases hobs : obs.data with
    | recovery recovery => simp [recoveryOf, hobs, hmerge obs recovery hobs]
    | _ => simp [recoveryOf, hobs]
  rw [consolidate, hstep, Coalesce.coalesce]

/-! ## The record that is left -/

/-- The fields of a latest attempt, with the latest success of all records. -/
structure Consolidated (records : List Observation) (obs : Observation) : Prop where
  latest : ∃ latest ∈ records, obs = withSuccess latest (success obs) ∧
    ∀ other ∈ records, optionLt (attempt latest) (attempt other) = false
  attained : ∃ best ∈ records, success obs = success best
  greatest : ∀ other ∈ records, optionLt (success obs) (success other) = false

theorem consolidated_single : Consolidated [obs] obs where
  latest := ⟨obs, List.mem_singleton_self _, withSuccess_self.symm, fun other hother => by
    rw [List.mem_singleton.mp hother]
    cases attempt obs <;> simp [optionLt]⟩
  attained := ⟨obs, List.mem_singleton_self _, rfl⟩
  greatest other hother := by
    rw [List.mem_singleton.mp hother]
    cases success obs <;> simp [optionLt]

/-- One more record of the resource. -/
theorem Consolidated.combine {records : List Observation}
    (hrecords : ∀ record ∈ records, recoveryOf record = some resource)
    (hobs : recoveryOf obs = some resource) (h : Consolidated records old) :
    Consolidated (records ++ [obs]) (combine old obs) := by
  obtain ⟨latest, hmem, hold, hlatest⟩ := h.latest
  have hattempt : attempt old = attempt latest := by rw [hold, attempt_withSuccess]
  have hsuccess : success (Recovery.combine old obs) = optionMax (success old) (success obs) := by
    have hrecovery : recoveryOf old = some resource := by
      rw [hold, recoveryOf_withSuccess, hrecords latest hmem]
    unfold Recovery.combine
    dsimp only
    split
    · exact success_withSuccess hobs _
    · exact success_withSuccess hrecovery _
  refine ⟨?_, ?_, ?_⟩
  · unfold Recovery.combine at hsuccess ⊢
    dsimp only at hsuccess ⊢
    split
    · rename_i hlater
      rw [if_pos hlater] at hsuccess
      refine ⟨obs, by simp, by rw [hsuccess], fun other hother => ?_⟩
      rcases List.mem_append.mp hother with hother | hother
      · exact optionLt_trans_le (hlatest other hother)
          (hattempt ▸ optionLt_false_of_lt hlater)
      · rw [List.mem_singleton.mp hother]
        cases attempt obs <;> simp [optionLt]
    · rename_i hlater
      rw [if_neg hlater] at hsuccess
      refine ⟨latest, by simp [hmem], ?_, fun other hother => ?_⟩
      · rw [hsuccess]
        exact (congrArg (withSuccess · _) hold).trans (withSuccess_withSuccess ..)
      · rcases List.mem_append.mp hother with hother | hother
        · exact hlatest other hother
        · rw [List.mem_singleton.mp hother, ← hattempt]
          exact Bool.eq_false_iff.mpr hlater
  · rw [hsuccess]
    rcases optionMax_cases (success old) (success obs) with heq | heq
    · obtain ⟨best, hbest, hbestold⟩ := h.attained
      exact ⟨best, by simp [hbest], heq.trans hbestold⟩
    · exact ⟨obs, by simp, heq⟩
  · rw [hsuccess]
    obtain ⟨hleft, hright⟩ := optionLt_optionMax (success old) (success obs)
    intro other hother
    rcases List.mem_append.mp hother with hother | hother
    · exact optionLt_trans_le (h.greatest other hother) hleft
    · rw [List.mem_singleton.mp hother]
      exact hright

/-- The records of one resource, consolidated, are none or one. -/
theorem merged_cases {records : List Observation}
    (hrecords : ∀ record ∈ records, recoveryOf record = some resource) :
    records = [] ∧ Coalesce.merged Recovery.combine records = [] ∨
      ∃ obs, Coalesce.merged Recovery.combine records = [obs] ∧ Consolidated records obs := by
  induction records using List.reverseRecOn with
  | nil => exact .inl ⟨rfl, rfl⟩
  | append_singleton records obs ih =>
      right
      have hobs := hrecords obs (by simp)
      have hbefore : ∀ record ∈ records, recoveryOf record = some resource :=
        fun record hrecord => hrecords record (by simp [hrecord])
      rw [Coalesce.merged_concat]
      rcases ih hbefore with ⟨rfl, hmerged⟩ | ⟨old, hmerged, hold⟩
      · rw [hmerged]
        exact ⟨obs, rfl, consolidated_single⟩
      · rw [hmerged]
        exact ⟨_, rfl, hold.combine hbefore hobs⟩

/-- With different attempt times, what is left does not depend on the order. -/
theorem Consolidated.unique {records permuted : List Observation} {a b : Observation}
    (hperm : permuted.Perm records)
    (hdistinct : records.Pairwise fun a b => attempt a ≠ attempt b)
    (ha : Consolidated records a) (hb : Consolidated permuted b) : a = b := by
  obtain ⟨latest, hmem, heq, hlatest⟩ := ha.latest
  obtain ⟨latest', hmem', heq', hlatest'⟩ := hb.latest
  have hattempt : attempt latest = attempt latest' :=
    optionLt_antisymm (hlatest latest' (hperm.mem_iff.mp hmem'))
      (hlatest' latest (hperm.mem_iff.mpr hmem))
  have hsame : latest = latest' := by
    have hsymm : Std.Symm fun a b : Observation => attempt a ≠ attempt b :=
      { symm _ _ h := h.symm }
    by_contra hne
    exact hdistinct.forall hmem (hperm.mem_iff.mp hmem') hne hattempt
  obtain ⟨best, hbest, hsuccess⟩ := ha.attained
  obtain ⟨best', hbest', hsuccess'⟩ := hb.attained
  have hsuccess : success a = success b := by
    refine optionLt_antisymm ?_ ?_
    · rw [hsuccess']
      exact ha.greatest best' (hperm.mem_iff.mp hbest')
    · rw [hsuccess]
      exact hb.greatest best (hperm.mem_iff.mpr hbest)
  rw [heq, heq', hsame, hsuccess]

/-! ## Consolidation -/

/-- The records of a resource, in their order. -/
abbrev recordsOf (resource : String) (observations : List Observation) : List Observation :=
  observations.filter (recoveryOf · = some resource)

/-- Consolidation leaves one record of each resource that has any, with the fields of its
latest attempt and its latest success, and does nothing to other observations. Doing it
twice changes nothing, and the order of records with different attempt times is
immaterial. -/
theorem consolidate_spec (observations : List Observation) :
    (∀ resource, recordsOf resource observations = [] ∧
        recordsOf resource (consolidate observations) = [] ∨
      ∃ obs, recordsOf resource (consolidate observations) = [obs] ∧
        Consolidated (recordsOf resource observations) obs) ∧
    (consolidate observations).filter (recoveryOf · = none) =
      observations.filter (recoveryOf · = none) ∧
    consolidate (consolidate observations) = consolidate observations ∧
    ((∀ resource, (recordsOf resource observations).Pairwise fun a b => attempt a ≠ attempt b) →
      ∀ permuted : List Observation, permuted.Perm observations →
        (∀ resource, recordsOf resource (consolidate permuted) =
          recordsOf resource (consolidate observations)) ∧
        ((consolidate permuted).filter (recoveryOf · ≠ none)).Perm
          ((consolidate observations).filter (recoveryOf · ≠ none))) := by
  have hkey : ∀ {resource : String} {old obs : Observation}, recoveryOf old = some resource →
      recoveryOf obs = some resource → recoveryOf (Recovery.combine old obs) = some resource :=
    fun hold hobs => recoveryOf_combine hold hobs
  have hrecords : ∀ (observations : List Observation) (resource : String),
      ∀ record ∈ recordsOf resource observations, recoveryOf record = some resource :=
    fun _ _ _ hrecord => (Coalesce.mem_ofKey.mp hrecord).2
  have hleft : ∀ observations resource, recordsOf resource (consolidate observations) =
      Coalesce.merged Recovery.combine (recordsOf resource observations) := by
    intro observations resource
    rw [consolidate_eq_coalesce]
    exact Coalesce.ofKey_coalesce hkey resource observations
  refine ⟨fun resource => ?_, ?_, ?_, fun hdistinct permuted hperm => ?_⟩
  · rw [hleft]
    exact merged_cases (hrecords observations resource)
  · rw [consolidate_eq_coalesce]
    exact Coalesce.unkeyed_coalesce hkey observations
  · rw [consolidate_eq_coalesce, consolidate_eq_coalesce, Coalesce.coalesce_coalesce hkey]
  · have hsame : ∀ resource, recordsOf resource (consolidate permuted) =
        recordsOf resource (consolidate observations) := by
      intro resource
      have hparts : (recordsOf resource permuted).Perm (recordsOf resource observations) :=
        hperm.filter _
      rw [hleft, hleft]
      rcases merged_cases (hrecords observations resource) with ⟨hnil, -⟩ | ⟨a, hmerged, ha⟩
      · rw [hnil] at hparts ⊢
        rw [List.perm_nil.mp hparts]
      · rcases merged_cases (hrecords permuted resource) with ⟨hnil, -⟩ | ⟨b, hmerged', hb⟩
        · rw [hnil] at hparts
          rw [hnil, List.nil_perm.mp hparts]
        · rw [hmerged, hmerged', ha.unique hparts (hdistinct resource) hb]
    exact ⟨hsame, Coalesce.keyed_perm hsame⟩

end Recovery

end HealthMonitor
