import HealthMonitor.Core.Scanning

/-!
# Settlement

What happens to the findings after the scan: each is settled against its own
removal counter, the ones that recovered or were removed are retired, and the
oldest retired entries are trimmed.
-/

namespace HealthMonitor.State

theorem confirmationKey_injective (job : Job) :
    ∀ j k, confirmationKey job j = confirmationKey job k → j = k := by
  intro j k h
  have := congrArg String.toList h
  simp only [confirmationKey, String.toList_append, List.append_cancel_left_eq] at this
  exact String.ext this

/-! ## One finding -/

/-- The removal counter that survives the sightings of the stored result. -/
def sighted (s : Settling) (finding : Finding) (confirmation : Option RemovalConfirmation) :
    Option RemovalConfirmation :=
  if CheckResult.reports s.stored finding.resource then none else confirmation

/-- The four ways to settle a finding. -/
inductive Settles (s : Settling) (id : String) (finding : Finding)
    (confirmation : Option RemovalConfirmation) :
    Table.Visit Finding RemovalConfirmation (String × TransitionKind) → Prop where
  /-- It was detected again. -/
  | detected (h : id ∈ s.current) :
      Settles s id finding confirmation ⟨finding, sighted s finding confirmation, []⟩
  /-- Clearing evidence arrived. -/
  | cleared (hid : id ∉ s.current) (time : Time) (h : s.index.clearFor finding = some time)
      (report : List (String × TransitionKind))
      (hreport : report
        = if s.job.settings.recoverConfirmations ≤ saturatingSucc finding.clearCount then
            [(id, .recovered)]
          else []) :
      Settles s id finding confirmation
        ⟨State.cleared s.job finding time, sighted s finding confirmation, report⟩
  /-- An authoritative result lacks the resource. -/
  | absent (hid : id ∉ s.current) (hclear : s.index.clearFor finding = none)
      (h : removable s finding (sighted s finding confirmation).isSome = true)
      (c : RemovalConfirmation)
      (hc : c = confirm finding (sighted s finding confirmation) (absentAt s.stored finding))
      (report : List (String × TransitionKind))
      (hreport : report
        = if s.job.settings.removalConfirmations ≤ c.count then [(id, .removed)] else []) :
      Settles s id finding confirmation ⟨finding, some c, report⟩
  /-- Nothing is known about it. -/
  | unknown (hid : id ∉ s.current) (hclear : s.index.clearFor finding = none)
      (h : removable s finding (sighted s finding confirmation).isSome = false) :
      Settles s id finding confirmation ⟨finding, sighted s finding confirmation, []⟩

theorem settles (s : Settling) (id : String) (finding : Finding)
    (confirmation : Option RemovalConfirmation) :
    Settles s id finding confirmation (settleFinding s id finding confirmation) := by
  unfold settleFinding
  dsimp only
  rw [← sighted]
  split
  · rename_i h
    exact .detected (by simpa using h)
  · rename_i h
    have hid : id ∉ s.current := by simpa using h
    split
    · rename_i time ht
      exact .cleared hid time ht _ rfl
    · rename_i hclear
      split
      · rename_i hr
        exact .absent hid hclear hr _ rfl _ rfl
      · rename_i hr
        exact .unknown hid hclear (by simpa using hr)

/-- Settling keeps what a finding is about. -/
structure SameFinding (f g : Finding) : Prop where
  id : f.id = g.id
  resource : f.resource = g.resource
  rule : f.rule = g.rule
  severity : f.severity = g.severity
  evidence : f.evidence = g.evidence
  check : f.check = g.check
  diagnostic : f.diagnostic = g.diagnostic

theorem settleFinding_same (s : Settling) (id : String) (finding : Finding)
    (confirmation : Option RemovalConfirmation) :
    SameFinding (settleFinding s id finding confirmation).value finding := by
  have h := settles s id finding confirmation
  generalize settleFinding s id finding confirmation = visit at h ⊢
  cases h <;> exact ⟨rfl, rfl, rfl, rfl, rfl, rfl, rfl⟩

/-- A finding reports under its own id, at most once. -/
theorem settleFinding_report (s : Settling) (id : String) (finding : Finding)
    (confirmation : Option RemovalConfirmation) :
    (settleFinding s id finding confirmation).report = []
    ∨ (settleFinding s id finding confirmation).report = [(id, .recovered)]
    ∨ (settleFinding s id finding confirmation).report = [(id, .removed)] := by
  have h := settles s id finding confirmation
  generalize settleFinding s id finding confirmation = visit at h ⊢
  cases h with
  | detected => exact .inl rfl
  | cleared _ _ _ report hreport =>
      subst hreport
      dsimp only
      split
      · exact .inr (.inl rfl)
      · exact .inl rfl
  | absent _ _ _ _ _ report hreport =>
      subst hreport
      dsimp only
      split
      · exact .inr (.inr rfl)
      · exact .inl rfl
  | unknown => exact .inl rfl

/-! ## All findings -/

section Settle

variable {s : Settling} {findings : Table Finding}
  {confirmations : Table RemovalConfirmation} {id : String}

theorem settle_entries : (settle s findings confirmations).entries[id]?
    = (findings[id]?).map fun f =>
        (settleFinding s id f confirmations[confirmationKey s.job id]?).value :=
  Table.sweep_entries (confirmationKey_injective s.job) findings confirmations id

theorem settle_slot : (settle s findings confirmations).slots[confirmationKey s.job id]?
    = match findings[id]? with
      | some f => (settleFinding s id f confirmations[confirmationKey s.job id]?).slot
      | none => confirmations[confirmationKey s.job id]? := by
  rw [settle, Table.sweep_slots (confirmationKey_injective s.job)]
  cases findings[id]? <;> rfl

theorem settle_slot_other {key : String} (h : ∀ id, key ≠ confirmationKey s.job id) :
    (settle s findings confirmations).slots[key]? = confirmations[key]? :=
  Table.sweep_slots_of_notMem (confirmationKey_injective s.job) findings confirmations
    fun id _ he => h id he.symm

theorem settle_reports : (settle s findings confirmations).reports
    = findings.toList.flatMap fun e =>
        (settleFinding s e.1 e.2 confirmations[confirmationKey s.job e.1]?).report :=
  Table.sweep_reports (confirmationKey_injective s.job) findings confirmations

/-- An id is reported by the visit of its own finding. -/
theorem mem_settle_reports {kind : TransitionKind} :
    (id, kind) ∈ (settle s findings confirmations).reports
      ↔ ∃ f, findings[id]? = some f
        ∧ (id, kind)
          ∈ (settleFinding s id f confirmations[confirmationKey s.job id]?).report := by
  rw [settle_reports, List.mem_flatMap]
  constructor
  · rintro ⟨⟨k, f⟩, he, hr⟩
    have hk : id = k := by
      rcases settleFinding_report s k f confirmations[confirmationKey s.job k]?
        with h | h | h <;> rw [h] at hr <;> simp at hr
      · exact hr.1
      · exact hr.1
    subst hk
    exact ⟨f, Table.mem_toList.mp he, hr⟩
  · rintro ⟨f, hf, hr⟩
    exact ⟨(id, f), Table.mem_toList.mpr hf, hr⟩

end Settle

/-! ## Retiring -/

section Retire

variable {now : Time} {r : Retirement} {removed : List (String × TransitionKind)}
  {id key : String}

/-- Retiring is erasing, filtering and inserting, each over the whole list. -/
theorem retire_eq : retire now r removed
    = { findings := removed.foldl (fun table e => table.erase e.1) r.findings
        confirmations := removed.foldl (fun table e =>
          table.retain fun key _ => !Text.endsWith key ("|" ++ e.1)) r.confirmations
        retired := removed.foldl (fun table e =>
          table.insert e.1 { time := now, finding := e.1, kind := e.2 }) r.retired } := by
  unfold retire
  induction removed generalizing r with
  | nil => rfl
  | cons e removed ih =>
      rw [List.foldl_cons, ih]
      rfl

theorem retire_findings : (retire now r removed).findings[id]?
    = if id ∈ removed.map Prod.fst then none else r.findings[id]? := by
  rw [retire_eq, Table.getElem?_foldl_erase Prod.fst]

theorem retire_retired : (retire now r removed).retired[id]?
    = ((removed.findRev? (·.1 == id)).map fun e =>
        { time := now, finding := e.1, kind := e.2 : Transition }).or r.retired[id]? := by
  rw [retire_eq, Table.getElem?_foldl_insert Prod.fst]

/-- A removal counter survives unless its key ends like the id of a retired
finding. -/
theorem retire_confirmations : (retire now r removed).confirmations[key]?
    = if removed.any fun e => Text.endsWith key ("|" ++ e.1) then none
      else r.confirmations[key]? := by
  have h : ∀ (removed : List (String × TransitionKind)) (table : Table RemovalConfirmation),
      (removed.foldl (fun table e =>
        table.retain fun key _ => !Text.endsWith key ("|" ++ e.1)) table)[key]?
      = if removed.any fun e => Text.endsWith key ("|" ++ e.1) then none
        else table[key]? := by
    intro removed
    induction removed with
    | nil => simp
    | cons e removed ih =>
        intro table
        rw [List.foldl_cons, ih, List.any_cons, Table.getElem?_retain]
        cases he : Text.endsWith key ("|" ++ e.1) with
        | true => cases table[key]? <;> simp
        | false =>
            rw [Bool.false_or]
            cases table[key]? <;> simp [Option.filter]
  rw [retire_eq]
  exact h removed r.confirmations

end Retire

/-! ## Trimming -/

section Trim

variable {retired : Table Transition} {limit : Nat} {id : String}

theorem trimmed_nodup : (trimmed retired limit).Nodup := by
  unfold trimmed
  rw [List.map_take]
  refine List.Nodup.sublist (List.take_sublist ..) ?_
  refine ((List.perm_insertionSort older _).map Prod.snd).nodup_iff.mpr ?_
  rw [List.map_map]
  exact Table.nodup_keys retired

theorem trimmed_length : (trimmed retired limit).length = retired.size - limit := by
  simp [trimmed]

theorem mem_of_mem_trimmed (h : id ∈ trimmed retired limit) : id ∈ retired := by
  unfold trimmed at h
  rw [List.map_take] at h
  have h := ((List.perm_insertionSort older _).map Prod.snd).mem_iff.mp (List.mem_of_mem_take h)
  rw [List.map_map] at h
  obtain ⟨e, he, rfl⟩ := List.mem_map.mp h
  exact Table.mem_iff_getElem?.mpr ⟨e.2, Table.mem_toList.mp he⟩

theorem trimRetired_getElem? : (trimRetired retired limit)[id]?
    = if id ∈ trimmed retired limit then none else retired[id]? := by
  rw [trimRetired, Table.getElem?_foldl_erase (fun k => k), List.map_id']

/-- Trimming brings the retired entries down to the limit. -/
theorem trimRetired_size : (trimRetired retired limit).size ≤ limit := by
  have h := Table.size_foldl_erase (@trimmed_nodup retired limit)
    fun _ => mem_of_mem_trimmed
  rw [trimRetired, h, trimmed_length]
  omega

end Trim

end HealthMonitor.State
