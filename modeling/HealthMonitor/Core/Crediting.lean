import HealthMonitor.Core.Rewriting
import HealthMonitor.Core.Consolidating

/-!
# Crediting

What correlation may credit a schedule with: the completions of jobs whose owner
record names the controller that the schedule's own record names. The owner records
and the jobs are read as lists of entries, so a table of the source is known from the
entries of each key.
-/

namespace HealthMonitor

theorem optionMax_comm (a b : Option Time) : optionMax a b = optionMax b a := by
  cases a <;> cases b <;> simp [optionMax, max_comm]

theorem optionMax_assoc (a b c : Option Time) :
    optionMax (optionMax a b) c = optionMax a (optionMax b c) := by
  cases a <;> cases b <;> cases c <;> simp [optionMax, max_assoc]

namespace SchedulePolicy

/-! ## Owner records -/

/-- The resource an owner record is about. -/
def ownerOf (obs : Observation) : Option String :=
  match obs.data with
  | .owner _ _ => Text.stripSuffix obs.resource "/owner"
  | _ => none

/-- What a record of a complete operation enters. -/
def ownerEntry (result : CheckResult) (obs : Observation) :
    Option (String × String × Option String) :=
  match obs.data, Text.stripSuffix obs.resource "/owner" with
  | .owner uid ownerUid, some resource =>
      if result.backs obs then some (resource, uid, ownerUid) else none
  | _, _ => none

/-- The record, of a complete operation, gives the resource its uid and owner. -/
def Names (result : CheckResult) (resource uid : String) (owner : Option String) : Prop :=
  ∃ record ∈ result.observations, result.backs record = true ∧
    record.data = .owner uid owner ∧ ownerOf record = some resource

/-- No resource has two owner records. -/
def OneOwner (result : CheckResult) : Prop :=
  ∀ resource, (result.observations.filter (ownerOf · = some resource)).length ≤ 1

variable {result : CheckResult}

theorem oneOwner_of_nodup (h : (result.observations.filterMap ownerOf).Nodup) :
    OneOwner result := by
  intro resource
  have hcount := List.nodup_iff_count_le_one.mp h resource
  simp only [List.count_filterMap, List.countP_eq_length_filter, beq_eq_decide] at hcount
  exact hcount

/-- Only the owner records matter. -/
theorem OneOwner.congr {other : CheckResult} (hone : OneOwner result)
    (h : other.observations.filter (isOwner ·.data)
      = result.observations.filter (isOwner ·.data)) : OneOwner other := by
  have hrecords : ∀ (l : List Observation) (resource : String),
      l.filter (ownerOf · = some resource)
        = (l.filter (isOwner ·.data)).filter (ownerOf · = some resource) := by
    intro l resource
    rw [List.filter_filter]
    refine List.filter_congr fun obs _ => ?_
    unfold ownerOf isOwner
    cases obs.data <;> simp
  intro resource
  rw [hrecords, h, ← hrecords]
  exact hone resource

theorem ownerEntry_eq_some {obs : Observation} {resource uid : String} {owner : Option String} :
    ownerEntry result obs = some (resource, uid, owner) ↔
      result.backs obs = true ∧ obs.data = .owner uid owner ∧ ownerOf obs = some resource := by
  unfold ownerEntry ownerOf
  cases hdata : obs.data with
  | owner uid' owner' =>
      cases Text.stripSuffix obs.resource "/owner" with
      | none => simp
      | some resource' =>
          dsimp only
          split
          · rename_i hbacks
            simp only [hbacks, Option.some.injEq, Prod.mk.injEq, Data.owner.injEq, true_and]
            tauto
          · rename_i hbacks
            simp [hbacks]
  | _ => simp

theorem owners_eq_entries : owners result =
    (result.observations.filterMap (ownerEntry result)).foldl
      (fun table entry => table.insert entry.1 entry.2) ∅ := by
  rw [List.foldl_filterMap, owners]
  congr 1
  funext table obs
  unfold ownerEntry
  cases hdata : obs.data with
  | owner uid owner =>
      cases Text.stripSuffix obs.resource "/owner" with
      | none => rfl
      | some resource =>
          dsimp only
          split <;> rfl
  | _ => rfl

/-- What is inserted in turn is what some entry holds, and with one entry for the key it
is what that one holds. -/
theorem mem_of_foldl_insert {α : Type} {entries : List (String × α)} {k : String} {v : α}
    (h : (entries.foldl (fun table entry => table.insert entry.1 entry.2)
      (∅ : Table α))[k]? = some v) : (k, v) ∈ entries := by
  rw [Table.getElem?_foldl_insert, List.findRev?_eq_find?_reverse] at h
  simp only [Std.ExtTreeMap.getElem?_empty, Option.or_none, Option.map_eq_some_iff] at h
  obtain ⟨entry, hfind, hvalue⟩ := h
  have hmem : entry ∈ entries := List.mem_reverse.mp (List.mem_of_find?_eq_some hfind)
  have hkey : entry.1 = k := by simpa using List.find?_some hfind
  rwa [← hkey, ← hvalue]

theorem exists_of_mem_foldl_insert {α : Type} {entries : List (String × α)} {k : String} {v : α}
    (h : (k, v) ∈ entries) : ∃ w, (entries.foldl (fun table entry =>
      table.insert entry.1 entry.2) (∅ : Table α))[k]? = some w := by
  rw [Table.getElem?_foldl_insert, List.findRev?_eq_find?_reverse]
  have hsome : (entries.reverse.find? (·.1 == k)).isSome = true := by
    rw [List.find?_isSome]
    exact ⟨(k, v), by simpa using h, by simp⟩
  obtain ⟨entry, hfind⟩ := Option.isSome_iff_exists.mp hsome
  exact ⟨entry.2, by rw [hfind]; rfl⟩

/-- A resource is owned as some record says. -/
theorem names_of_owners {resource uid : String} {owner : Option String}
    (h : (owners result)[resource]? = some (uid, owner)) : Names result resource uid owner := by
  rw [owners_eq_entries] at h
  obtain ⟨record, hrecord, hentry⟩ := List.mem_filterMap.mp (mem_of_foldl_insert h)
  exact ⟨record, hrecord, ownerEntry_eq_some.mp hentry⟩

/-- With one record for each resource, it is owned exactly as its record says. -/
theorem owners_eq_some (hone : OneOwner result) {resource uid : String} {owner : Option String} :
    (owners result)[resource]? = some (uid, owner) ↔ Names result resource uid owner := by
  refine ⟨names_of_owners, ?_⟩
  rintro ⟨record, hrecord, h⟩
  have hentry : (resource, uid, owner) ∈ result.observations.filterMap (ownerEntry result) :=
    List.mem_filterMap.mpr ⟨record, hrecord, ownerEntry_eq_some.mpr h⟩
  obtain ⟨⟨uid', owner'⟩, hfound⟩ := exists_of_mem_foldl_insert hentry
  rw [← owners_eq_entries] at hfound
  obtain ⟨other, hother, h'⟩ := names_of_owners hfound
  have hsame : record = other := by
    have hmem : ∀ obs ∈ result.observations, ownerOf obs = some resource →
        obs ∈ result.observations.filter (ownerOf · = some resource) :=
      fun obs hobs howner => List.mem_filter.mpr ⟨hobs, decide_eq_true howner⟩
    obtain ⟨only, honly⟩ := List.length_eq_one_iff.mp
      (Nat.le_antisymm (hone resource) (List.length_pos_of_mem (hmem record hrecord h.2.2)))
    have hleft := hmem record hrecord h.2.2
    have hright := hmem other hother h'.2.2
    rw [honly, List.mem_singleton] at hleft hright
    rw [hleft, hright]
  rw [hfound]
  have hdata := h.2.1.symm.trans (hsame ▸ h'.2.1)
  simp only [Data.owner.injEq] at hdata
  rw [hdata.1, hdata.2]

/-! ## Completed jobs -/

/-- What a completed job of a complete operation enters for its owner. -/
def jobEntry (result : CheckResult) (obs : Observation) : Option (String × Option Time × Time) :=
  match obs.data, (owners result)[obs.resource]? with
  | .job run, some (_, some owner) =>
      match run.completedAt with
      | some completed =>
          if run.complete && !run.failed && result.backs obs then
            some (owner, run.scheduledAt, completed)
          else none
      | none => none
  | _, _ => none

/-- One more completion of a controller. -/
def credit (known : Option (Option Time × Time)) (entry : Option Time × Time) :
    Option (Option Time × Time) :=
  match known with
  | some known => some (optionMax known.1 entry.1, max known.2 entry.2)
  | none => some entry

def enter (table : Table (Option Time × Time)) (entry : String × Option Time × Time) :
    Table (Option Time × Time) :=
  match credit table[entry.1]? entry.2 with
  | some known => table.insert entry.1 known
  | none => table

theorem completions_eq_entries : completions result =
    (result.observations.filterMap (jobEntry result)).foldl enter ∅ := by
  rw [List.foldl_filterMap, completions]
  congr 1
  funext table obs
  unfold jobEntry
  cases hdata : obs.data with
  | job run =>
      cases (owners result)[obs.resource]? with
      | none => rfl
      | some names =>
          obtain ⟨uid, owner⟩ := names
          cases owner with
          | none => rfl
          | some owner =>
              dsimp only
              cases run.completedAt with
              | none => rfl
              | some completed =>
                  dsimp only
                  split
                  · dsimp only [enter, credit]
                    cases table[owner]? with
                    | none => rfl
                    | some known => rfl
                  · rfl
  | _ => rfl

theorem credit_comm (known : Option (Option Time × Time)) (a b : Option Time × Time) :
    credit (credit known a) b = credit (credit known b) a := by
  cases known with
  | none => simp [credit, optionMax_comm, max_comm]
  | some known =>
      simp only [credit, optionMax_assoc, max_assoc, optionMax_comm a.1, max_comm a.2]

/-- What a table of completions holds for a controller. -/
theorem getElem?_foldl_enter (entries : List (String × Option Time × Time))
    (table : Table (Option Time × Time)) (uid : String) :
    (entries.foldl enter table)[uid]? =
      ((entries.filter (·.1 = uid)).map Prod.snd).foldl credit table[uid]? := by
  induction entries generalizing table with
  | nil => rfl
  | cons entry entries ih =>
      rw [List.foldl_cons, ih]
      have hentered : ∃ known, credit table[entry.1]? entry.2 = some known := by
        unfold credit
        split
        · exact ⟨_, rfl⟩
        · exact ⟨_, rfl⟩
      obtain ⟨known, hknown⟩ := hentered
      have hinsert : enter table entry = table.insert entry.1 known := by
        rw [enter, hknown]
      by_cases huid : entry.1 = uid
      · subst huid
        simp [hinsert, hknown]
      · rw [hinsert, Table.getElem?_insert_ne (Ne.symm huid)]
        simp [huid]

/-- A completion is one of the entries, and so is a scheduled instant that is known. -/
theorem mem_of_credit {entries : List (Option Time × Time)} {scheduled : Option Time}
    {completed : Time} (h : entries.foldl credit none = some (scheduled, completed)) :
    (∃ entry ∈ entries, entry.2 = completed) ∧ ∃ entry ∈ entries, entry.1 = scheduled := by
  induction entries using List.reverseRecOn generalizing scheduled completed with
  | nil => cases h
  | append_singleton entries entry ih =>
      rw [List.foldl_append, List.foldl_cons, List.foldl_nil] at h
      cases hbefore : entries.foldl credit none with
      | none =>
          rw [hbefore] at h
          have hentry := Option.some.inj h
          exact ⟨⟨entry, by simp, by rw [hentry]⟩, entry, by simp, by rw [hentry]⟩
      | some known =>
          rw [hbefore] at h
          have hmax := Prod.ext_iff.mp (Option.some.inj h)
          dsimp only at hmax
          obtain ⟨⟨a, ha, hcompleted⟩, b, hb, hscheduled⟩ := ih hbefore
          constructor
          · rcases max_choice known.2 entry.2 with hchoice | hchoice
            · exact ⟨a, by simp [ha], by rw [hcompleted, ← hchoice, hmax.2]⟩
            · exact ⟨entry, by simp, by rw [← hchoice, hmax.2]⟩
          · rcases optionMax_cases known.1 entry.1 with hchoice | hchoice
            · exact ⟨b, by simp [hb], by rw [hscheduled, ← hchoice, hmax.1]⟩
            · exact ⟨entry, by simp, by rw [← hchoice, hmax.1]⟩

/-! ## What a schedule is credited with -/

/-- A completed job of a complete operation whose owner is the controller. -/
def Credits (result : CheckResult) (uid : String) (run : JobRun) : Prop :=
  ∃ job ∈ result.observations, result.backs job = true ∧ job.data = .job run ∧
    run.complete = true ∧ run.failed = false ∧ ∃ own, Names result job.resource own (some uid)

/-- How an observation comes out of correlation: a schedule keeps its instants or takes
later ones of jobs its own controller owns, and nothing else changes. -/
structure Credited (result : CheckResult) (before after : Observation) : Prop where
  schedule : ∀ s, before.data = .schedule s → ∃ lastSuccess lastSchedule,
    after = { before with data := .schedule { s with lastSuccess, lastSchedule } } ∧
    optionLt lastSuccess s.lastSuccess = false ∧ optionLt lastSchedule s.lastSchedule = false ∧
    (lastSuccess ≠ s.lastSuccess → ∃ uid owner run, Names result before.resource uid owner ∧
      Credits result uid run ∧ lastSuccess = run.completedAt) ∧
    (lastSchedule ≠ s.lastSchedule → ∃ uid owner run, Names result before.resource uid owner ∧
      Credits result uid run ∧ lastSchedule = run.scheduledAt)
  other : (∀ s, before.data ≠ .schedule s) → after = before

theorem credits_of_jobEntry {obs : Observation} {uid : String} {scheduled : Option Time}
    {completed : Time} (hobs : obs ∈ result.observations)
    (h : jobEntry result obs = some (uid, scheduled, completed)) :
    ∃ run, Credits result uid run ∧ run.completedAt = some completed ∧
      run.scheduledAt = scheduled := by
  unfold jobEntry at h
  cases hdata : obs.data with
  | job run =>
      cases hnames : (owners result)[obs.resource]? with
      | none => simp [hdata, hnames] at h
      | some names =>
          obtain ⟨own, owner⟩ := names
          cases owner with
          | none => simp [hdata, hnames] at h
          | some owner =>
              cases hcompleted : run.completedAt with
              | none => simp [hdata, hnames, hcompleted] at h
              | some completed' =>
                  simp only [hdata, hnames, hcompleted] at h
                  split at h
                  · rename_i hall
                    simp only [Bool.and_eq_true, Bool.not_eq_true'] at hall
                    simp only [Option.some.injEq, Prod.mk.injEq] at h
                    obtain ⟨rfl, hscheduled, rfl⟩ := h
                    exact ⟨run, ⟨obs, hobs, hall.2, hdata, hall.1.1, hall.1.2, own,
                      names_of_owners hnames⟩, hcompleted, hscheduled⟩
                  · cases h
  | _ => simp [hdata] at h

/-- What the completions of a controller come from. -/
theorem credits_of_completions {uid : String} {scheduled : Option Time} {completed : Time}
    (h : (completions result)[uid]? = some (scheduled, completed)) :
    (∃ run, Credits result uid run ∧ run.completedAt = some completed) ∧
      ∃ run, Credits result uid run ∧ run.scheduledAt = scheduled := by
  rw [completions_eq_entries, getElem?_foldl_enter, Std.ExtTreeMap.getElem?_empty] at h
  have hentry : ∀ entry ∈ ((result.observations.filterMap (jobEntry result)).filter
      (·.1 = uid)).map Prod.snd, ∃ run, Credits result uid run ∧
        run.completedAt = some entry.2 ∧ run.scheduledAt = entry.1 := by
    intro entry hentry
    obtain ⟨⟨owner, scheduled, completed⟩, hmem, rfl⟩ := List.mem_map.mp hentry
    obtain ⟨hmem, howner⟩ := List.mem_filter.mp hmem
    obtain ⟨obs, hobs, hjob⟩ := List.mem_filterMap.mp hmem
    obtain rfl : owner = uid := of_decide_eq_true howner
    exact credits_of_jobEntry hobs hjob
  obtain ⟨⟨a, ha, hcompleted⟩, b, hb, hscheduled⟩ := mem_of_credit h
  obtain ⟨run, hrun, hrunCompleted, -⟩ := hentry a ha
  obtain ⟨run', hrun', -, hrunScheduled⟩ := hentry b hb
  exact ⟨⟨run, hrun, hcompleted ▸ hrunCompleted⟩, run', hrun', hscheduled ▸ hrunScheduled⟩

theorem optionLt_self (a : Option Time) : optionLt a a = false := by
  cases a <;> simp [optionLt]

theorem correlateObservation_credited (obs : Observation) :
    Credited result obs (correlateObservation result obs) where
  schedule s hdata := by
    unfold correlateObservation
    cases hnames : (owners result)[obs.resource]? with
    | none =>
        refine ⟨s.lastSuccess, s.lastSchedule, ?_, optionLt_self _, optionLt_self _,
          fun h => absurd rfl h, fun h => absurd rfl h⟩
        simp only [hdata]
        rw [← hdata]
    | some names =>
        obtain ⟨uid, owner⟩ := names
        have hown := names_of_owners hnames
        cases hcompleted : (completions result)[uid]? with
        | none =>
            refine ⟨s.lastSuccess, s.lastSchedule, ?_, optionLt_self _, optionLt_self _,
              fun h => absurd rfl h, fun h => absurd rfl h⟩
            simp only [hdata, hcompleted]
            rw [← hdata]
        | some entry =>
            obtain ⟨scheduled, completed⟩ := entry
            obtain ⟨⟨run, hrun, hcompletedAt⟩, run', hrun', hscheduledAt⟩ :=
              credits_of_completions hcompleted
            refine ⟨optionMax s.lastSuccess (some completed), optionMax s.lastSchedule scheduled,
              ?_, (optionLt_optionMax ..).1, (optionLt_optionMax ..).1, fun hne => ?_,
              fun hne => ?_⟩
            · simp [hdata, hcompleted]
            · rcases optionMax_cases s.lastSuccess (some completed) with hsame | hlater
              · exact absurd hsame hne
              · exact ⟨uid, owner, run, hown, hrun, hlater.trans hcompletedAt.symm⟩
            · rcases optionMax_cases s.lastSchedule scheduled with hsame | hlater
              · exact absurd hsame hne
              · exact ⟨uid, owner, run', hown, hrun', hlater.trans hscheduledAt.symm⟩
  other hother := by
    unfold correlateObservation
    cases hdata : obs.data with
    | schedule s => exact absurd hdata (hother s)
    | _ => rfl

/-! ## The order of the observations -/

section

variable {reordered : List Observation} (hperm : reordered.Perm result.observations)

include hperm

theorem OneOwner.permuted (hone : OneOwner result) :
    OneOwner { result with observations := reordered } := by
  intro resource
  rw [(hperm.filter _).length_eq]
  exact hone resource

theorem owners_permuted (hone : OneOwner result) :
    owners { result with observations := reordered } = owners result := by
  refine Std.ExtTreeMap.ext_getElem? fun resource => Option.ext fun names => ?_
  obtain ⟨uid, owner⟩ := names
  rw [owners_eq_some (hone.permuted hperm), owners_eq_some hone]
  constructor
  · rintro ⟨record, hrecord, h⟩
    exact ⟨record, hperm.mem_iff.mp hrecord, h⟩
  · rintro ⟨record, hrecord, h⟩
    exact ⟨record, hperm.mem_iff.mpr hrecord, h⟩

theorem completions_permuted (hone : OneOwner result) :
    completions { result with observations := reordered } = completions result := by
  have hentry : jobEntry { result with observations := reordered } = jobEntry result := by
    funext obs
    unfold jobEntry
    rw [owners_permuted hperm hone]
    rfl
  have hcomm : RightCommutative credit := ⟨credit_comm⟩
  refine Std.ExtTreeMap.ext_getElem? fun uid => ?_
  rw [completions_eq_entries, completions_eq_entries, getElem?_foldl_enter, getElem?_foldl_enter,
    hentry]
  exact (((hperm.filterMap _).filter _).map _).foldl_eq _

end

/-! ## Operations lowered -/

/-- Every entry is credited, and crediting it once more changes nothing. -/
theorem le_of_credit {entries : List (Option Time × Time)} {entry : Option Time × Time}
    (h : entry ∈ entries) : ∃ scheduled completed,
      entries.foldl credit none = some (scheduled, completed) ∧ entry.2 ≤ completed ∧
        optionMax scheduled entry.1 = scheduled := by
  induction entries using List.reverseRecOn with
  | nil => cases h
  | append_singleton entries last ih =>
      rw [List.foldl_append, List.foldl_cons, List.foldl_nil]
      rcases List.mem_append.mp h with hbefore | hlast
      · obtain ⟨scheduled, completed, hfold, hle, habsorb⟩ := ih hbefore
        refine ⟨_, _, by rw [hfold]; rfl, hle.trans (le_max_left ..), ?_⟩
        rw [optionMax_assoc, optionMax_comm last.1, ← optionMax_assoc, habsorb]
      · obtain rfl := List.mem_singleton.mp hlast
        cases entries.foldl credit none with
        | none => exact ⟨_, _, rfl, le_rfl, by cases entry.1 <;> simp [optionMax]⟩
        | some known => exact ⟨_, _, rfl, le_max_right .., optionMax_absorb _ _⟩

section

variable {lowered : CheckResult}
  (hbacks : ∀ obs, lowered.backs obs = true → result.backs obs = true)
  (hrecords : lowered.observations.filter (isOwner ·.data)
    = result.observations.filter (isOwner ·.data))

include hbacks hrecords

/-- A record of an operation that is still complete named the resource before. -/
theorem names_of_lowered {resource uid : String} {owner : Option String}
    (h : Names lowered resource uid owner) : Names result resource uid owner := by
  obtain ⟨record, hrecord, hbacked, hdata, howner⟩ := h
  have hkind : isOwner record.data = true := by rw [hdata]; rfl
  have hmem : record ∈ result.observations.filter (isOwner ·.data) :=
    hrecords ▸ List.mem_filter.mpr ⟨hrecord, hkind⟩
  exact ⟨record, (List.mem_filter.mp hmem).1, hbacks record hbacked, hdata, howner⟩

variable (hone : OneOwner result)

include hone

theorem owners_of_lowered {resource uid : String} {owner : Option String}
    (h : (owners lowered)[resource]? = some (uid, owner)) :
    (owners result)[resource]? = some (uid, owner) :=
  (owners_eq_some hone).mpr (names_of_lowered hbacks hrecords (names_of_owners h))

theorem jobEntry_of_lowered {obs : Observation} {entry : String × Option Time × Time}
    (h : jobEntry lowered obs = some entry) :
    isJob obs.data = true ∧ jobEntry result obs = some entry := by
  unfold jobEntry at h ⊢
  cases hdata : obs.data with
  | job run =>
      cases hnames : (owners lowered)[obs.resource]? with
      | none => simp [hdata, hnames] at h
      | some names =>
          obtain ⟨own, owner⟩ := names
          cases owner with
          | none => simp [hdata, hnames] at h
          | some owner =>
              cases hcompleted : run.completedAt with
              | none => simp [hdata, hnames, hcompleted] at h
              | some completed =>
                  simp only [hdata, hnames, hcompleted] at h
                  split at h
                  · rename_i hall
                    simp only [Bool.and_eq_true, Bool.not_eq_true'] at hall
                    refine ⟨rfl, ?_⟩
                    rw [owners_of_lowered hbacks hrecords hone hnames]
                    simp [hcompleted, hall.1.1, hall.1.2, hbacks obs hall.2, ← h]
                  · cases h
  | _ => simp [hdata] at h

variable (hruns : lowered.observations.filter (isJob ·.data)
  = result.observations.filter (isJob ·.data))

include hruns

/-- The completions that are left are credited already. -/
theorem completions_of_lowered {uid : String} {scheduled : Option Time} {completed : Time}
    (h : (completions lowered)[uid]? = some (scheduled, completed)) :
    ∃ scheduled' completed', (completions result)[uid]? = some (scheduled', completed') ∧
      completed ≤ completed' ∧ optionMax scheduled' scheduled = scheduled' := by
  rw [completions_eq_entries, getElem?_foldl_enter, Std.ExtTreeMap.getElem?_empty] at h
  rw [completions_eq_entries, getElem?_foldl_enter, Std.ExtTreeMap.getElem?_empty]
  have hentry : ∀ entry ∈ ((lowered.observations.filterMap (jobEntry lowered)).filter
      (·.1 = uid)).map Prod.snd,
      entry ∈ ((result.observations.filterMap (jobEntry result)).filter (·.1 = uid)).map
        Prod.snd := by
    intro entry hentry
    obtain ⟨⟨owner, entry⟩, hmem, rfl⟩ := List.mem_map.mp hentry
    obtain ⟨hmem, howner⟩ := List.mem_filter.mp hmem
    obtain ⟨obs, hobs, hjob⟩ := List.mem_filterMap.mp hmem
    obtain ⟨hkind, hjob'⟩ := jobEntry_of_lowered hbacks hrecords hone hjob
    have hobs' : obs ∈ result.observations.filter (isJob ·.data) :=
      hruns ▸ List.mem_filter.mpr ⟨hobs, hkind⟩
    exact List.mem_map.mpr ⟨_, List.mem_filter.mpr
      ⟨List.mem_filterMap.mpr ⟨obs, (List.mem_filter.mp hobs').1, hjob'⟩, howner⟩, rfl⟩
  obtain ⟨⟨a, ha, hcompleted⟩, b, hb, hscheduled⟩ := mem_of_credit h
  obtain ⟨scheduled', completed', hfold, hle, _⟩ := le_of_credit (hentry a ha)
  obtain ⟨_, _, hfold', _, habsorb⟩ := le_of_credit (hentry b hb)
  obtain ⟨rfl, rfl⟩ := Prod.mk.inj (Option.some.inj (hfold.symm.trans hfold'))
  exact ⟨_, _, hfold, hcompleted ▸ hle, hscheduled ▸ habsorb⟩

/-- A schedule that has been correlated stays as it is when some operations are no longer
complete. -/
theorem correlateObservation_of_lowered (obs : Observation) :
    correlateObservation lowered (correlateObservation result obs)
      = correlateObservation result obs := by
  have hresource := (correlateObservation_same result obs).resource
  generalize hmid : correlateObservation result obs = mid at hresource ⊢
  unfold correlateObservation
  cases hdata : mid.data with
  | schedule s =>
      rw [hresource]
      cases hnames : (owners lowered)[obs.resource]? with
      | none => rfl
      | some names =>
          obtain ⟨uid, owner⟩ := names
          have hown := owners_of_lowered hbacks hrecords hone hnames
          dsimp only
          cases hcompleted : (completions lowered)[uid]? with
          | none => rfl
          | some entry =>
              obtain ⟨scheduled, completed⟩ := entry
              obtain ⟨scheduled', completed', hknown, hle, habsorb⟩ :=
                completions_of_lowered hbacks hrecords hone hruns hcompleted
              unfold correlateObservation at hmid
              cases hbefore : obs.data with
              | schedule before =>
                  simp only [hbefore, hown, hknown] at hmid
                  subst hmid
                  obtain rfl := Data.schedule.inj hdata
                  have hlatest : optionMax (some completed') (some completed) = some completed' :=
                    congrArg some (max_eq_left hle)
                  simp only [optionMax_assoc, hlatest, habsorb]
              | _ =>
                  simp only [hbefore] at hmid
                  rw [← hmid, hbefore] at hdata
                  cases hdata
  | _ => rfl

end

/-- Where no resource has two owner records, correlation moves the instants of a schedule
forward only, and only to those of complete jobs that the schedule's own controller owns,
every record involved coming from a complete operation. Doing it twice changes nothing,
and the order of the observations is immaterial. -/
theorem correlate_spec (result : CheckResult) (hone : OneOwner result) :
    List.Forall₂ (Credited result) result.observations (correlate result).observations ∧
    correlate (correlate result) = correlate result ∧
    ∀ permuted : List Observation, permuted.Perm result.observations →
      correlateObservation { result with observations := permuted } =
        correlateObservation result ∧
      (correlate { result with observations := permuted }).observations.Perm
        (correlate result).observations := by
  refine ⟨?_, ?_, fun permuted hperm => ?_⟩
  · rw [correlate, List.forall₂_map_right_iff, List.forall₂_same]
    exact fun obs _ => correlateObservation_credited obs
  · have hfilter : ∀ {p : Data → Bool}, Untouched p →
        (correlate result).observations.filter (p ·.data) =
          result.observations.filter (p ·.data) := fun hp =>
      filter_map_eq (fun obs => (hp.correlate result obs).1)
        (fun obs => (hp.correlate result obs).2) _
    have howners : owners (correlate result) = owners result :=
      owners_congr rfl (hfilter untouched_owner)
    have hcompletions : completions (correlate result) = completions result :=
      completions_congr rfl (hfilter untouched_owner) (hfilter untouched_job)
    have hsame := correlateObservation_congr howners hcompletions
    rw [correlate, hsame]
    simp only [correlate, List.map_map]
    congr 1
    exact List.map_congr_left fun obs _ => correlateObservation_twice result obs
  · have hsame := correlateObservation_congr (owners_permuted hperm hone)
      (completions_permuted hperm hone)
    refine ⟨hsame, ?_⟩
    rw [correlate, hsame]
    exact hperm.map _

/-- A schedule and a job it owns, each with its owner record. -/
def backup : CheckResult where
  target := "t"
  check := .kubernetes
  revision := "r"
  startedAt := 0
  finishedAt := 9
  operations := [{ id := "o", coverage := .complete, observedAt := 9 }]
  observations :=
    [{ resource := "t/s", operation := "o", observedAt := 9
       data := .schedule
        { createdAt := none, startingDeadlineSeconds := none, forbidOverlap := false
          schedule := "", timezone := "", suspended := false, active := 0
          lastSchedule := none, lastSuccess := some 2 } },
     { resource := "t/s/owner", operation := "o", observedAt := 9
       data := .owner "s1" none },
     { resource := "t/j", operation := "o", observedAt := 9
       data := .job
        { completedAt := some 5, scheduledAt := some 4, complete := true, failed := false
          failedAttempts := 0, succeeded := 1, active := 0, createdAt := none } },
     { resource := "t/j/owner", operation := "o", observedAt := 9
       data := .owner "j1" (some "s1") }]

/-- The last scheduled and last successful instants of a schedule. -/
def instants (obs : Observation) : Option (Option Time × Option Time) :=
  match obs.data with
  | .schedule s => some (s.lastSchedule, s.lastSuccess)
  | _ => none

/-- The job's instants are the schedule's after correlation. -/
theorem correlate_spec_backup :
    (correlate backup).observations.filterMap instants = [(some 4, some 5)] ∧
    List.Forall₂ (Credited backup) backup.observations (correlate backup).observations :=
  ⟨by decide +kernel, (correlate_spec backup (oneOwner_of_nodup (by decide +kernel))).1⟩

end SchedulePolicy

end HealthMonitor
