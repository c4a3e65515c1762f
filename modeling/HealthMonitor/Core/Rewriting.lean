import HealthMonitor.Core.Gathering

/-!
# Rewriting

The passes over the observations of a bounded result: what they leave alone, and
that a second run of them changes nothing.
-/

namespace HealthMonitor

/-! ## What the passes leave alone -/

/-- Kinds of observations that no pass rewrites. -/
structure Untouched (p : Data → Bool) : Prop where
  build : ∀ b, b.state = .failed → p (.build b) = false
  schedule : ∀ s, p (.schedule s) = false
  recovery : ∀ r, p (.recovery r) = false

section Untouched

variable {p : Data → Bool}

theorem filter_map_eq {α : Type} {q : α → Bool} {f : α → α} (h : ∀ a, q (f a) = q a)
    (hf : ∀ a, q a = true → f a = a) (l : List α) : (l.map f).filter q = l.filter q := by
  induction l with
  | nil => rfl
  | cons a l ih =>
      rw [List.map_cons]
      cases hq : q a with
      | true => rw [List.filter_cons_of_pos (by rw [h, hq]), List.filter_cons_of_pos hq, ih, hf a hq]
      | false =>
          rw [List.filter_cons_of_neg (by rw [h, hq]; decide),
            List.filter_cons_of_neg (by rw [hq]; decide), ih]

/-- A rewritten observation is of the same kind, and a kind that is left alone is
not rewritten. -/
theorem Untouched.markRetry (hp : Untouched p) (observations : List Observation)
    (obs : Observation) :
    p (Provenance.markRetry observations obs).data = p obs.data
      ∧ (p obs.data = true → Provenance.markRetry observations obs = obs) := by
  unfold Provenance.markRetry
  cases hdata : obs.data with
  | build b =>
      dsimp only
      by_cases hfailed : b.state = .failed
      · rw [if_neg (not_not.mpr hfailed)]
        refine ⟨?_, fun h => by rw [hp.build b hfailed] at h; cases h⟩
        split
        · rw [hdata]
        · rw [hp.build b hfailed]
          exact hp.build _ hfailed
      · rw [if_pos hfailed]
        exact ⟨congrArg p hdata, fun _ => rfl⟩
  | _ => exact ⟨congrArg p hdata, fun _ => rfl⟩

theorem Untouched.correlate (hp : Untouched p) (result : CheckResult) (obs : Observation) :
    p (SchedulePolicy.correlateObservation result obs).data = p obs.data
      ∧ (p obs.data = true → SchedulePolicy.correlateObservation result obs = obs) := by
  unfold SchedulePolicy.correlateObservation
  cases hdata : obs.data with
  | schedule s =>
      refine ⟨?_, fun h => by rw [hp.schedule] at h; cases h⟩
      cases (SchedulePolicy.owners result)[obs.resource]? with
      | none => exact congrArg p hdata
      | some owner =>
          dsimp only
          split
          · rw [hp.schedule, hp.schedule]
          · exact congrArg p hdata
  | _ => exact ⟨congrArg p hdata, fun _ => rfl⟩

theorem Recovery.filter_mergeInto (hp : ∀ r, p (.recovery r) = false) (obs : Observation)
    {r : Recovery} (hobs : obs.data = .recovery r) (output : List Observation) :
    (Recovery.mergeInto obs r output).filter (p ·.data) = output.filter (p ·.data) := by
  have hskip : ∀ (o : Observation) (l : List Observation), (∃ r, o.data = .recovery r) →
      (o :: l).filter (p ·.data) = l.filter (p ·.data) := by
    rintro o l ⟨r, ho⟩
    refine List.filter_cons_of_neg ?_
    rw [ho, hp]
    decide
  induction output with
  | nil => exact hskip obs [] ⟨r, hobs⟩
  | cons old rest ih =>
      have hlater : (old :: Recovery.mergeInto obs r rest).filter (p ·.data)
          = (old :: rest).filter (p ·.data) := by
        rw [List.filter_cons, List.filter_cons, ih]
      unfold Recovery.mergeInto
      cases hold : old.data with
      | recovery previous =>
          dsimp only
          split
          · have hmerged : ∃ r', (Recovery.merge old previous obs r).data = .recovery r' := by
              unfold Recovery.merge
              dsimp only
              split
              · exact ⟨_, rfl⟩
              · exact ⟨_, rfl⟩
            rw [hskip _ rest hmerged, hskip old rest ⟨previous, hold⟩]
          · exact hlater
      | _ => exact hlater

/-- Consolidation rewrites recovery points only. -/
theorem Recovery.filter_consolidate (hp : ∀ r, p (.recovery r) = false) (l : List Observation) :
    (Recovery.consolidate l).filter (p ·.data) = l.filter (p ·.data) := by
  have hfold : ∀ (l output : List Observation),
      (l.foldl Recovery.consolidateStep output).filter (p ·.data)
        = output.filter (p ·.data) ++ l.filter (p ·.data) := by
    intro l
    induction l with
    | nil => exact fun output => (List.append_nil _).symm
    | cons obs l ih =>
        intro output
        rw [List.foldl_cons, ih]
        unfold Recovery.consolidateStep
        cases hobs : obs.data with
        | recovery r =>
            dsimp only
            rw [Recovery.filter_mergeInto hp obs hobs, List.filter_cons_of_neg]
            rw [hobs, hp]
            decide
        | _ =>
            dsimp only
            rw [List.filter_append, List.append_assoc, ← List.filter_append, List.singleton_append]
  exact hfold l []

/-- Correlating and consolidating. -/
theorem Untouched.later (hp : Untouched p) (result : CheckResult) (l : List Observation) :
    (Recovery.consolidate (l.map (SchedulePolicy.correlateObservation result))).filter (p ·.data)
      = l.filter (p ·.data) := by
  rw [Recovery.filter_consolidate hp.recovery,
    filter_map_eq (fun o => (hp.correlate _ o).1) fun o => (hp.correlate _ o).2]

/-- The passes keep the observations of a kind that they leave alone. -/
theorem Untouched.rewrite (hp : Untouched p) (job : Job) (result : CheckResult) (now : Time) :
    (State.rewrite job result now).observations.filter (p ·.data)
      = result.observations.filter (p ·.data) := by
  show (Recovery.consolidate ((Provenance.markRetries result.observations).map _)).filter _ = _
  rw [hp.later, Provenance.markRetries, filter_map_eq (fun o => (hp.markRetry _ o).1)
    fun o => (hp.markRetry _ o).2]

end Untouched

/-! ## Consolidating twice -/

namespace Recovery

def isRecovery : Data → Bool
  | .recovery _ => true
  | _ => false

/-- The resources of the recovery points. -/
def recovered (l : List Observation) : List String :=
  (l.filter (isRecovery ·.data)).map Observation.resource

theorem recovered_append (l l' : List Observation) :
    recovered (l ++ l') = recovered l ++ recovered l' := by
  rw [recovered, List.filter_append, List.map_append, recovered, recovered]

theorem recovered_cons_of_recovery {obs : Observation} {r : Recovery}
    (h : obs.data = .recovery r) (l : List Observation) :
    recovered (obs :: l) = obs.resource :: recovered l := by
  rw [recovered, List.filter_cons_of_pos (by rw [h]; rfl), List.map_cons, recovered]

theorem recovered_cons_of_other {obs : Observation} (h : isRecovery obs.data = false)
    (l : List Observation) : recovered (obs :: l) = recovered l := by
  rw [recovered, List.filter_cons_of_neg (by rw [h]; decide), recovered]

/-- A recovery point is merged into the one of its resource, if there is one. -/
theorem recovered_mergeInto {obs : Observation} {r : Recovery} (hobs : obs.data = .recovery r)
    (output : List Observation) : recovered (mergeInto obs r output)
      = if obs.resource ∈ recovered output then recovered output
        else recovered output ++ [obs.resource] := by
  induction output with
  | nil => exact recovered_cons_of_recovery hobs []
  | cons old rest ih =>
      unfold mergeInto
      cases hold : old.data with
      | recovery previous =>
          dsimp only
          rw [recovered_cons_of_recovery hold]
          by_cases hsame : old.resource = obs.resource
          · have hmerged : ∃ r', (merge old previous obs r).data = .recovery r'
                ∧ (merge old previous obs r).resource = old.resource := by
              unfold merge
              dsimp only
              split
              · exact ⟨_, rfl, hsame.symm⟩
              · exact ⟨_, rfl, rfl⟩
            obtain ⟨r', hdata, hresource⟩ := hmerged
            rw [if_pos hsame, recovered_cons_of_recovery hdata, hresource,
              if_pos (hsame ▸ List.mem_cons_self)]
          · rw [if_neg hsame, recovered_cons_of_recovery hold, ih]
            by_cases hmem : obs.resource ∈ recovered rest
            · rw [if_pos hmem, if_pos (List.mem_cons_of_mem _ hmem)]
            · have hnot : obs.resource ∉ old.resource :: recovered rest := by
                rw [List.mem_cons, not_or]
                exact ⟨Ne.symm hsame, hmem⟩
              rw [if_neg hmem, if_neg hnot, List.cons_append]
      | _ =>
          have hother : isRecovery old.data = false := by
            rw [hold]
            rfl
          dsimp only
          rw [recovered_cons_of_other hother, recovered_cons_of_other hother, ih]

theorem mergeInto_eq_append {obs : Observation} {r : Recovery} {output : List Observation}
    (h : obs.resource ∉ recovered output) : mergeInto obs r output = output ++ [obs] := by
  induction output with
  | nil => rfl
  | cons old rest ih =>
      unfold mergeInto
      cases hold : old.data with
      | recovery previous =>
          rw [recovered_cons_of_recovery hold, List.mem_cons, not_or] at h
          dsimp only
          rw [if_neg (Ne.symm h.1), ih h.2, List.cons_append]
      | _ =>
          have hother : isRecovery old.data = false := by
            rw [hold]
            rfl
          rw [recovered_cons_of_other hother] at h
          dsimp only
          rw [ih h, List.cons_append]

/-- One recovery point a resource is left. -/
theorem recovered_consolidate (l : List Observation) : (recovered (consolidate l)).Nodup := by
  refine List.foldlRecOn (motive := fun output => (recovered output).Nodup) l consolidateStep
    List.nodup_nil ?_
  intro output ih obs _
  unfold consolidateStep
  cases hobs : obs.data with
  | recovery r =>
      dsimp only
      rw [recovered_mergeInto hobs]
      split
      · exact ih
      · rename_i hmem
        rw [List.nodup_append]
        refine ⟨ih, List.nodup_singleton _, fun k hk k' hk' => ?_⟩
        rw [List.mem_singleton.mp hk']
        rintro rfl
        exact hmem hk
  | _ =>
      dsimp only
      rw [recovered_append, recovered_cons_of_other (by rw [hobs]; rfl)]
      simpa [recovered] using ih

/-- Consolidation leaves single recovery points alone. -/
theorem consolidate_eq_self {l : List Observation} (h : (recovered l).Nodup) :
    consolidate l = l := by
  have hfold : ∀ l output : List Observation, (recovered (output ++ l)).Nodup →
      l.foldl consolidateStep output = output ++ l := by
    intro l
    induction l with
    | nil => exact fun output _ => (List.append_nil output).symm
    | cons obs l ih =>
        intro output hnodup
        have hstep : consolidateStep output obs = output ++ [obs] := by
          unfold consolidateStep
          cases hobs : obs.data with
          | recovery r =>
              refine mergeInto_eq_append fun hmem => ?_
              rw [recovered_append, recovered_cons_of_recovery hobs, List.nodup_append] at hnodup
              exact hnodup.2.2 _ hmem _ List.mem_cons_self rfl
          | _ => rfl
        rw [List.append_cons] at hnodup ⊢
        rw [List.foldl_cons, hstep, ih _ hnodup]
  exact hfold l [] h

theorem consolidate_append {l l' : List Observation}
    (h : ∀ obs ∈ l', isRecovery obs.data = false) :
    consolidate (l ++ l') = consolidate l ++ l' := by
  have hfold : ∀ l' output : List Observation, (∀ obs ∈ l', isRecovery obs.data = false) →
      l'.foldl consolidateStep output = output ++ l' := by
    intro l'
    induction l' with
    | nil => exact fun output _ => (List.append_nil output).symm
    | cons obs l' ih =>
        intro output h
        have hstep : consolidateStep output obs = output ++ [obs] := by
          have hother := h obs List.mem_cons_self
          unfold consolidateStep
          cases hobs : obs.data with
          | recovery r =>
              rw [hobs] at hother
              cases hother
          | _ => rfl
        rw [List.foldl_cons, hstep, ih _ fun o ho => h o (List.mem_cons_of_mem _ ho),
          List.append_assoc, List.singleton_append]
  rw [consolidate, List.foldl_append, hfold l' _ h, consolidate]

/-- What is no recovery point has been there before. -/
theorem mem_of_mem_consolidate {l : List Observation} {obs : Observation}
    (h : isRecovery obs.data = false) (hobs : obs ∈ consolidate l) : obs ∈ l := by
  have hfilter := filter_consolidate (p := fun data => !isRecovery data) (fun _ => rfl) l
  have hmem : obs ∈ (consolidate l).filter fun o => !isRecovery o.data :=
    List.mem_filter.mpr ⟨hobs, by rw [h]; rfl⟩
  rw [hfilter] at hmem
  exact (List.mem_filter.mp hmem).1

theorem markRetry_of_recovery {observations : List Observation} {obs : Observation}
    (h : isRecovery obs.data = true) : Provenance.markRetry observations obs = obs := by
  unfold Provenance.markRetry
  cases hdata : obs.data with
  | build b =>
      rw [hdata] at h
      cases h
  | _ => rfl

theorem correlateObservation_of_recovery {result : CheckResult} {obs : Observation}
    (h : isRecovery obs.data = true) : SchedulePolicy.correlateObservation result obs = obs := by
  unfold SchedulePolicy.correlateObservation
  cases hdata : obs.data with
  | schedule s =>
      rw [hdata] at h
      cases h
  | _ => rfl

end Recovery

/-! ## Rewriting twice -/

theorem optionMax_absorb (a : Option Time) (b : Option Time) :
    optionMax (optionMax a b) b = optionMax a b := by
  cases a with
  | none =>
      cases b with
      | none => rfl
      | some b => exact congrArg some (max_self b)
  | some a =>
      cases b with
      | none => rfl
      | some b => exact congrArg some (by rw [max_assoc, max_self])

/-- A fold that skips what is not of a kind sees the kind only. -/
theorem foldl_eq_of_filter {α β : Type} {q : α → Bool} {f : β → α → β}
    (hf : ∀ b a, q a = false → f b a = b) {l l' : List α} (h : l.filter q = l'.filter q) (b : β) :
    l.foldl f b = l'.foldl f b := by
  have hskip : ∀ (l : List α) (b : β), (l.filter q).foldl f b = l.foldl f b := by
    intro l
    induction l with
    | nil => exact fun _ => rfl
    | cons a l ih =>
        intro b
        cases ha : q a with
        | true => rw [List.filter_cons_of_pos ha, List.foldl_cons, List.foldl_cons, ih]
        | false => rw [List.filter_cons_of_neg (by rw [ha]; decide), List.foldl_cons, hf b a ha, ih]
  rw [← hskip l, ← hskip l', h]

namespace Provenance

def isReady : Data → Bool
  | .build b => b.state == .ready
  | _ => false

theorem untouched_ready : Untouched isReady where
  build b h := by rw [isReady, h]; rfl
  schedule _ := rfl
  recovery _ := rfl

/-- The retries look at successful builds only. -/
theorem succeededAfter_congr {l l' : List Observation}
    (h : l.filter (isReady ·.data) = l'.filter (isReady ·.data)) (failed : Observation)
    (build : Build) (created : Time) :
    succeededAfter l failed build created = succeededAfter l' failed build created := by
  have hready : ∀ l : List Observation, succeededAfter (l.filter (isReady ·.data)) failed build created
      = succeededAfter l failed build created := by
    intro l
    unfold succeededAfter
    rw [List.any_filter]
    refine congrArg l.any (funext fun obs => ?_)
    cases obs.data with
    | build b =>
        dsimp only [isReady]
        cases b.state == .ready with
        | true => rw [Bool.true_and, Bool.true_and]
        | false => simp only [Bool.false_and]
    | _ => rfl
  rw [← hready l, ← hready l', h]

/-- A build that has been marked stays marked. -/
theorem markRetry_markRetry {l l' : List Observation}
    (h : l.filter (isReady ·.data) = l'.filter (isReady ·.data)) (obs : Observation) :
    markRetry l' (markRetry l obs) = markRetry l obs := by
  unfold markRetry
  cases hdata : obs.data with
  | build b =>
      dsimp only
      by_cases hfailed : b.state = .failed
      · rw [if_neg (not_not.mpr hfailed)]
        cases hcreated : b.createdAt with
        | none =>
            dsimp only
            rw [hdata]
            dsimp only
            rw [if_neg (not_not.mpr hfailed), hcreated]
        | some created =>
            dsimp only
            rw [if_neg (not_not.mpr hfailed), ← succeededAfter_congr h]
            rfl
      · rw [if_pos hfailed, hdata]
        dsimp only
        rw [if_pos hfailed]
  | _ =>
      dsimp only
      rw [hdata]

end Provenance

namespace SchedulePolicy

def isOwner : Data → Bool
  | .owner _ _ => true
  | _ => false

def isJob : Data → Bool
  | .job _ => true
  | _ => false

theorem untouched_owner : Untouched isOwner :=
  ⟨fun _ _ => rfl, fun _ => rfl, fun _ => rfl⟩

theorem untouched_job : Untouched isJob :=
  ⟨fun _ _ => rfl, fun _ => rfl, fun _ => rfl⟩

section

variable {r r' : CheckResult}

theorem owners_congr (hops : r.operations = r'.operations)
    (h : r.observations.filter (isOwner ·.data) = r'.observations.filter (isOwner ·.data)) :
    owners r = owners r' := by
  have hbacks : ∀ obs, r.backs obs = r'.backs obs := fun obs => by
    unfold CheckResult.backs
    rw [hops]
  unfold owners
  simp only [hbacks]
  refine foldl_eq_of_filter (q := fun obs => isOwner obs.data) ?_ h ∅
  intro table obs hother
  cases hdata : obs.data with
  | owner uid owner =>
      rw [hdata] at hother
      cases hother
  | _ => rfl

theorem completions_congr (hops : r.operations = r'.operations)
    (howners : r.observations.filter (isOwner ·.data) = r'.observations.filter (isOwner ·.data))
    (hjobs : r.observations.filter (isJob ·.data) = r'.observations.filter (isJob ·.data)) :
    completions r = completions r' := by
  have hbacks : ∀ obs, r.backs obs = r'.backs obs := fun obs => by
    unfold CheckResult.backs
    rw [hops]
  unfold completions
  simp only [hbacks, owners_congr hops howners]
  refine foldl_eq_of_filter (q := fun obs => isJob obs.data) ?_ hjobs ∅
  intro table obs hother
  cases hdata : obs.data with
  | job run =>
      rw [hdata] at hother
      cases hother
  | _ => rfl

end

theorem correlateObservation_congr {r r' : CheckResult} (howners : owners r = owners r')
    (hcompletions : completions r = completions r') :
    correlateObservation r = correlateObservation r' := by
  funext obs
  unfold correlateObservation
  rw [howners, hcompletions]

/-- Correlation rewrites schedules only. -/
theorem correlateObservation_cases (result : CheckResult) (obs : Observation) :
    correlateObservation result obs = obs
      ∨ ∃ s, (correlateObservation result obs).data = .schedule s := by
  unfold correlateObservation
  cases hdata : obs.data with
  | schedule s =>
      cases (owners result)[obs.resource]? with
      | none => exact .inl rfl
      | some owner =>
          dsimp only
          split
          · exact .inr ⟨_, rfl⟩
          · exact .inl rfl
  | _ => exact .inl rfl

/-- A schedule that has been correlated stays as it is. -/
theorem correlateObservation_twice (result : CheckResult) (obs : Observation) :
    correlateObservation result (correlateObservation result obs)
      = correlateObservation result obs := by
  unfold correlateObservation
  cases hdata : obs.data with
  | schedule s =>
      cases howner : (owners result)[obs.resource]? with
      | none =>
          dsimp only
          rw [hdata, howner]
      | some owner =>
          obtain ⟨uid, parent⟩ := owner
          dsimp only
          cases hcompleted : (completions result)[uid]? with
          | none =>
              dsimp only
              rw [hdata, howner]
              dsimp only
              rw [hcompleted]
          | some completed =>
              obtain ⟨scheduled, completed⟩ := completed
              dsimp only
              rw [howner]
              dsimp only
              rw [hcompleted]
              dsimp only
              rw [optionMax_absorb, optionMax_absorb]
  | _ =>
      dsimp only
      rw [hdata]

end SchedulePolicy

namespace State

variable {job : Job} {result : CheckResult} {now : Time}

/-- The passes over the observations that a result has after them change nothing, when
what has been correlated stays. -/
theorem rewrite_observations_again {again : CheckResult}
    (hobs : again.observations = (rewrite job result now).observations)
    (h : ∀ obs, SchedulePolicy.correlateObservation again
        (SchedulePolicy.correlateObservation
          { result with observations := Provenance.markRetries result.observations } obs)
      = SchedulePolicy.correlateObservation
          { result with observations := Provenance.markRetries result.observations } obs) :
    (rewrite job again now).observations = (rewrite job result now).observations := by
  generalize hmarked : Provenance.markRetries result.observations = marked at h
  generalize hfirst : ({ result with observations := marked } : CheckResult) = first at h
  have hout : (rewrite job result now).observations
      = Recovery.consolidate (marked.map (SchedulePolicy.correlateObservation first)) := by
    rw [rewrite_observations, hmarked, hfirst]
  -- the first run left a build marked, a schedule correlated and recovery points single
  have hkept : ∀ obs ∈ (rewrite job result now).observations,
      Recovery.isRecovery obs.data = false → ∃ old ∈ result.observations,
        obs = SchedulePolicy.correlateObservation first
          (Provenance.markRetry result.observations old) := by
    intro obs hobs hother
    rw [hout] at hobs
    obtain ⟨mid, hmid, rfl⟩ := List.mem_map.mp (Recovery.mem_of_mem_consolidate hother hobs)
    rw [← hmarked, Provenance.markRetries] at hmid
    obtain ⟨old, hold, rfl⟩ := List.mem_map.mp hmid
    exact ⟨old, hold, rfl⟩
  have hmarks : Provenance.markRetries again.observations = again.observations := by
    have hready := Provenance.untouched_ready.rewrite job result now
    rw [Provenance.markRetries, List.map_congr_left, List.map_id']
    intro obs hmem
    rw [hobs] at hmem ⊢
    cases hother : Recovery.isRecovery obs.data with
    | true => exact Recovery.markRetry_of_recovery hother
    | false =>
        obtain ⟨old, _, rfl⟩ := hkept obs hmem hother
        rcases SchedulePolicy.correlateObservation_cases first
          (Provenance.markRetry result.observations old) with hsame | ⟨s, hschedule⟩
        · rw [hsame, Provenance.markRetry_markRetry hready.symm]
        · unfold Provenance.markRetry at hschedule ⊢
          rw [hschedule]
  have hcorrelated : ∀ obs ∈ again.observations,
      SchedulePolicy.correlateObservation again obs = obs := by
    intro obs hmem
    rw [hobs] at hmem
    cases hother : Recovery.isRecovery obs.data with
    | true => exact Recovery.correlateObservation_of_recovery hother
    | false =>
        obtain ⟨old, _, rfl⟩ := hkept obs hmem hother
        exact h _
  rw [rewrite_observations, hmarks]
  show Recovery.consolidate (again.observations.map (SchedulePolicy.correlateObservation again)) = _
  rw [List.map_congr_left hcorrelated, List.map_id', hobs, hout]
  exact Recovery.consolidate_eq_self (Recovery.recovered_consolidate _)

/-- What the passes leave alone stays behind what they rewrite. -/
theorem rewrite_append {p : Data → Bool} (hp : Untouched p) {own more : List Observation}
    (h : result.observations = own ++ more) (hmore : ∀ obs ∈ more, p obs.data = true) :
    ∃ kept, (rewrite job result now).observations = kept ++ more ∧ kept.length ≤ own.length := by
  have hmarked : more.map (Provenance.markRetry result.observations) = more := by
    rw [List.map_congr_left fun obs hobs => (hp.markRetry _ obs).2 (hmore obs hobs), List.map_id']
  have hcorrelated : ∀ r, more.map (SchedulePolicy.correlateObservation r) = more := fun r => by
    rw [List.map_congr_left fun obs hobs => (hp.correlate r obs).2 (hmore obs hobs), List.map_id']
  have hother : ∀ obs ∈ more, Recovery.isRecovery obs.data = false := by
    intro obs hobs
    have hkind := hmore obs hobs
    cases hdata : obs.data with
    | recovery r =>
        rw [hdata, hp.recovery] at hkind
        cases hkind
    | _ => rfl
  have hsplit : (rewrite job result now).observations
      = Recovery.consolidate ((own.map (Provenance.markRetry result.observations)).map
          (SchedulePolicy.correlateObservation
            { result with observations := Provenance.markRetries result.observations })) ++ more := by
    rw [rewrite_observations, ← Recovery.consolidate_append hother]
    refine congrArg Recovery.consolidate ?_
    have hmarks : Provenance.markRetries result.observations
        = own.map (Provenance.markRetry result.observations) ++ more := by
      conv_lhs => rw [Provenance.markRetries]
      conv_lhs => rw [h, List.map_append, ← h]
      rw [hmarked]
    conv_lhs => rw [hmarks, List.map_append]
    rw [hcorrelated, hmarks]
  refine ⟨_, hsplit, (Recovery.length_consolidate _).trans ?_⟩
  rw [List.length_map, List.length_map]

end State

end HealthMonitor
