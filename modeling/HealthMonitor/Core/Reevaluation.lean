import HealthMonitor.Core.Stalls

/-!
# Reevaluation

What a second evaluation of flows changes when the stored results say the same
of every stage: the reading a rate is entered with, and a stage that found the
progress table full when the first evaluation leaves room in it.
-/

namespace HealthMonitor.Flows

section Frame

variable {snapshot : Snapshot} {job : Job} {now : Time}

/-- The visit to a stage reads or writes its record: the target is active, and the
stored results say something of the stage. -/
def touches (snapshot : Snapshot) (job : Job) (now : Time) (place : Place) : Bool :=
  decide (job.target.expected = .active) && decide (sign snapshot job now place ≠ .missing)

theorem touches_iff {place : Place} : touches snapshot job now place = true
    ↔ job.target.expected = .active ∧ sign snapshot job now place ≠ .missing := by
  rw [touches, Bool.and_eq_true, decide_eq_true_iff, decide_eq_true_iff]

/-- A visit that touches no record leaves the table as it is. -/
theorem evaluateStage_untouched {place : Place} (progress : Table Progress)
    (h : touches snapshot job now place = false) :
    (evaluateStage snapshot job now place.1 progress place.2).progress = progress := by
  by_cases hactive : job.target.expected = .active
  · have hmissing : sign snapshot job now place = .missing := by
      by_contra hne
      rw [touches_iff.mpr ⟨hactive, hne⟩] at h
      cases h
    rw [evaluateStage_sign hactive, hmissing]
  · rw [evaluateStage_inactive hactive]

/-- The visits that do not touch a record leave it alone. -/
theorem run_frame {k : String} (progress : Table Progress) {ps : List Place}
    (h : ∀ p ∈ ps, touches snapshot job now p = true → k ≠ key job.target p) :
    ((visiting snapshot job now).run progress ps).1[k]? = progress[k]? := by
  induction ps generalizing progress with
  | nil => rfl
  | cons place ps ih =>
      rw [Process.run_cons]
      refine (ih _ fun p hp => h p (List.mem_cons_of_mem _ hp)).trans ?_
      show (evaluateStage snapshot job now place.1 progress place.2).progress[k]? = progress[k]?
      cases ht : touches snapshot job now place with
      | true => exact evaluateStage_frame (h place List.mem_cons_self ht)
      | false => rw [evaluateStage_untouched progress ht]

/-- What a visit reports. -/
def Stage.report (out : Stage) : Health × Time × Bool := (out.state, out.time, out.complete)

/-- What the visits report, place by place. -/
def reports (visits : List (Place × Stage)) : List (Place × Health × Time × Bool) :=
  visits.map fun v => (v.1, v.2.report)

theorem reports_append (visits visits' : List (Place × Stage)) :
    reports (visits ++ visits') = reports visits ++ reports visits' :=
  List.map_append

theorem run_reports_length (progress : Table Progress) (ps : List Place) :
    (reports ((visiting snapshot job now).run progress ps).2).length = ps.length := by
  have h := congrArg List.length (@visiting_places snapshot job now progress ps)
  rw [List.length_map] at h
  rw [reports, List.length_map, h]

theorem run_place (progress : Table Progress) (pre : List Place) (place : Place)
    (post : List Place) :
    (visiting snapshot job now).run progress (pre ++ place :: post)
      = let before := (visiting snapshot job now).run progress pre
        let out := evaluateStage snapshot job now place.1 before.1 place.2
        let after := (visiting snapshot job now).run out.progress post
        (after.1, before.2 ++ (place, out) :: after.2) := by
  rw [Process.run_append, Process.run_cons]
  rfl

end Frame

/-! ## A second visit -/

/-- The sample of a stage is a positive rate, and its workload is known. -/
def Positive (snapshot : Snapshot) (job : Job) (now : Time) (place : Place) : Prop :=
  (∃ joint, sign snapshot job now place = .joint joint
      ∧ (Reading.ofNat 0).lt joint.value = true)
    ∧ place.2.mode = .rate ∧ known snapshot job now place = true

theorem touches_of_joint {snapshot : Snapshot} {job : Job} {now : Time} {place : Place}
    (hactive : job.target.expected = .active)
    (h : ∃ joint, sign snapshot job now place = .joint joint) :
    touches snapshot job now place = true := by
  obtain ⟨joint, hsign⟩ := h
  exact touches_iff.mpr ⟨hactive, by rw [hsign]; exact Sign.noConfusion⟩

section Second

variable {snapshot later : Snapshot} {job : Job} {now now' : Time} {place : Place}
  {progress second : Table Progress}

/-- The stage has a sample and no record, and there is no room for one. -/
def Refused (snapshot : Snapshot) (job : Job) (now : Time) (place : Place)
    (progress : Table Progress) : Prop :=
  (∃ joint, sign snapshot job now place = .joint joint)
    ∧ progress[key job.target place]? = none ∧ job.settings.maxFindings ≤ progress.size

/-- The stage has a sample and no record, and there is room for one. -/
def Entered (snapshot : Snapshot) (job : Job) (now : Time) (place : Place)
    (progress : Table Progress) : Prop :=
  (∃ joint, sign snapshot job now place = .joint joint)
    ∧ progress[key job.target place]? = none ∧ progress.size < job.settings.maxFindings

/-- The state of a stage with a record. -/
def judged (flow : Flow) (p : Progress) (time : Time) : Health :=
  if !p.established then .unknown
  else if numSeconds time p.lastProgress ≥ flow.idleAfter.seconds then .unhealthy
  else .healthy

/-- The record of a stage after a sample. -/
def moved (job : Job) (place : Place) (p : Progress) (joint : Joint) : Progress :=
  if p.lastSeen < joint.time then advance job.settings place.2.mode p joint.value joint.time
  else p

theorem le_moved {p : Progress} {joint : Joint} :
    joint.time ≤ (moved job place p joint).lastSeen := by
  unfold moved
  split
  · exact le_refl joint.time
  · rename_i hold
    exact not_lt.mp hold

theorem follow_some {p : Progress} {joint : Joint}
    (h : progress[key job.target place]? = some p) :
    follow job place.1 place.2 progress joint.value joint.time
      = { progress := if p.lastSeen < joint.time
            then progress.insert (key job.target place) (moved job place p joint) else progress
          state := judged place.1 (moved job place p joint) joint.time
          time := joint.time, complete := true } := by
  unfold follow moved judged
  dsimp only
  rw [show progress[job.target.stageKey place.1 place.2]? = some p from h]
  simp only [decide_eq_true_eq]
  rfl

theorem follow_none {joint : Joint} (h : progress[key job.target place]? = none) :
    follow job place.1 place.2 progress joint.value joint.time
      = if progress.size < job.settings.maxFindings then
          { progress := progress.insert (key job.target place)
              { value := joint.value, lastSeen := joint.time, lastProgress := joint.time
                established := false }
            state := if place.2.mode == .rate && (Reading.ofNat 0).lt joint.value then .healthy
              else .unknown
            time := joint.time, complete := true }
        else { progress, state := .unknown, time := joint.time, complete := false } := by
  unfold follow
  dsimp only
  rw [show progress[job.target.stageKey place.1 place.2]? = none from h]
  rfl

/-- The record a visit with a sample leaves. -/
theorem follow_record (joint : Joint) :
    (follow job place.1 place.2 progress joint.value joint.time).progress[
        key job.target place]?
      = match progress[key job.target place]? with
        | some p => some (moved job place p joint)
        | none =>
            if progress.size < job.settings.maxFindings then
              some
                { value := joint.value, lastSeen := joint.time, lastProgress := joint.time
                  established := false }
            else none := by
  cases h : progress[key job.target place]? with
  | some p =>
      rw [follow_some h]
      dsimp only
      split
      · exact Std.ExtTreeMap.getElem?_insert_self
      · rename_i hold
        rw [h, moved, if_neg hold]
  | none =>
      rw [follow_none h]
      split
      · exact Std.ExtTreeMap.getElem?_insert_self
      · exact h

/-- A sample that is not newer than the record changes nothing. -/
theorem follow_again {p : Progress} {joint : Joint}
    (h : second[key job.target place]? = some p) (hold : joint.time ≤ p.lastSeen) :
    follow job place.1 place.2 second joint.value joint.time
      = { progress := second, state := judged place.1 p joint.time
          time := joint.time, complete := true } := by
  have hnot : ¬ p.lastSeen < joint.time := not_lt.mpr hold
  rw [follow_some h, if_neg hnot, moved, if_neg hnot]

/-- A later visit to a stage, of which the stored results say the same, with the
record an earlier visit left. -/
structure Again (snapshot later : Snapshot) (job : Job) (now now' : Time) (place : Place)
    (progress second : Table Progress) : Prop where
  active : job.target.expected = .active
  sign : sign later job now' place = sign snapshot job now place
  known : known later job now' place = known snapshot job now place
  record : touches snapshot job now place = true → second[key job.target place]?
    = (evaluateStage snapshot job now place.1 progress place.2).progress[key job.target place]?

/-- The record a visit with a sign left. -/
theorem Again.touched (h : Again snapshot later job now now' place progress second)
    (hsign : Flows.sign snapshot job now place ≠ .missing) :
    second[key job.target place]? = (evaluateStage snapshot job now place.1 progress
      place.2).progress[key job.target place]? :=
  h.record (touches_iff.mpr ⟨h.active, hsign⟩)

/-- The later visit changes nothing, unless it finds room that the earlier one did
not. -/
theorem Again.keeps (h : Again snapshot later job now now' place progress second)
    (hroom : Refused snapshot job now place progress →
      job.settings.maxFindings ≤ second.size) :
    (evaluateStage later job now' place.1 second place.2).progress = second
      ∧ (evaluateStage later job now' place.1 second place.2).complete
        = (evaluateStage snapshot job now place.1 progress place.2).complete
      ∧ (now' = now → (evaluateStage later job now' place.1 second place.2).time
        = (evaluateStage snapshot job now place.1 progress place.2).time) := by
  have hrecord := h.touched
  rw [evaluateStage_sign h.active] at hrecord ⊢
  rw [evaluateStage_sign h.active, h.sign, h.known]
  cases hsign : Flows.sign snapshot job now place with
  | idle time =>
      rw [hsign] at hrecord
      replace hrecord := hrecord Sign.noConfusion
      refine ⟨Table.erase_of_none (hrecord.trans Std.ExtTreeMap.getElem?_erase_self), rfl,
        fun _ => rfl⟩
  | missing => exact ⟨rfl, rfl, id⟩
  | joint joint =>
      rw [hsign] at hrecord
      replace hrecord := hrecord Sign.noConfusion
      dsimp only at hrecord ⊢
      rw [checkWorkload_progress, follow_record] at hrecord
      rw [checkWorkload_progress]
      -- what the two visits agree on, before the workload is looked at
      have hsame : (follow job place.1 place.2 second joint.value joint.time).progress = second
          ∧ (follow job place.1 place.2 second joint.value joint.time).complete
            = (follow job place.1 place.2 progress joint.value joint.time).complete
          ∧ (follow job place.1 place.2 second joint.value joint.time).time
            = (follow job place.1 place.2 progress joint.value joint.time).time := by
        cases hp : progress[key job.target place]? with
        | some p =>
            rw [hp] at hrecord
            rw [follow_again hrecord le_moved, follow_some hp]
            exact ⟨rfl, rfl, rfl⟩
        | none =>
            rw [hp] at hrecord
            dsimp only at hrecord
            split at hrecord
            · rename_i hfree
              rw [follow_again hrecord (le_refl joint.time), follow_none hp, if_pos hfree]
              exact ⟨rfl, rfl, rfl⟩
            · rename_i hfull
              have hlimit := hroom ⟨⟨joint, hsign⟩, hp, not_lt.mp hfull⟩
              rw [follow_none hrecord, if_neg (not_lt.mpr hlimit), follow_none hp,
                if_neg hfull]
              exact ⟨rfl, rfl, rfl⟩
      obtain ⟨hprogress, hcomplete, htime⟩ := hsame
      refine ⟨hprogress, ?_, fun _ => ?_⟩
      · unfold Stage.checkWorkload
        split
        · exact hcomplete
        · rfl
      · unfold Stage.checkWorkload
        split
        · exact htime
        · exact htime

/-- The later visit reports the same state, unless the earlier one entered a
positive rate, or the later one does. -/
theorem Again.state (h : Again snapshot later job now now' place progress second)
    (hentered : Entered snapshot job now place progress → ¬ Positive snapshot job now place)
    (hrefused : Refused snapshot job now place progress → Positive snapshot job now place →
      job.settings.maxFindings ≤ second.size) :
    (evaluateStage later job now' place.1 second place.2).state
      = (evaluateStage snapshot job now place.1 progress place.2).state := by
  have hrecord := h.touched
  rw [evaluateStage_sign h.active] at hrecord ⊢
  rw [evaluateStage_sign h.active, h.sign, h.known]
  cases hsign : Flows.sign snapshot job now place with
  | idle time => rfl
  | missing => rfl
  | joint joint =>
      rw [hsign] at hrecord
      replace hrecord := hrecord Sign.noConfusion
      dsimp only at hrecord ⊢
      rw [checkWorkload_progress, follow_record] at hrecord
      unfold Stage.checkWorkload
      split
      · rename_i hknown
        cases hp : progress[key job.target place]? with
        | some p =>
            rw [hp] at hrecord
            rw [follow_again hrecord le_moved, follow_some hp]
        | none =>
            have hpositive : (place.2.mode == .rate && (Reading.ofNat 0).lt joint.value) = true →
                Positive snapshot job now place := by
              intro hpositive
              rw [Bool.and_eq_true, beq_iff_eq] at hpositive
              exact ⟨⟨joint, hsign, hpositive.2⟩, hpositive.1, hknown⟩
            rw [hp] at hrecord
            dsimp only at hrecord
            rw [follow_none hp]
            split at hrecord
            · rename_i hfree
              rw [follow_again hrecord (le_refl joint.time), if_pos hfree, if_neg]
              · rfl
              · exact fun hrate => hentered ⟨⟨joint, hsign⟩, hp, hfree⟩ (hpositive hrate)
            · rename_i hfull
              rw [follow_none hrecord, if_neg hfull]
              split
              · rename_i hroom
                rw [if_neg]
                intro hrate
                have hlimit := hrefused ⟨⟨joint, hsign⟩, hp, not_lt.mp hfull⟩ (hpositive hrate)
                exact absurd hroom (not_lt.mpr hlimit)
              · rfl
      · rfl

/-- The later visit enters a stage that was refused, when there is room. -/
theorem Again.enters (h : Again snapshot later job now now' place progress second)
    (hrefused : Refused snapshot job now place progress)
    (hroom : second.size < job.settings.maxFindings) :
    second[key job.target place]? = none
      ∧ (evaluateStage later job now' place.1 second place.2).progress[
          key job.target place]? ≠ none := by
  obtain ⟨⟨joint, hsign⟩, hp, hfull⟩ := hrefused
  have hrecord := h.touched (by rw [hsign]; exact Sign.noConfusion)
  rw [evaluateStage_sign h.active, hsign] at hrecord
  dsimp only at hrecord
  rw [checkWorkload_progress, follow_record, hp] at hrecord
  dsimp only at hrecord
  rw [if_neg (not_lt.mpr hfull)] at hrecord
  refine ⟨hrecord, ?_⟩
  rw [evaluateStage_sign h.active, h.sign, hsign]
  dsimp only
  rw [checkWorkload_progress, follow_record, hrecord]
  dsimp only
  rw [if_pos hroom]
  exact Option.some_ne_none _

/-- A stage that is entered with a positive rate is healthy once. -/
theorem Again.lapses (h : Again snapshot later job now now' place progress second)
    (hentered : Entered snapshot job now place progress)
    (hpositive : Positive snapshot job now place) :
    (evaluateStage later job now' place.1 second place.2).state
      ≠ (evaluateStage snapshot job now place.1 progress place.2).state := by
  obtain ⟨_, hp, hfree⟩ := hentered
  obtain ⟨⟨joint, hsign, hvalue⟩, hmode, hknown⟩ := hpositive
  have hrecord := h.touched (by rw [hsign]; exact Sign.noConfusion)
  rw [evaluateStage_sign h.active, hsign] at hrecord
  dsimp only at hrecord
  rw [checkWorkload_progress, follow_record, hp] at hrecord
  dsimp only at hrecord
  rw [if_pos hfree] at hrecord
  rw [evaluateStage_sign h.active, evaluateStage_sign h.active, h.sign, h.known, hsign, hknown]
  dsimp only
  rw [follow_again hrecord (le_refl joint.time), follow_none hp, if_pos hfree, hmode, hvalue]
  rintro ⟨⟩

end Second

/-! ## A second run -/

section Rerun

variable {snapshot later : Snapshot} {job : Job} {now now' : Time}

/-- No two stages whose records are read or written have one key. -/
def Distinct (snapshot : Snapshot) (job : Job) (now : Time) : Prop :=
  (((places job.target).filter (touches snapshot job now)).map (key job.target)).Nodup

instance (snapshot : Snapshot) (job : Job) (now : Time) : Decidable (Distinct snapshot job now) :=
  inferInstanceAs (Decidable (List.Nodup _))

/-- The other stages that are touched have keys of their own. -/
theorem Distinct.other (hdistinct : Distinct snapshot job now) {pre post : List Place}
    {place : Place} (h : places job.target = pre ++ place :: post)
    (ht : touches snapshot job now place = true) :
    (∀ p ∈ pre, touches snapshot job now p = true → key job.target place ≠ key job.target p)
      ∧ ∀ p ∈ post, touches snapshot job now p = true →
        key job.target place ≠ key job.target p := by
  rw [Distinct, h, List.filter_append, List.filter_cons_of_pos ht, List.map_append,
    List.map_cons, List.nodup_append, List.nodup_cons] at hdistinct
  obtain ⟨_, ⟨hpost, _⟩, hpre⟩ := hdistinct
  refine ⟨fun p hp htp he => ?_, fun p hp htp he => ?_⟩
  · exact hpre _ (List.mem_map_of_mem (List.mem_filter.mpr ⟨hp, htp⟩)) _ List.mem_cons_self he.symm
  · rw [he] at hpost
    exact hpost (List.mem_map_of_mem (List.mem_filter.mpr ⟨hp, htp⟩))

/-- The table when a place is visited. -/
def tableAt (snapshot : Snapshot) (job : Job) (now : Time) (pre : List Place) :
    Table Progress :=
  ((visiting snapshot job now).run snapshot.progress pre).1

theorem tableAt_append (pre : List Place) (place : Place) :
    tableAt snapshot job now (pre ++ [place])
      = (evaluateStage snapshot job now place.1 (tableAt snapshot job now pre)
          place.2).progress := by
  rw [tableAt, Process.run_append]
  rfl

/-- The record of a place is the one its visit left. -/
theorem tableAt_record {pre post : List Place} {place : Place}
    (hdistinct : Distinct snapshot job now) (h : places job.target = pre ++ place :: post)
    (ht : touches snapshot job now place = true) :
    (tableAt snapshot job now (places job.target))[key job.target place]?
      = (evaluateStage snapshot job now place.1 (tableAt snapshot job now pre)
          place.2).progress[key job.target place]? := by
  rw [h, tableAt, run_place]
  exact run_frame _ (hdistinct.other h ht).2

/-- The table a place finds has the record it started with. -/
theorem tableAt_before {pre post : List Place} {place : Place}
    (hdistinct : Distinct snapshot job now) (h : places job.target = pre ++ place :: post)
    (ht : touches snapshot job now place = true) :
    (tableAt snapshot job now pre)[key job.target place]?
      = snapshot.progress[key job.target place]? :=
  run_frame _ (hdistinct.other h ht).1

/-- The same visit, over the table the whole run left. -/
theorem again_self {pre post : List Place} {place : Place}
    (hactive : job.target.expected = .active) (hdistinct : Distinct snapshot job now)
    (h : places job.target = pre ++ place :: post) :
    Again snapshot snapshot job now now place (tableAt snapshot job now pre)
      (tableAt snapshot job now (places job.target)) where
  active := hactive
  sign := rfl
  known := rfl
  record ht := tableAt_record hdistinct h ht

/-- Visits run again over the table the whole run left: nothing changes where no
stage was refused for want of room that there is now, and nothing is reported
otherwise where no stage was entered with a positive rate. -/
theorem rerun (hactive : job.target.expected = .active)
    (hdistinct : Distinct snapshot job now)
    (pre qs post : List Place) (h : places job.target = pre ++ qs ++ post)
    (hroom : ∀ pre' place post', pre ++ qs = pre' ++ place :: post' →
      Refused snapshot job now place (tableAt snapshot job now pre') →
        job.settings.maxFindings ≤ (tableAt snapshot job now (places job.target)).size) :
    ((visiting snapshot job now).run (tableAt snapshot job now (places job.target)) qs).1
        = tableAt snapshot job now (places job.target)
      ∧ ((∀ pre' place post', pre ++ qs = pre' ++ place :: post' →
          Entered snapshot job now place (tableAt snapshot job now pre') →
            ¬ Positive snapshot job now place) →
        reports ((visiting snapshot job now).run
            (tableAt snapshot job now (places job.target)) qs).2
          = reports ((visiting snapshot job now).run (tableAt snapshot job now pre) qs).2) := by
  induction qs generalizing pre with
  | nil => exact ⟨rfl, fun _ => rfl⟩
  | cons place qs ih =>
      have hsplit : places job.target = pre ++ place :: (qs ++ post) := by
        rw [h, List.append_assoc, List.cons_append]
      have hagain := @again_self snapshot job now _ _ _ hactive hdistinct hsplit
      obtain ⟨htable, hcomplete, htime⟩ := hagain.keeps (hroom pre place qs rfl)
      have hassoc : pre ++ place :: qs = (pre ++ [place]) ++ qs := by
        rw [List.append_assoc, List.singleton_append]
      rw [hassoc] at h hroom
      obtain ⟨hrest, hreports⟩ := ih (pre ++ [place]) h hroom
      rw [Process.run_cons, Process.run_cons]
      have hstep : ((visiting snapshot job now).step
          (tableAt snapshot job now (places job.target)) place).1
            = tableAt snapshot job now (places job.target) := htable
      have hfirst : ((visiting snapshot job now).step (tableAt snapshot job now pre) place).1
          = tableAt snapshot job now (pre ++ [place]) := (tableAt_append pre place).symm
      rw [hstep, hfirst]
      refine ⟨hrest, fun hentered => ?_⟩
      rw [hassoc] at hentered
      have hstate := hagain.state (hentered pre place qs hassoc.symm)
        fun hrefused _ => hroom pre place qs hassoc.symm hrefused
      refine (reports_append _ _).trans (Eq.trans ?_ (reports_append _ _).symm)
      rw [hreports hentered]
      refine congrArg (· ++ _) ?_
      simp only [reports, visiting, List.map_cons, List.map_nil, Stage.report, hcomplete,
        htime rfl, hstate]

/-- What is reported for a place can be read off the observations. -/
theorem state_of_observations {first second : Table Progress} {pre post : List Place}
    {place : Place}
    (h : ((visiting snapshot job now).run second (pre ++ place :: post)).2.map (reported job)
      = ((visiting snapshot job now).run first (pre ++ place :: post)).2.map (reported job)) :
    (evaluateStage snapshot job now place.1
        ((visiting snapshot job now).run second pre).1 place.2).state
      = (evaluateStage snapshot job now place.1
        ((visiting snapshot job now).run first pre).1 place.2).state := by
  have hlength : ∀ progress, (((visiting snapshot job now).run progress pre).2.map
      (reported job)).length = pre.length := by
    intro progress
    have hplaces := congrArg List.length (@visiting_places snapshot job now progress pre)
    rwa [List.length_map] at hplaces ⊢
  rw [run_place, run_place] at h
  simp only [List.map_append, List.map_cons] at h
  have htail := (List.append_inj h ((hlength second).trans (hlength first).symm)).2
  have hhead := congrArg Observation.data (List.cons.inj htail).1
  have hdata : Data.progress (evaluateStage snapshot job now place.1
        ((visiting snapshot job now).run second pre).1 place.2).state
      = .progress (evaluateStage snapshot job now place.1
        ((visiting snapshot job now).run first pre).1 place.2).state := hhead
  injection hdata

/-- A run that repeats itself refused no stage that there is room for now. -/
theorem refused_of_repeats (hactive : job.target.expected = .active)
    (hdistinct : Distinct snapshot job now)
    (h : ((visiting snapshot job now).run (tableAt snapshot job now (places job.target))
        (places job.target)).1 = tableAt snapshot job now (places job.target))
    {pre post : List Place} {place : Place}
    (hsplit : places job.target = pre ++ place :: post)
    (hrefused : Refused snapshot job now place (tableAt snapshot job now pre)) :
    job.settings.maxFindings ≤ (tableAt snapshot job now (places job.target)).size := by
  by_contra hroom
  rw [not_le] at hroom
  induction hn : pre.length using Nat.strong_induction_on generalizing pre place post with
  | _ n ih =>
      -- the first refused stage is entered by the second run
      have hbefore := (@rerun snapshot job now hactive hdistinct [] pre (place :: post)
        (by rw [List.nil_append, hsplit]) (by
          intro pre' place' post' hpre hrefused'
          rw [List.nil_append] at hpre
          refine absurd hrefused' fun hrefused' => @ih pre'.length ?_ pre'
            (post' ++ place :: post) place' ?_ hrefused' rfl
          · rw [← hn, hpre, List.length_append, List.length_cons]
            omega
          · rw [hsplit, hpre, List.append_assoc, List.cons_append])).1
      have hagain := @again_self snapshot job now _ _ _ hactive hdistinct hsplit
      obtain ⟨hnone, hsome⟩ := hagain.enters hrefused hroom
      have hrun : ∀ progress, ((visiting snapshot job now).run progress (places job.target)).1
          = ((visiting snapshot job now).run (evaluateStage snapshot job now place.1
              ((visiting snapshot job now).run progress pre).1 place.2).progress post).1 := by
        intro progress
        rw [hsplit, run_place]
      rw [hrun, hbefore] at h
      have hpost := (hdistinct.other hsplit (touches_of_joint hactive hrefused.1)).2
      rw [← h, run_frame _ hpost] at hnone
      exact hsome hnone

end Rerun

/-! ## The number of records -/

/-- The number of records after the visit to a place, from the number before. -/
def occupy (snapshot : Snapshot) (job : Job) (now : Time) (place : Place) (n : Nat) : Nat :=
  match sign snapshot job now place, snapshot.progress[key job.target place]? with
  | .idle _, some _ => n - 1
  | .joint _, none => if n < job.settings.maxFindings then n + 1 else n
  | _, _ => n

/-- The number of records after the visits to some places. -/
def occupied (snapshot : Snapshot) (job : Job) (now : Time) (ps : List Place) : Nat :=
  ps.foldl (fun n place => occupy snapshot job now place n) snapshot.progress.size

/-- Every visit adds one record at most. -/
theorem occupied_le (snapshot : Snapshot) (job : Job) (now : Time) (ps : List Place) :
    occupied snapshot job now ps ≤ snapshot.progress.size + ps.length := by
  induction ps using List.reverseRecOn with
  | nil => exact le_rfl
  | append_singleton ps place ih =>
      have hstep : ∀ n, occupy snapshot job now place n ≤ n + 1 := by
        intro n
        unfold occupy
        split
        · omega
        · split <;> omega
        · omega
      rw [occupied, List.foldl_append, List.length_append, List.length_singleton]
      exact (hstep _).trans (by rw [← occupied]; omega)

section Occupied

variable {snapshot : Snapshot} {job : Job} {now : Time}

theorem visit_size {place : Place} {progress : Table Progress}
    (hactive : job.target.expected = .active)
    (h : touches snapshot job now place = true →
      progress[key job.target place]? = snapshot.progress[key job.target place]?) :
    (evaluateStage snapshot job now place.1 progress place.2).progress.size
      = occupy snapshot job now place progress.size := by
  rw [evaluateStage_sign hactive, occupy]
  have hsame : sign snapshot job now place ≠ .missing →
      progress[key job.target place]? = snapshot.progress[key job.target place]? :=
    fun hsign => h (touches_iff.mpr ⟨hactive, hsign⟩)
  cases hsign : sign snapshot job now place with
  | missing => rfl
  | idle time =>
      rw [← hsame (by rw [hsign]; exact Sign.noConfusion)]
      dsimp only
      cases hp : progress[key job.target place]? with
      | none => rw [Table.erase_of_none hp]
      | some p =>
          have hmem := Table.mem_iff_getElem?.mpr ⟨p, hp⟩
          simp [Std.ExtTreeMap.size_erase, hmem]
  | joint joint =>
      rw [← hsame (by rw [hsign]; exact Sign.noConfusion)]
      dsimp only
      rw [checkWorkload_progress]
      cases hp : progress[key job.target place]? with
      | some p =>
          rw [follow_some hp]
          dsimp only
          split
          · exact Table.size_insert_of_mem (Table.mem_iff_getElem?.mpr ⟨p, hp⟩)
          · rfl
      | none =>
          rw [follow_none hp]
          split
          · refine Table.size_insert_of_notMem fun hmem => ?_
            obtain ⟨p, hp'⟩ := Table.mem_iff_getElem?.mp hmem
            rw [hp] at hp'
            cases hp'
          · rfl

theorem tableAt_size (hactive : job.target.expected = .active)
    (hdistinct : Distinct snapshot job now) {pre post : List Place}
    (h : places job.target = pre ++ post) :
    (tableAt snapshot job now pre).size = occupied snapshot job now pre := by
  induction pre using List.reverseRecOn generalizing post with
  | nil => rfl
  | append_singleton pre place ih =>
      rw [List.append_assoc, List.singleton_append] at h
      rw [tableAt_append, visit_size hactive (tableAt_before hdistinct h), ih h, occupied,
        occupied, List.foldl_append]
      rfl

end Occupied

/-! ## Idempotence -/

/-- A second evaluation at the same instant reports and leaves what the first
did. -/
def Idempotent (snapshot : Snapshot) (job : Job) (now : Time) : Prop :=
  ∀ clock clock',
    (evaluate (evaluate snapshot job now clock).1 job now clock').1.progress
        = (evaluate snapshot job now clock).1.progress
      ∧ (evaluate (evaluate snapshot job now clock).1 job now clock').2.observations
        = (evaluate snapshot job now clock).2.observations
      ∧ (evaluate (evaluate snapshot job now clock).1 job now clock').2.operations.map
          (fun op => (op.id, op.coverage))
        = (evaluate snapshot job now clock).2.operations.map fun op => (op.id, op.coverage)

/-- No stage without a record meets a positive rate where there is room for it, and
none is left out of a table that ends with room. -/
structure Steady (snapshot : Snapshot) (job : Job) (now : Time) : Prop where
  entered : ∀ pre place post, places job.target = pre ++ place :: post →
    snapshot.progress[key job.target place]? = none →
      occupied snapshot job now pre < job.settings.maxFindings →
        ¬ Positive snapshot job now place
  refused : ∀ pre place post, places job.target = pre ++ place :: post →
    snapshot.progress[key job.target place]? = none →
      job.settings.maxFindings ≤ occupied snapshot job now pre →
        (∃ joint, sign snapshot job now place = .joint joint) →
          job.settings.maxFindings ≤ occupied snapshot job now (places job.target)

section Idempotent

variable {snapshot later : Snapshot} {job : Job} {now now' : Time}

/-- The observation of what a visit reports. -/
def observed (job : Job) (r : Place × Health × Time × Bool) : Observation :=
  { resource := key job.target r.1
    operation := operationId r.1.1
    observedAt := r.2.2.1
    expected := job.target.expected
    data := .progress r.2.1 }

theorem map_reported (visits : List (Place × Stage)) :
    visits.map (reported job) = (reports visits).map (observed job) := by
  rw [reports, List.map_map]
  rfl

/-- The operations of an evaluation follow from what its visits report. -/
theorem sweep_operations (flows : List Flow) {sweep sweep' : Sweep}
    (hops : sweep.operations = sweep'.operations)
    (h : reports ((visiting snapshot job now).run sweep.progress
          (flows.flatMap fun flow => flow.stages.map (flow, ·))).2
      = reports ((visiting snapshot job now).run sweep'.progress
          (flows.flatMap fun flow => flow.stages.map (flow, ·))).2) :
    (flows.foldl (flowStep snapshot job now) sweep).operations
      = (flows.foldl (flowStep snapshot job now) sweep').operations := by
  induction flows generalizing sweep sweep' with
  | nil => exact hops
  | cons flow flows ih =>
      rw [List.flatMap_cons, Process.run_append, Process.run_append, reports_append,
        reports_append] at h
      obtain ⟨hflow, hrest⟩ := List.append_inj h
        ((run_reports_length _ _).trans (run_reports_length _ _).symm)
      have hall : ∀ visits : List (Place × Stage),
          visits.all (·.2.complete) = (reports visits).all (·.2.2.2) := by
        intro visits
        rw [reports, List.all_map]
        rfl
      rw [List.foldl_cons, List.foldl_cons, flowStep_eq, flowStep_eq]
      refine ih ?_ hrest
      dsimp only
      rw [hops, hall, hall, walkRun, walkRun, hflow]

theorem evaluate_operations {progress : Table Progress} (clock clock' : Time)
    (h : reports ((visiting snapshot job now).run progress (places job.target)).2
      = reports ((visiting snapshot job now).run snapshot.progress (places job.target)).2) :
    (evaluate { snapshot with progress } job now clock').2.operations.map
        (fun op => (op.id, op.coverage))
      = (evaluate snapshot job now clock).2.operations.map fun op => (op.id, op.coverage) := by
  unfold evaluate
  dsimp only
  split
  · rfl
  · refine congrArg _ ?_
    exact @sweep_operations snapshot job now job.target.flows
      { progress, operations := [], observations := [] }
      { progress := snapshot.progress, operations := [], observations := [] } rfl h

/-- Idempotence, in terms of the visits. -/
theorem idempotent_of_rerun
    (hprogress : ((visiting snapshot job now).run
        (tableAt snapshot job now (places job.target)) (places job.target)).1
      = tableAt snapshot job now (places job.target))
    (hreports : reports ((visiting snapshot job now).run
        (tableAt snapshot job now (places job.target)) (places job.target)).2
      = reports ((visiting snapshot job now).run snapshot.progress (places job.target)).2) :
    Idempotent snapshot job now := by
  intro clock clock'
  rw [evaluate_progress clock]
  refine ⟨?_, ?_, evaluate_operations clock clock' hreports⟩
  · rw [evaluate_progress, visiting_results]
    exact hprogress
  · rw [evaluate_observations, evaluate_observations, visiting_results, map_reported,
      map_reported]
    exact congrArg _ hreports

theorem rerun_of_idempotent (h : Idempotent snapshot job now) :
    ((visiting snapshot job now).run
        (tableAt snapshot job now (places job.target)) (places job.target)).1
      = tableAt snapshot job now (places job.target)
    ∧ ((visiting snapshot job now).run
        (tableAt snapshot job now (places job.target)) (places job.target)).2.map (reported job)
      = ((visiting snapshot job now).run snapshot.progress (places job.target)).2.map
        (reported job) := by
  obtain ⟨hprogress, hobservations, _⟩ := h 0 0
  rw [evaluate_progress 0, evaluate_progress, visiting_results] at hprogress
  rw [evaluate_progress 0, evaluate_observations, evaluate_observations,
    visiting_results] at hobservations
  exact ⟨hprogress, hobservations⟩

theorem steady_of_idempotent (hactive : job.target.expected = .active)
    (hdistinct : Distinct snapshot job now) (h : Idempotent snapshot job now) :
    Steady snapshot job now := by
  obtain ⟨hprogress, hobservations⟩ := rerun_of_idempotent h
  have hrefused := @refused_of_repeats snapshot job now hactive hdistinct hprogress
  refine ⟨fun pre place post hsplit hnone hfree hpositive => ?_,
    fun pre place post hsplit hnone hfull hjoint => ?_⟩
  · -- the second run reports another state of the place
    obtain ⟨hjoint, hrate⟩ := hpositive
    have hbefore := (@rerun snapshot job now hactive hdistinct [] pre (place :: post)
      (by rw [List.nil_append, hsplit]) fun pre' place' post' hpre => by
        rw [List.nil_append] at hpre
        refine @hrefused pre' (post' ++ place :: post) place' ?_
        rw [hsplit, hpre, List.append_assoc, List.cons_append]).1
    have hagain := @again_self snapshot job now _ _ _ hactive hdistinct hsplit
    have hentered : Entered snapshot job now place (tableAt snapshot job now pre) := by
      obtain ⟨joint, hsign, _⟩ := hjoint
      refine ⟨⟨joint, hsign⟩, (tableAt_before hdistinct hsplit
        (touches_of_joint hactive ⟨joint, hsign⟩)).trans hnone, ?_⟩
      rw [tableAt_size hactive hdistinct hsplit]
      exact hfree
    refine hagain.lapses hentered ⟨hjoint, hrate⟩ ?_
    rw [hsplit] at hobservations
    have hstate := state_of_observations hobservations
    rw [← hsplit, hbefore] at hstate
    exact hstate
  · rw [← tableAt_size hactive hdistinct (List.append_nil _).symm]
    refine hrefused hsplit ⟨hjoint, (tableAt_before hdistinct hsplit
      (touches_of_joint hactive hjoint)).trans hnone, ?_⟩
    rw [tableAt_size hactive hdistinct hsplit]
    exact hfull

theorem idempotent_of_steady (hactive : job.target.expected = .active)
    (hdistinct : Distinct snapshot job now) (h : Steady snapshot job now) :
    Idempotent snapshot job now := by
  have hrun := @rerun snapshot job now hactive hdistinct [] (places job.target) []
    (by rw [List.nil_append, List.append_nil]) fun pre place post hsplit hrefused => by
      obtain ⟨hjoint, hnone, hfull⟩ := hrefused
      rw [List.nil_append] at hsplit
      rw [tableAt_size hactive hdistinct hsplit] at hfull
      rw [tableAt_size hactive hdistinct (List.append_nil _).symm]
      exact h.refused pre place post hsplit
        ((tableAt_before hdistinct hsplit (touches_of_joint hactive hjoint)).symm.trans hnone)
          hfull hjoint
  refine idempotent_of_rerun hrun.1 (hrun.2 fun pre place post hsplit hentered => ?_)
  obtain ⟨hjoint, hnone, hfree⟩ := hentered
  rw [List.nil_append] at hsplit
  rw [tableAt_size hactive hdistinct hsplit] at hfree
  exact h.entered pre place post hsplit
    ((tableAt_before hdistinct hsplit (touches_of_joint hactive hjoint)).symm.trans hnone) hfree

/-- A target that is not active is not followed, so there is nothing to repeat. -/
theorem idempotent_of_inactive (hactive : job.target.expected ≠ .active) :
    Idempotent snapshot job now := by
  have hrun : ∀ progress (ps : List Place),
      ((visiting snapshot job now).run progress ps).1 = progress := by
    intro progress ps
    induction ps generalizing progress with
    | nil => rfl
    | cons place ps ih =>
        rw [Process.run_cons]
        refine (ih _).trans ?_
        simp only [visiting, evaluateStage_inactive hactive]
  refine idempotent_of_rerun ?_ ?_
  · exact hrun _ _
  · rw [tableAt, hrun]

/-- The observations are those of the visits, in the order of the places. -/
theorem observation_at {pre post : List Place} {place : Place}
    (hsplit : places job.target = pre ++ place :: post) (clock : Time) :
    ((evaluate snapshot job now clock).2.observations[pre.length]?).map Observation.data
      = some (.progress (evaluateStage snapshot job now place.1
          (tableAt snapshot job now pre) place.2).state) := by
  have hlength : (((visiting snapshot job now).run snapshot.progress pre).2.map
      (reported job)).length = pre.length := by
    have hplaces := congrArg List.length
      (@visiting_places snapshot job now snapshot.progress pre)
    rwa [List.length_map] at hplaces ⊢
  rw [evaluate_observations, hsplit, run_place, List.map_append, List.map_cons,
    List.getElem?_append_right (le_of_eq hlength), hlength, Nat.sub_self]
  rfl

/-- The state of a stage stays when what is stored says the same of it, whatever it
says of others. -/
theorem state_kept (hdistinct : Distinct snapshot job now) (hlater : Distinct later job now')
    {pre post : List Place} {place : Place}
    (hsplit : places job.target = pre ++ place :: post)
    (hstarts : snapshot.progress[key job.target place]? = none →
      ¬ Positive snapshot job now place)
    (clock : Time) (hprogress : later.progress = (evaluate snapshot job now clock).1.progress)
    (hsign : sign later job now' place = sign snapshot job now place)
    (hknown : known later job now' place = known snapshot job now place) :
    (evaluateStage later job now' place.1 (tableAt later job now' pre) place.2).state
      = (evaluateStage snapshot job now place.1 (tableAt snapshot job now pre)
          place.2).state := by
  by_cases hactive : job.target.expected = .active
  · have hrecord : touches snapshot job now place = true →
        (tableAt later job now' pre)[key job.target place]?
          = (evaluateStage snapshot job now place.1 (tableAt snapshot job now pre)
              place.2).progress[key job.target place]? := by
      intro ht
      have htouches : touches later job now' place = true := by
        rw [touches, hsign]
        exact ht
      rw [tableAt_before hlater hsplit htouches, hprogress, evaluate_progress,
        ← tableAt_record hdistinct hsplit ht]
      rfl
    have hagain : Again snapshot later job now now' place (tableAt snapshot job now pre)
        (tableAt later job now' pre) := ⟨hactive, hsign, hknown, hrecord⟩
    have hnone : (∃ joint, sign snapshot job now place = .joint joint) →
        (tableAt snapshot job now pre)[key job.target place]? = none →
          ¬ Positive snapshot job now place :=
      fun hjoint h => hstarts
        ((tableAt_before hdistinct hsplit (touches_of_joint hactive hjoint)).symm.trans h)
    exact hagain.state (fun hentered => hnone hentered.1 hentered.2.1)
      fun hrefused hpositive => absurd hpositive (hnone hrefused.1 hrefused.2.1)
  · rw [evaluateStage_inactive hactive, evaluateStage_inactive hactive]

end Idempotent

end HealthMonitor.Flows

/-! ## Where a second evaluation differs -/

namespace HealthMonitor.Sample

/-- Readings of metrics of the target, each with its time and value. -/
def readings (now : Nat) (rs : List (String × Nat × Nat)) : Snapshot :=
  { start with
    results := start.results.insert "app/Metrics"
      (result .metrics (sec now) [operation "telemetry" (sec now)]
        (rs.map fun e => gauge e.1 e.2.1 e.2.2)) }

/-- A flow of one stage that reports a rate. -/
def rated : Job :=
  { job .flows with
    target :=
      { target with
        flows := [pipeline "a" { counting "b" "done" with mode := .rate }] } }

/-- A table of one record, that of the second flow. -/
def crowded : Job :=
  { job .flows with
    target :=
      { target with
        flows := [pipeline "a" (counting "b" "done"),
          { pipeline "c" (counting "d" "out") with demand := "rest" }] }
    settings := { (job .flows).settings with maxFindings := 1 } }

def followed : Progress where
  value := .ofNat 1
  lastSeen := sec 0
  lastProgress := sec 0
  established := false

end HealthMonitor.Sample

namespace HealthMonitor.Flows

end HealthMonitor.Flows
