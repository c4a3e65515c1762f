import HealthMonitor.Core.Runs
import HealthMonitor.Core.Sampling

/-!
# Single run

The loop in `once` mode from its first turn to its end. A turn never adds work, and
as long as there is work, a later turn does some: a task ends, or the clock reaches
an entry that is due. The loop ends with no work left, and then each entry has
contributed its samples.
-/

namespace HealthMonitor.Scheduler

variable {jobs : List Job} {notes : List Note} {s : Drive} {start now : Instant} {t : Turn}

/-! ## One turn -/

theorem select_kept (h : Kept jobs notes s) {event : Event} (hevent : event.Received) :
    Kept jobs (notes ++ (select .once s event).2) (select .once s event).1 := by
  cases event with
  | stopped => exact hevent.elim
  | completed index ending started clock sending =>
      obtain ⟨hending, rfl⟩ := hevent
      exact complete_kept h index hending
  | slept =>
      rw [select, List.append_nil]
      exact h
  | changed jobs now =>
      simp only [select, ne_eq, not_true_eq_false, decide_false, Bool.and_false, if_false,
        Bool.false_eq_true, List.append_nil]
      exact h
  | closed =>
      rw [select, List.append_nil]
      exact h.congr rfl rfl rfl rfl

theorem select_work (h : Kept jobs notes s) {event : Event} (hevent : event.Received) :
    (select .once s event).1.entries = s.entries ∧ (select .once s event).1.ended = s.ended
      ∧ work (select .once s event).1 ≤ work s := by
  cases event with
  | stopped => exact hevent.elim
  | completed index ending started clock sending =>
      obtain ⟨hending, rfl⟩ := hevent
      obtain ⟨hentries, hended, hwork⟩ := @complete_work _ _ _ h index _ started clock hending
      refine ⟨hentries, hended, ?_⟩
      rw [select, hwork]
      exact Nat.sub_le _ _
  | slept => exact ⟨rfl, rfl, le_rfl⟩
  | changed jobs now =>
      simp only [select, ne_eq, not_true_eq_false, decide_false, Bool.and_false, if_false,
        Bool.false_eq_true]
      exact ⟨trivial, trivial, le_rfl⟩
  | closed => exact ⟨rfl, rfl, le_rfl⟩

/-- The loop is over once all samples are taken and nothing is in flight. -/
theorem finished_iff (h : Kept jobs notes s) : finished .once s = true ↔ work s = 0 := by
  have htasks : s.running.isEmpty = true ↔ s.tasks.length = 0 := by
    rw [List.isEmpty_iff_length_eq_zero, h.sound.length]
  have howed : s.entries.all (spent .once) = true ↔ owed s.entries = 0 := by
    rw [List.all_eq_true, owed, List.sum_eq_zero_iff_forall_eq_nat]
    simp only [spent_once, decide_eq_true_eq, List.mem_map, forall_exists_index, and_imp,
      forall_apply_eq_imp_iff₂, Nat.sub_eq_zero_iff_le]
  rw [finished, Bool.and_eq_true, Bool.and_eq_true, htasks, howed, work]
  simp only [decide_true, true_and]
  omega

/-- A turn that is not stopped, before the end. -/
theorem turn_eq (ht : t.Attended) (hended : s.ended = false) :
    turn .once start s t =
      if finished .once (pass .once t.now s).1 then
        ({ (pass .once t.now s).1 with ended := true }, (pass .once t.now s).2)
      else
        ((select .once (pass .once t.now s).1 t.event).1,
          (pass .once t.now s).2 ++ (select .once (pass .once t.now s).1 t.event).2) := by
  rw [turn, hended, ht.unstopped]
  rfl

/-- What holds from the first turn on. -/
structure Progressing (jobs : List Job) (notes : List Note) (s : Drive) : Prop where
  kept : Kept jobs notes s
  settled : s.ended = true → work s = 0

theorem pass_ended : (pass .once now s).1.ended = s.ended := by
  have hfrom : ∀ limit positions s,
      (admitFrom .once now limit s positions).1.ended = s.ended := by
    intro limit positions
    induction positions with
    | nil => exact fun _ => rfl
    | cons index rest ih =>
        intro s
        unfold admitFrom
        split
        · rfl
        · split
          · exact ih s
          · split
            · exact ih s
            · exact ih _
  exact hfrom _ _ _

theorem turn_progressing (hjobs : ∀ job ∈ jobs, Schedulable job.settings) (ht : t.Attended)
    (h : Progressing jobs notes s) :
    Progressing jobs (notes ++ (turn .once start s t).2) (turn .once start s t).1 := by
  cases hended : s.ended with
  | true =>
      rw [turn, hended, if_pos rfl, List.append_nil]
      exact h
  | false =>
      have hpass := @pass_kept _ _ _ t.now hjobs h.kept
      rw [turn_eq ht hended]
      split
      · rename_i hfinished
        exact ⟨hpass.congr rfl rfl rfl rfl, fun _ => (finished_iff hpass).mp hfinished⟩
      · have hselect := select_kept hpass ht.received
        obtain ⟨_, hopen, _⟩ := select_work hpass ht.received
        rw [List.append_assoc] at hselect
        refine ⟨hselect, fun hend => ?_⟩
        rw [hopen, pass_ended, hended] at hend
        cases hend

/-- No turn adds work. -/
theorem turn_work (hjobs : ∀ job ∈ jobs, Schedulable job.settings) (ht : t.Attended)
    (h : Kept jobs notes s) : work (turn .once start s t).1 ≤ work s := by
  cases hended : s.ended with
  | true =>
      rw [turn, hended, if_pos rfl]
  | false =>
      have hpass := @pass_kept _ _ _ t.now hjobs h
      have hlower : work (pass .once t.now s).1 ≤ work s := by
        rcases @pass_work _ _ _ t.now hjobs h with ⟨hentries, htasks, _⟩ | hless
        · rw [work, hentries, htasks, ← work]
        · exact le_of_lt hless
      rw [turn_eq ht hended]
      split
      · exact hlower
      · exact (select_work hpass ht.received).2.2.trans hlower

/-! ## Progress -/

/-- With nothing in flight, a turn takes a sample or changes no entry. -/
theorem turn_idle (hjobs : ∀ job ∈ jobs, Schedulable job.settings) (ht : t.Attended)
    (h : Kept jobs notes s) (htasks : s.tasks = []) :
    work (turn .once start s t).1 < work s
      ∨ (turn .once start s t).1.entries = s.entries
        ∧ (turn .once start s t).1.tasks = [] := by
  cases hended : s.ended with
  | true =>
      rw [turn, hended, if_pos rfl]
      exact .inr ⟨rfl, htasks⟩
  | false =>
      have hpass := @pass_kept _ _ _ t.now hjobs h
      have hselect := select_work hpass ht.received
      rw [turn_eq ht hended]
      rcases @pass_work _ _ _ t.now hjobs h with ⟨hentries, hsame, _⟩ | hless
      · split
        · exact .inr ⟨hentries, hsame.trans htasks⟩
        · obtain ⟨hkeeps, _, hwork⟩ := hselect
          refine .inr ⟨hkeeps.trans hentries, ?_⟩
          show (select .once (pass .once t.now s).1 t.event).1.tasks = []
          -- no task could end, and the work that is left is owed
          rw [work, work, hkeeps, hsame, htasks, List.length_nil] at hwork
          exact List.length_eq_zero_iff.mp (by omega)
      · split
        · exact .inl hless
        · exact .inl (lt_of_le_of_lt hselect.2.2 hless)

/-- Then a turn at which an entry is due takes a sample. -/
theorem turn_due (hjobs : ∀ job ∈ jobs, Schedulable job.settings) (ht : t.Attended)
    (h : Kept jobs notes s) (hended : s.ended = false) (htasks : s.tasks = []) {entry : Entry}
    (hentry : entry ∈ s.entries) (hdue : entry.due ≤ t.now) (hspent : spent .once entry = false) :
    work (turn .once start s t).1 < work s := by
  have hless := pass_progress hjobs h htasks hentry hdue hspent
  rw [turn_eq ht hended]
  split
  · exact hless
  · exact lt_of_le_of_lt (select_work (pass_kept hjobs h) ht.received).2.2 hless

/-- The event of the turn is the end of a task in flight. -/
def Turn.Completes (s : Drive) (t : Turn) : Prop :=
  ∃ index ending started clock sending, t.event = .completed index ending started clock sending
    ∧ index < (pass .once t.now s).1.tasks.length

theorem turn_completes (hjobs : ∀ job ∈ jobs, Schedulable job.settings) (ht : t.Attended)
    (h : Kept jobs notes s) (hended : s.ended = false) (hcompletes : t.Completes s) :
    work (turn .once start s t).1 < work s := by
  obtain ⟨index, ending, started, clock, sending, hevent, hindex⟩ := hcompletes
  have hpass := @pass_kept _ _ _ t.now hjobs h
  have hlower : work (pass .once t.now s).1 ≤ work s := by
    rcases @pass_work _ _ _ t.now hjobs h with ⟨hentries, htasks, _⟩ | hless
    · rw [work, hentries, htasks, ← work]
    · exact le_of_lt hless
  have hreceived := ht.received
  rw [hevent] at hreceived
  obtain ⟨hending, rfl⟩ := hreceived
  have hwork : work (pass .once t.now s).1 ≠ 0 := by
    unfold work
    omega
  rw [turn_eq ht hended, if_neg fun hfinished => hwork ((finished_iff hpass).mp hfinished), hevent]
  show work (complete _ index ending started clock .delivered).1 < work s
  rw [(complete_work hpass index hending).2.2, if_pos hindex]
  omega

/-- With no work left, the loop ends. -/
theorem turn_finishes (hjobs : ∀ job ∈ jobs, Schedulable job.settings) (ht : t.Attended)
    (h : Kept jobs notes s) (hwork : work s = 0) : (turn .once start s t).1.ended = true := by
  cases hended : s.ended with
  | true =>
      rw [turn, hended, if_pos rfl]
      exact hended
  | false =>
      have hlower : work (pass .once t.now s).1 = 0 := by
        rcases @pass_work _ _ _ t.now hjobs h with ⟨hentries, htasks, _⟩ | hless
        · rw [work, hentries, htasks, ← work]
          exact hwork
        · omega
      rw [turn_eq ht hended, if_pos ((finished_iff (pass_kept hjobs h)).mpr hlower)]

/-- With nothing in flight, the work that is left is a sample to be taken. -/
theorem exists_unspent (htasks : s.tasks = []) (hwork : 0 < work s) :
    ∃ e ∈ s.entries, spent .once e = false := by
  by_contra hnone
  push Not at hnone
  have howed : owed s.entries = 0 := by
    rw [owed, List.sum_eq_zero_iff_forall_eq_nat]
    intro n hn
    obtain ⟨e, he, rfl⟩ := List.mem_map.mp hn
    have hspent := hnone e he
    rw [ne_eq, Bool.not_eq_false, spent_once, decide_eq_true_eq] at hspent
    exact Nat.sub_eq_zero_of_le hspent
  rw [work, howed, htasks] at hwork
  exact lt_irrefl _ hwork

/-- With no work left, each job has the results it asked for. -/
theorem Kept.complete (h : Kept jobs notes s) (hwork : work s = 0) (p : Job → Bool) :
    delivered p notes = asked p jobs := by
  obtain ⟨howed, htasks⟩ : owed s.entries = 0 ∧ s.tasks = [] := by
    unfold work at hwork
    exact ⟨by omega, List.length_eq_zero_iff.mp (by omega)⟩
  have hsamples : ∀ e ∈ s.entries, e.samples = e.job.settings.samples := by
    intro e he
    rw [owed, List.sum_eq_zero_iff_forall_eq_nat] at howed
    have hnone := howed _ (List.mem_map_of_mem he)
    have hbound := h.bounded e he
    omega
  have hledger := h.ledger p
  rw [htasks, List.countP_nil, Nat.add_zero] at hledger
  rw [hledger, ← h.configured, taken, asked, List.map_map]
  congr 1
  refine List.map_congr_left fun e he => ?_
  rw [Function.comp_apply, hsamples e he]

/-! ## The whole run -/

/-- The state after so many turns, and all that happened. -/
def upTo (jobs : List Job) (start : Instant) (turns : Nat → Turn) (n : Nat) :
    Drive × List Note :=
  (drive .once start).run (begin jobs start) ((List.range n).map turns)

/-- Turns without a stop and with a live receiver, in which the clock passes every
instant and no collection runs forever. -/
structure Attended (jobs : List Job) (start : Instant) (turns : Nat → Turn) : Prop where
  attended : ∀ n, (turns n).Attended
  passes : ∀ n instant, ∃ m ≥ n, instant ≤ (turns m).now
  ends : ∀ n, (upTo jobs start turns n).1.tasks ≠ [] →
    ∃ m ≥ n, (turns m).Completes (upTo jobs start turns m).1

variable {turns : Nat → Turn}

theorem upTo_succ (n : Nat) :
    upTo jobs start turns (n + 1)
      = ((turn .once start (upTo jobs start turns n).1 (turns n)).1,
        (upTo jobs start turns n).2
          ++ (turn .once start (upTo jobs start turns n).1 (turns n)).2) := by
  rw [upTo, List.range_succ, List.map_append, Process.run_append, List.map_singleton,
    Process.run_singleton]
  rfl

theorem begin_progressing (jobs : List Job) (start : Instant) :
    Progressing jobs [] (begin jobs start) where
  kept :=
    { sound := begin_sound jobs
      configured := by
        rw [begin, List.map_map]
        exact List.map_id _
      bounded := by
        intro e he
        obtain ⟨job, _, rfl⟩ := List.mem_map.mp he
        exact Nat.zero_le _
      subset := by rintro task ⟨⟩
      ledger := by
        intro p
        refine Eq.symm ?_
        show taken p (begin jobs start).entries = 0
        rw [taken, List.sum_eq_zero_iff_forall_eq_nat]
        intro x hx
        obtain ⟨e, he, rfl⟩ := List.mem_map.mp hx
        obtain ⟨job, _, rfl⟩ := List.mem_map.mp he
        exact ite_self _ }
  settled := by rintro ⟨⟩

theorem run_progressing (hjobs : ∀ job ∈ jobs, Schedulable job.settings) (turns : List Turn)
    (hturns : ∀ t ∈ turns, t.Attended) :
    Progressing jobs ((drive .once start).run (begin jobs start) turns).2
      ((drive .once start).run (begin jobs start) turns).1 :=
  @Process.Tracks.run_start _ _ _ (drive .once start) Turn.Attended (Progressing jobs)
    (fun _ _ _ ht h => turn_progressing hjobs ht h) _ turns hturns (begin_progressing jobs start)

theorem upTo_progressing (hjobs : ∀ job ∈ jobs, Schedulable job.settings)
    (hturns : ∀ n, (turns n).Attended) (n : Nat) :
    Progressing jobs (upTo jobs start turns n).2 (upTo jobs start turns n).1 := by
  refine run_progressing hjobs _ fun t ht => ?_
  obtain ⟨m, _, rfl⟩ := List.mem_map.mp ht
  exact hturns m

/-- What is left to do after so many turns. -/
def left (jobs : List Job) (start : Instant) (turns : Nat → Turn) (n : Nat) : Nat :=
  work (upTo jobs start turns n).1

theorem left_antitone (hjobs : ∀ job ∈ jobs, Schedulable job.settings)
    (hturns : ∀ n, (turns n).Attended) : Antitone (left jobs start turns) := by
  refine antitone_nat_of_succ_le fun n => ?_
  rw [left, upTo_succ]
  exact turn_work hjobs (hturns n) (upTo_progressing hjobs hturns n).kept

/-- Until some work is done, a state with nothing in flight stays as it is. -/
theorem upTo_idle (hjobs : ∀ job ∈ jobs, Schedulable job.settings)
    (hturns : ∀ n, (turns n).Attended) {n m : Nat} (hnm : n ≤ m)
    (htasks : (upTo jobs start turns n).1.tasks = []) :
    left jobs start turns m < left jobs start turns n
      ∨ (upTo jobs start turns m).1.entries = (upTo jobs start turns n).1.entries
        ∧ (upTo jobs start turns m).1.tasks = [] := by
  induction m, hnm using Nat.le_induction with
  | base => exact .inr ⟨rfl, htasks⟩
  | succ m hm ih =>
      have hstep := @left_antitone _ start _ hjobs hturns _ _ (Nat.le_succ m)
      rcases ih with hless | ⟨hentries, hidle⟩
      · exact .inl (lt_of_le_of_lt hstep hless)
      · have hkept := (@upTo_progressing _ start _ hjobs hturns m).kept
        have hbefore := @left_antitone _ start _ hjobs hturns _ _ hm
        rcases @turn_idle _ _ _ start _ hjobs (hturns m) hkept hidle with hless | ⟨hsame, hnone⟩
        · rw [left, upTo_succ]
          exact .inl (lt_of_lt_of_le hless hbefore)
        · rw [upTo_succ]
          exact .inr ⟨hsame.trans hentries, hnone⟩

/-- As long as there is work, some of it is done. -/
theorem left_decreases (hjobs : ∀ job ∈ jobs, Schedulable job.settings)
    (h : Attended jobs start turns) {n : Nat} (hwork : 0 < left jobs start turns n) :
    ∃ m, left jobs start turns m < left jobs start turns n := by
  have hkept := fun n => (@upTo_progressing _ start _ hjobs h.attended n).kept
  have hmono := @left_antitone _ start _ hjobs h.attended
  have hended : ∀ m, 0 < left jobs start turns m → (upTo jobs start turns m).1.ended = false := by
    intro m hm
    rw [Bool.eq_false_iff]
    intro hend
    exact (Nat.pos_iff_ne_zero.mp hm)
      ((upTo_progressing hjobs h.attended m).settled hend)
  by_cases htasks : (upTo jobs start turns n).1.tasks = []
  · obtain ⟨entry, hentry, hspent⟩ := exists_unspent htasks hwork
    obtain ⟨m, hnm, hnow⟩ := h.passes n entry.due
    rcases upTo_idle hjobs h.attended hnm htasks with hless | ⟨hentries, hidle⟩
    · exact ⟨m, hless⟩
    · have hsame : left jobs start turns m = left jobs start turns n := by
        rw [left, left, work, work, hentries, hidle, htasks]
      refine ⟨m + 1, ?_⟩
      rw [← hsame, left, upTo_succ]
      exact turn_due hjobs (h.attended m) (hkept m) (hended m (hsame ▸ hwork)) hidle
        (hentries ▸ hentry) hnow hspent
  · obtain ⟨m, hnm, hcompletes⟩ := h.ends n htasks
    rcases Nat.eq_or_lt_of_le (hmono hnm) with hsame | hless
    · refine ⟨m + 1, ?_⟩
      rw [← hsame, left, upTo_succ]
      exact turn_completes hjobs (h.attended m) (hkept m) (hended m (hsame ▸ hwork)) hcompletes
    · exact ⟨m, hless⟩

theorem exists_done (hjobs : ∀ job ∈ jobs, Schedulable job.settings)
    (h : Attended jobs start turns) (n : Nat) : ∃ m, left jobs start turns m = 0 := by
  induction hw : left jobs start turns n using Nat.strong_induction_on generalizing n with
  | _ w ih =>
      rcases Nat.eq_zero_or_pos w with hzero | hpos
      · exact ⟨n, hw.trans hzero⟩
      · obtain ⟨m, hless⟩ := left_decreases hjobs h (hw ▸ hpos)
        exact ih _ (hw ▸ hless) m rfl

/-- A single run ends, and from then on each job has the results it asked for. -/
theorem once_complete (hjobs : ∀ job ∈ jobs, Schedulable job.settings)
    (h : Attended jobs start turns) :
    ∃ n, ∀ m ≥ n, (upTo jobs start turns m).1.ended = true
      ∧ ∀ p, delivered p (upTo jobs start turns m).2 = asked p jobs := by
  obtain ⟨n, hdone⟩ := exists_done hjobs h 0
  refine ⟨n + 1, fun m hm => ?_⟩
  obtain ⟨k, rfl⟩ : ∃ k, m = k + 1 := ⟨m - 1, by omega⟩
  have hzero : ∀ i ≥ n, left jobs start turns i = 0 := by
    intro i hi
    have hmono := @left_antitone _ start _ hjobs h.attended _ _ hi
    omega
  constructor
  · rw [upTo_succ]
    exact turn_finishes hjobs (h.attended k) (upTo_progressing hjobs h.attended k).kept
      (hzero k (by omega))
  · exact (upTo_progressing hjobs h.attended (k + 1)).kept.complete (hzero (k + 1) (by omega))

/-! ## The guarantees of the loop -/

/-- In every run in which no panic of a collector escapes, the slots taken are those
of the tasks in flight, and all that is admitted or forwarded is in order. A single
run with a live receiver ends, and only with the results that each job asked for. -/
theorem drive_guarantees (start : Instant) (jobs : List Job) :
    (∀ mode turns, (∀ t ∈ turns, ¬ t.Escapes) →
      Sound ((drive mode start).run (begin jobs start) turns).1
        ∧ ∀ note ∈ ((drive mode start).run (begin jobs start) turns).2, note.InOrder)
    ∧ ((∀ job ∈ jobs, Schedulable job.settings) →
        (∀ turns, (∀ t ∈ turns, t.Attended) →
          ((drive .once start).run (begin jobs start) turns).1.ended = true →
          ∀ p, delivered p ((drive .once start).run (begin jobs start) turns).2 = asked p jobs)
        ∧ ∀ turns, Attended jobs start turns →
          ∃ n, ∀ m ≥ n, (upTo jobs start turns m).1.ended = true
            ∧ ∀ p, delivered p (upTo jobs start turns m).2 = asked p jobs) := by
  refine ⟨fun mode turns => drive_inOrder jobs turns, fun hjobs => ⟨?_, ?_⟩⟩
  · intro turns hturns hended
    have h := @run_progressing _ start hjobs turns hturns
    exact h.kept.complete (h.settled hended)
  · exact fun turns h => once_complete hjobs h

/-! ## Two runs of one job -/

namespace Trial

def job : Job := HealthMonitor.Sample.job .metrics

def result : CheckResult := HealthMonitor.Sample.result .metrics 0 [] []

/-- A turn at a second, at which the first task in flight ends. -/
def ending (ending : Ending) (second : Nat) : Turn where
  stopped := false
  checked := nanos second
  now := nanos second
  event := .completed 0 ending 0 0 .delivered

theorem admitFrom_tasks (mode : Mode) (now : Instant) (limit : Nat) (positions : List Nat)
    (s : Drive) : s.tasks <+: (admitFrom mode now limit s positions).1.tasks := by
  induction positions generalizing s with
  | nil => exact List.prefix_rfl
  | cons index rest ih =>
      unfold admitFrom
      split
      · exact List.prefix_rfl
      · split
        · exact ih s
        · split
          · exact ih s
          · rename_i entry _ _
            exact (List.prefix_append s.tasks _).trans (ih (spawn mode now s index entry))

/-- Every second, the task in flight returns. -/
theorem attended : Attended [job] 0 (ending (.returned result)) where
  attended n := ⟨rfl, by rintro ⟨⟩, rfl⟩
  passes n instant := by
    refine ⟨max n instant, le_max_left _ _, ?_⟩
    calc instant ≤ max n instant := le_max_right _ _
      _ ≤ max n instant * 1000000000 := Nat.le_mul_of_pos_right _ (by decide)
  ends n htasks := by
    refine ⟨n, le_rfl, 0, _, _, _, _, rfl, ?_⟩
    have hmore := admitFrom_tasks .once (ending (.returned result) n).now
      (globalLimit (upTo [job] 0 (ending (.returned result)) n).1.entries)
      (order (upTo [job] 0 (ending (.returned result)) n).1)
      (upTo [job] 0 (ending (.returned result)) n).1
    exact lt_of_lt_of_le (List.length_pos_iff.mpr htasks) hmore.length_le

theorem schedulable : ∀ j ∈ [job], Schedulable j.settings := by
  intro j hj
  rw [List.mem_singleton.mp hj]
  exact ⟨by decide +kernel, by decide +kernel, by decide +kernel⟩

end Trial

open Trial in
/-- A watch of one job, two turns of it, and a single run that ends with the five
results the job asks for. -/
theorem drive_guarantees_single :
    Sound ((drive (.watch none) 0).run (begin [job] 0)
        [ending (.returned result) 0, ending .panicked 300]).1
      ∧ ∃ n, ∀ m ≥ n, (upTo [job] 0 (ending (.returned result)) m).1.ended = true
        ∧ delivered (fun _ => true) (upTo [job] 0 (ending (.returned result)) m).2 = 5 := by
  constructor
  · refine ((drive_guarantees 0 [job]).1 _ _ fun t ht => ?_).1
    rintro ⟨index, started, clock, sending, hevent⟩
    rcases List.mem_cons.mp ht with rfl | ht
    · cases hevent
    · rw [List.mem_singleton.mp ht] at hevent
      cases hevent
  · obtain ⟨n, hn⟩ := ((drive_guarantees 0 [job]).2 schedulable).2 _ attended
    exact ⟨n, fun m hm => ⟨(hn m hm).1, (hn m hm).2 fun _ => true⟩⟩

open Trial in
/-- After a panic that escapes, the counter of the scope and the key stay taken,
with no task in flight. -/
theorem slots_leak :
    let s := ((drive (.watch none) 0).run (begin [job] 0) [ending .escaped 0]).1
    s.tasks.length = 0 ∧ s.running = [job.key] ∧ s.scopes[scope job]? = some 1
      ∧ ¬ Sound s := by
  intro s
  have htasks : s.tasks.length = 0 := by decide +kernel
  have hrunning : s.running = [job.key] := by decide +kernel
  refine ⟨htasks, hrunning, by decide +kernel, fun h => ?_⟩
  have hlength := h.length
  rw [htasks, hrunning] at hlength
  cases hlength

end HealthMonitor.Scheduler
