import HealthMonitor.Core.Scheduler

/-!
# Scheduling

What holds in every state of the scheduler's loop, for any order of ticks, ends of
tasks, reloads and stops: the slots taken are those of the tasks in flight, and
what is admitted or forwarded was in order at that moment. It takes that no panic
of a collector escapes the future its task polls.
-/

namespace HealthMonitor.Scheduler

variable {mode : Mode} {start : Instant}

/-- The slots taken are those of the tasks in flight. -/
structure Sound (s : Drive) : Prop where
  distinct : (s.tasks.map fun t => t.job.key).Nodup
  running : ∀ k, k ∈ s.running ↔ k ∈ s.tasks.map fun t => t.job.key
  once : s.running.Nodup
  tally : Tally.Counts s.scopes (fun t : Task => scope t.job) s.tasks

/-- A panic of the collector escapes the future that the task polls. -/
def Turn.Escapes (t : Turn) : Prop :=
  ∃ index started clock sending, t.event = .completed index .escaped started clock sending

/-- An admission within all limits, and a result of a job that is configured. -/
def Note.InOrder : Note → Prop
  | .admitted s entry =>
      Sound s ∧ entry ∈ s.entries ∧ entry.job.key ∉ s.tasks.map (fun t => t.job.key)
        ∧ s.tasks.length < globalLimit s.entries
        ∧ s.scopes[scope entry.job]?.getD 0 < entry.job.settings.scopeConcurrency
  | .forwarded entries job _ =>
      ∃ e ∈ entries, e.job.key = job.key ∧ e.job.revision = job.revision

section Sound

variable {s : Drive} {entry : Entry} {index : Nat}

/-- As many keys are marked as running as tasks are in flight. -/
theorem Sound.length (h : Sound s) : s.running.length = s.tasks.length := by
  have hperm : s.running.Perm (s.tasks.map fun t => t.job.key) :=
    (List.perm_ext_iff_of_nodup h.once h.distinct).mpr h.running
  rw [hperm.length_eq, List.length_map]

theorem Sound.congr {s' : Drive} (h : Sound s) (htasks : s'.tasks = s.tasks)
    (hrunning : s'.running = s.running) (hscopes : s'.scopes = s.scopes) : Sound s' where
  distinct := htasks ▸ h.distinct
  running := by
    rw [htasks, hrunning]
    exact h.running
  once := hrunning ▸ h.once
  tally := by
    rw [hscopes, htasks]
    exact h.tally

theorem held_eq_false {now : Instant} (h : held mode now s entry = false) :
    entry.due ≤ now ∧ entry.job.key ∉ s.running
      ∧ s.scopes[scope entry.job]?.getD 0 < entry.job.settings.scopeConcurrency
      ∧ spent mode entry = false := by
  simpa [held, and_assoc] using h

theorem Sound.spawn (h : Sound s) {now : Instant} (hkey : entry.job.key ∉ s.running) :
    Sound (spawn mode now s index entry) where
  distinct := by
    rw [Scheduler.spawn, List.map_append, List.nodup_append]
    refine ⟨h.distinct, List.nodup_singleton _, fun k hk k' hk' => ?_⟩
    rw [List.map_singleton, List.mem_singleton] at hk'
    rintro rfl
    exact hkey ((h.running _).mpr (hk' ▸ hk))
  running k := by
    rw [Scheduler.spawn, List.mem_insert_iff, h.running, List.map_append, List.mem_append,
      List.map_singleton, List.mem_singleton]
    exact Or.comm
  once := List.Nodup.insert h.once
  tally := h.tally.increment { job := entry.job }

theorem map_set_eq {α β : Type} {f : α → β} {xs : List α} {i : Nat} {a b : α}
    (h : xs[i]? = some a) (hf : f b = f a) : (xs.set i b).map f = xs.map f := by
  rw [List.map_set, hf]
  refine List.ext_getElem? fun j => ?_
  rw [List.getElem?_set, List.getElem?_map, List.length_map]
  split
  · rename_i hi
    subst hi
    rw [h, if_pos (List.getElem?_eq_some_iff.mp h).1]
    rfl
  · rfl

theorem next_job {now : Instant} (entry : Entry) : (entry.next mode now).job = entry.job := by
  obtain ⟨job, due, samples⟩ := entry
  -- without the projection on the right, the instants are not compared
  show (Entry.next mode now ⟨job, due, samples⟩).job = job
  rfl

/-- An admission changes no job. -/
theorem spawn_jobs {now : Instant} (hentry : s.entries[index]? = some entry) :
    (spawn mode now s index entry).entries.map Entry.job = s.entries.map Entry.job :=
  map_set_eq hentry (next_job entry)

theorem globalLimit_jobs {entries entries' : List Entry}
    (h : entries.map Entry.job = entries'.map Entry.job) :
    globalLimit entries = globalLimit entries' := by
  have hlimits : ∀ entries : List Entry, entries.map (fun e => e.job.settings.concurrency)
      = (entries.map Entry.job).map fun job => job.settings.concurrency := by
    intro entries
    rw [List.map_map]
    rfl
  rw [globalLimit, globalLimit, hlimits, hlimits, h]

end Sound

/-- What a pass keeps, from a state whose limit it goes by. -/
theorem admitFrom_inOrder {now : Instant} {limit : Nat} {positions : List Nat} {s : Drive}
    (h : Sound s) (hlimit : limit = globalLimit s.entries) :
    Sound (admitFrom mode now limit s positions).1
      ∧ ∀ note ∈ (admitFrom mode now limit s positions).2, note.InOrder := by
  induction positions generalizing s with
  | nil => exact ⟨h, by rintro note ⟨⟩⟩
  | cons index rest ih =>
      unfold admitFrom
      split
      · exact ⟨h, by rintro note ⟨⟩⟩
      · rename_i hroom
        split
        · exact ih h hlimit
        · rename_i entry hentry
          split
          · exact ih h hlimit
          · rename_i hheld
            obtain ⟨_, hkey, hscope, _⟩ := held_eq_false (Bool.eq_false_iff.mpr hheld)
            obtain ⟨hsound, hnotes⟩ := ih (h.spawn hkey)
              (hlimit.trans (globalLimit_jobs (spawn_jobs hentry)).symm)
            refine ⟨hsound, fun note hnote => ?_⟩
            rcases List.mem_cons.mp hnote with rfl | hnote
            · refine ⟨h, List.mem_of_getElem? hentry, fun hmem => hkey ((h.running _).mpr hmem),
                ?_, hscope⟩
              rw [← h.length, ← hlimit]
              exact not_le.mp hroom
            · exact hnotes note hnote

theorem pass_inOrder {now : Instant} {s : Drive} (h : Sound s) :
    Sound (pass mode now s).1 ∧ ∀ note ∈ (pass mode now s).2, note.InOrder := by
  obtain ⟨hsound, hnotes⟩ := @admitFrom_inOrder mode now _ (order s) s h rfl
  exact ⟨hsound.congr rfl rfl rfl, hnotes⟩

/-- A task that ended releases its own slots. -/
theorem Sound.release {s : Drive} (h : Sound s) {index : Nat} {task : Task}
    (htask : s.tasks[index]? = some task) :
    Sound { s with
      tasks := s.tasks.eraseIdx index
      running := s.running.erase task.job.key
      scopes := Tally.decrement s.scopes (scope task.job) } := by
  have hparts : s.tasks = s.tasks.take index ++ task :: s.tasks.drop (index + 1) := by
    obtain ⟨hlt, rfl⟩ := List.getElem?_eq_some_iff.mp htask
    rw [List.getElem_cons_drop, List.take_append_drop]
  have hdistinct := h.distinct
  have htally := h.tally
  rw [hparts] at htally
  rw [hparts, List.map_append, List.map_cons, List.nodup_append, List.nodup_cons] at hdistinct
  obtain ⟨hleft, ⟨hnotRight, hright⟩, hapart⟩ := hdistinct
  refine ⟨?_, fun k => ?_, h.once.erase _, ?_⟩
  · dsimp only
    rw [List.eraseIdx_eq_take_drop_succ, List.map_append, List.nodup_append]
    exact ⟨hleft, hright, fun k hk k' hk' => hapart k hk k' (List.mem_cons_of_mem _ hk')⟩
  · dsimp only
    rw [h.once.mem_erase_iff, h.running, List.eraseIdx_eq_take_drop_succ, List.map_append,
      List.mem_append]
    have hmem : k ∈ s.tasks.map (fun t => t.job.key)
        ↔ k ∈ (s.tasks.take index).map (fun t => t.job.key)
          ∨ k = task.job.key ∨ k ∈ (s.tasks.drop (index + 1)).map fun t => t.job.key := by
      have hsplit := congrArg (List.map fun t : Task => t.job.key) hparts
      rw [hsplit, List.map_append, List.map_cons, List.mem_append, List.mem_cons]
    rw [hmem]
    constructor
    · rintro ⟨hne, hk | rfl | hk⟩
      · exact .inl hk
      · exact absurd rfl hne
      · exact .inr hk
    · rintro (hk | hk)
      · exact ⟨fun he => hapart k hk _ List.mem_cons_self he, .inl hk⟩
      · exact ⟨fun he => hnotRight (he ▸ hk), .inr (.inr hk)⟩
  · dsimp only
    rw [List.eraseIdx_eq_take_drop_succ]
    exact htally.decrement

theorem complete_inOrder {s : Drive} (h : Sound s) {index : Nat} {ending : Ending}
    {started clock : Time} {sending : Sending} (hending : ending ≠ .escaped) :
    Sound (complete s index ending started clock sending).1
      ∧ ∀ note ∈ (complete s index ending started clock sending).2, note.InOrder := by
  unfold complete
  split
  · exact ⟨h, by rintro note ⟨⟩⟩
  · rename_i task htask
    have hjob : ∀ done, task.finish ending started clock = some done → done.1 = task.job := by
      intro done hdone
      cases ending with
      | escaped => exact absurd rfl hending
      | _ =>
          cases hdone
          rfl
    have hsome : task.finish ending started clock ≠ none := by
      cases ending with
      | escaped => exact absurd rfl hending
      | _ => exact Option.some_ne_none _
    dsimp only
    split
    · rename_i hnone
      exact absurd hnone hsome
    · rename_i job result hdone
      have hj : job = task.job := hjob _ hdone
      subst hj
      have hreleased := h.release htask
      split
      · rename_i hadmits
        split
        · refine ⟨hreleased, fun note hnote => ?_⟩
          rw [List.mem_singleton.mp hnote]
          obtain ⟨e, he, hsame⟩ := List.any_eq_true.mp hadmits
          rw [Bool.and_eq_true, beq_iff_eq, beq_iff_eq] at hsame
          exact ⟨e, he, hsame⟩
        · exact ⟨hreleased.congr rfl rfl rfl, by rintro note ⟨⟩⟩
      · exact ⟨hreleased, by rintro note ⟨⟩⟩

theorem select_inOrder {s : Drive} (h : Sound s) {event : Event}
    (hevent : ∀ index started clock sending,
      event ≠ .completed index .escaped started clock sending) :
    Sound (select mode s event).1 ∧ ∀ note ∈ (select mode s event).2, note.InOrder := by
  cases event with
  | stopped => exact ⟨h.congr rfl rfl rfl, by rintro note ⟨⟩⟩
  | slept => exact ⟨h, by rintro note ⟨⟩⟩
  | changed jobs now =>
      refine ⟨?_, by rintro note ⟨⟩⟩
      unfold select
      dsimp only
      split
      · exact h.congr rfl rfl rfl
      · exact h
  | closed => exact ⟨h.congr rfl rfl rfl, by rintro note ⟨⟩⟩
  | completed index ending started clock sending =>
      refine complete_inOrder h ?_
      rintro rfl
      exact hevent index started clock sending rfl

theorem turn_inOrder {s : Drive} (h : Sound s) {t : Turn} (ht : ¬ t.Escapes) :
    Sound (turn mode start s t).1 ∧ ∀ note ∈ (turn mode start s t).2, note.InOrder := by
  obtain ⟨hsound, hnotes⟩ := @pass_inOrder mode t.now s h
  unfold turn
  split
  · exact ⟨h, by rintro note ⟨⟩⟩
  split
  · exact ⟨h.congr rfl rfl rfl, by rintro note ⟨⟩⟩
  dsimp only
  split
  · exact ⟨hsound.congr rfl rfl rfl, hnotes⟩
  · obtain ⟨hlast, hlastNotes⟩ := @select_inOrder mode _ hsound t.event
      fun index started clock sending he => ht ⟨index, started, clock, sending, he⟩
    refine ⟨hlast, fun note hnote => ?_⟩
    rcases List.mem_append.mp hnote with hnote | hnote
    · exact hnotes note hnote
    · exact hlastNotes note hnote

theorem begin_sound (jobs : List Job) : Sound (begin jobs start) where
  distinct := List.nodup_nil
  running _ := Iff.rfl
  once := List.nodup_nil
  tally := Tally.counts_empty _

/-- In every run, whatever is admitted or forwarded is in order, and the slots taken
are those of the tasks in flight. -/
theorem drive_inOrder (jobs : List Job) (turns : List Turn) (h : ∀ t ∈ turns, ¬ t.Escapes) :
    Sound ((drive mode start).run (begin jobs start) turns).1
      ∧ ∀ note ∈ ((drive mode start).run (begin jobs start) turns).2, note.InOrder := by
  refine @Process.Tracks.run_start _ _ _ (drive mode start) (fun t => ¬ t.Escapes)
    (fun notes s => Sound s ∧ ∀ note ∈ notes, note.InOrder) ?_ _ turns h
    ⟨begin_sound jobs, by rintro note ⟨⟩⟩
  rintro notes s t ht ⟨hsound, hnotes⟩
  obtain ⟨hnext, hnew⟩ := @turn_inOrder mode start s hsound t ht
  refine ⟨hnext, fun note hnote => ?_⟩
  rcases List.mem_append.mp hnote with hnote | hnote
  · exact hnotes note hnote
  · exact hnew note hnote

end HealthMonitor.Scheduler
