import HealthMonitor.Core.Scheduling
import HealthMonitor.Library.Entries

/-!
# Sampling

A single run of the checks: without a stop, and with a receiver for the results, the
scheduler ends, and it ends when every entry has contributed its samples.
-/

namespace HealthMonitor.Scheduler

/-! ## The ledger -/

/-- The samples taken of the entries whose job satisfies `p`. -/
def taken (p : Job → Bool) (entries : List Entry) : Nat :=
  (entries.map fun e => if p e.job then e.samples else 0).sum

/-- The samples that the jobs satisfying `p` ask for. -/
def asked (p : Job → Bool) (jobs : List Job) : Nat :=
  (jobs.map fun job => if p job then job.settings.samples else 0).sum

def Note.isResult (p : Job → Bool) : Note → Bool
  | .admitted _ _ => false
  | .forwarded _ job _ => p job

/-- The results forwarded for jobs that satisfy `p`. -/
def delivered (p : Job → Bool) (notes : List Note) : Nat :=
  notes.countP (Note.isResult p)

/-- The samples still to be taken. -/
def owed (entries : List Entry) : Nat :=
  (entries.map fun e => e.job.settings.samples - e.samples).sum

/-- What is left to do: an admission and an end for each sample. -/
def work (s : Drive) : Nat := 2 * owed s.entries + s.tasks.length

/-- What the scheduler relies on of the settings. -/
structure Schedulable (settings : Settings) : Prop where
  concurrency : 0 < settings.concurrency
  scopeConcurrency : 0 < settings.scopeConcurrency
  samples : settings.samples ≤ u32Max

/-- Every sample taken is in flight or forwarded. -/
structure Kept (jobs : List Job) (notes : List Note) (s : Drive) : Prop where
  sound : Sound s
  configured : s.entries.map Entry.job = jobs
  bounded : ∀ e ∈ s.entries, e.samples ≤ e.job.settings.samples
  subset : ∀ task ∈ s.tasks, task.job ∈ jobs
  ledger : ∀ p, delivered p notes + s.tasks.countP (fun t => p t.job) = taken p s.entries

section Spawn

variable {s : Drive} {entry : Entry} {index : Nat} {now : Instant}

theorem spent_once (entry : Entry) :
    spent .once entry = decide (entry.job.settings.samples ≤ entry.samples) := by
  simp [spent]

theorem next_samples (mode : Mode) (entry : Entry) :
    (entry.next mode now).samples = saturatingSucc entry.samples := by
  obtain ⟨job, due, samples⟩ := entry
  show (Entry.next mode now ⟨job, due, samples⟩).samples = saturatingSucc samples
  rfl

theorem succ_of_lt {n limit : Nat} (h : n < limit) (hlimit : limit ≤ u32Max) :
    saturatingSucc n = n + 1 := by
  unfold saturatingSucc
  omega

/-- An entry that still has samples to take, of a job whose count of them fits. -/
structure Due (s : Drive) (index : Nat) (entry : Entry) : Prop where
  present : s.entries[index]? = some entry
  unspent : entry.samples < entry.job.settings.samples
  fits : entry.job.settings.samples ≤ u32Max

/-- An admission takes one sample. -/
theorem Due.taken (h : Due s index entry) (p : Job → Bool) :
    taken p (spawn .once now s index entry).entries
      = taken p s.entries + if p entry.job then 1 else 0 := by
  have hsum := Entries.total_set (fun e : Entry => if p e.job then e.samples else 0) h.present
    (entry.next .once now)
  rw [next_job, next_samples, succ_of_lt h.unspent h.fits] at hsum
  unfold Entries.total at hsum
  unfold Scheduler.taken spawn
  dsimp only
  by_cases hp : p entry.job
  · simp only [hp, if_true] at hsum ⊢
    omega
  · simp only [hp, if_false, Bool.false_eq_true] at hsum ⊢
    omega

/-- It turns two steps that are owed into one task in flight. -/
theorem Due.work (h : Due s index entry) :
    work (spawn .once now s index entry) + 1 = work s := by
  have hsum := Entries.total_set (fun e : Entry => e.job.settings.samples - e.samples) h.present
    (entry.next .once now)
  rw [next_job, next_samples, succ_of_lt h.unspent h.fits] at hsum
  have hunspent := h.unspent
  unfold Entries.total at hsum
  unfold Scheduler.work owed spawn
  dsimp only
  rw [List.length_append, List.length_singleton]
  omega

theorem Kept.spawn {jobs : List Job} {notes : List Note} (h : Kept jobs notes s)
    (hdue : Due s index entry) (hkey : entry.job.key ∉ s.running) :
    Kept jobs (notes ++ [.admitted s entry]) (spawn .once now s index entry) where
  sound := h.sound.spawn hkey
  configured := (spawn_jobs hdue.present).trans h.configured
  bounded e he := by
    rcases List.mem_or_eq_of_mem_set he with he | rfl
    · exact h.bounded e he
    · rw [next_job, next_samples, succ_of_lt hdue.unspent hdue.fits]
      exact hdue.unspent
  subset task htask := by
    rcases List.mem_append.mp htask with htask | htask
    · exact h.subset task htask
    · rw [List.mem_singleton.mp htask, ← h.configured]
      exact List.mem_map_of_mem (List.mem_of_getElem? hdue.present)
  ledger p := by
    rw [hdue.taken, ← h.ledger p]
    unfold delivered Scheduler.spawn
    rw [List.countP_append, List.countP_append, List.countP_singleton, List.countP_singleton]
    simp only [Note.isResult, Bool.false_eq_true, if_false]
    omega

theorem Kept.due {jobs : List Job} {notes : List Note} (h : Kept jobs notes s)
    (hjobs : ∀ job ∈ jobs, Schedulable job.settings) (hentry : s.entries[index]? = some entry)
    (hheld : held .once now s entry = false) :
    Due s index entry ∧ entry.job.key ∉ s.running := by
  obtain ⟨_, hkey, _, hspent⟩ := held_eq_false hheld
  rw [spent_once, decide_eq_false_iff_not] at hspent
  have hjob : entry.job ∈ jobs := by
    rw [← h.configured]
    exact List.mem_map_of_mem (List.mem_of_getElem? hentry)
  exact ⟨⟨hentry, not_le.mp hspent, (hjobs _ hjob).samples⟩, hkey⟩

end Spawn

/-! ## One turn -/

section Turn

variable {jobs : List Job} {notes : List Note} {s : Drive} {now : Instant}

/-- Nothing was admitted, since the limit is reached or every entry is passed over. -/
def Blocked (now : Instant) (limit : Nat) (s : Drive) (positions : List Nat) : Prop :=
  limit ≤ s.running.length ∨ ∀ index ∈ positions, ∀ entry,
    s.entries[index]? = some entry → held .once now s entry = true

theorem Blocked.cons {limit index : Nat} {rest : List Nat} (h : Blocked now limit s rest)
    (hindex : ∀ entry, s.entries[index]? = some entry → held .once now s entry = true) :
    Blocked now limit s (index :: rest) := by
  rcases h with hfull | hrest
  · exact .inl hfull
  · refine .inr fun i hi => ?_
    rcases List.mem_cons.mp hi with rfl | hi
    · exact hindex
    · exact hrest i hi

theorem admitFrom_kept (hjobs : ∀ job ∈ jobs, Schedulable job.settings) (limit : Nat)
    (positions : List Nat) (h : Kept jobs notes s) :
    Kept jobs (notes ++ (admitFrom .once now limit s positions).2)
      (admitFrom .once now limit s positions).1 := by
  induction positions generalizing notes s with
  | nil =>
      rw [admitFrom, List.append_nil]
      exact h
  | cons index rest ih =>
      unfold admitFrom
      split
      · rw [List.append_nil]
        exact h
      · split
        · exact ih h
        · rename_i entry hentry
          split
          · exact ih h
          · rename_i hheld
            obtain ⟨hdue, hkey⟩ := h.due hjobs hentry (Bool.eq_false_iff.mpr hheld)
            have hkept := ih (@Kept.spawn _ _ _ now _ _ h hdue hkey)
            rw [List.append_assoc, List.singleton_append] at hkept
            exact hkept

/-- The admissions leave everything as it is, or they take samples. -/
theorem admitFrom_work (hjobs : ∀ job ∈ jobs, Schedulable job.settings) (limit : Nat)
    (positions : List Nat) (h : Kept jobs notes s) :
    admitFrom .once now limit s positions = (s, []) ∧ Blocked now limit s positions
      ∨ work (admitFrom .once now limit s positions).1 < work s := by
  induction positions generalizing notes s with
  | nil => exact .inl ⟨rfl, .inr (by rintro index ⟨⟩)⟩
  | cons index rest ih =>
      unfold admitFrom
      split
      · rename_i hfull
        exact .inl ⟨rfl, .inl hfull⟩
      · split
        · rename_i hnone
          refine (ih h).imp_left fun hidle => ⟨hidle.1, hidle.2.cons fun entry hentry => ?_⟩
          rw [hnone] at hentry
          cases hentry
        · rename_i entry hentry
          split
          · rename_i hheld
            refine (ih h).imp_left fun hidle => ⟨hidle.1, hidle.2.cons fun e he => ?_⟩
            rw [hentry, Option.some.injEq] at he
            exact he ▸ hheld
          · rename_i hheld
            obtain ⟨hdue, hkey⟩ := h.due hjobs hentry (Bool.eq_false_iff.mpr hheld)
            have hless := @Due.work _ _ _ now hdue
            refine .inr ?_
            rcases ih (h.spawn hdue hkey) with ⟨hsame, _⟩ | hlower
            · rw [hsame]
              show work (spawn .once now s index entry) < work s
              omega
            · show work (admitFrom .once now limit (spawn .once now s index entry) rest).1 < work s
              omega

theorem Kept.congr {s' : Drive} (h : Kept jobs notes s) (hentries : s'.entries = s.entries)
    (htasks : s'.tasks = s.tasks) (hrunning : s'.running = s.running)
    (hscopes : s'.scopes = s.scopes) : Kept jobs notes s' where
  sound := h.sound.congr htasks hrunning hscopes
  configured := hentries ▸ h.configured
  bounded := hentries ▸ h.bounded
  subset := htasks ▸ h.subset
  ledger := by
    rw [hentries, htasks]
    exact h.ledger

theorem pass_kept (hjobs : ∀ job ∈ jobs, Schedulable job.settings) (h : Kept jobs notes s) :
    Kept jobs (notes ++ (pass .once now s).2) (pass .once now s).1 :=
  (admitFrom_kept hjobs (globalLimit s.entries) (order s) h).congr rfl rfl rfl rfl

/-- The positions wrap around, so that none is left out. -/
theorem mem_order {index : Nat} (h : index < s.entries.length) : index ∈ order s := by
  have hpos : 0 < s.entries.length := by omega
  have hcursor := Nat.mod_lt s.cursor hpos
  refine List.mem_map.mpr ⟨(index + s.entries.length - s.cursor % s.entries.length)
    % s.entries.length, List.mem_range.mpr (Nat.mod_lt _ hpos), ?_⟩
  rw [Nat.add_mod_mod, ← Nat.mod_add_mod, ← Nat.add_sub_assoc (by omega), Nat.add_sub_cancel_left,
    Nat.add_mod_right, Nat.mod_eq_of_lt h]

theorem globalLimit_pos {entries : List Entry}
    (h : ∀ e ∈ entries, Schedulable e.job.settings) : 0 < globalLimit entries := by
  unfold globalLimit
  cases hmin : (entries.map fun e => e.job.settings.concurrency).min? with
  | none => exact Nat.one_pos
  | some limit =>
      obtain ⟨e, he, rfl⟩ := List.mem_map.mp (List.min?_mem hmin)
      exact (h e he).concurrency

theorem Kept.schedulable (h : Kept jobs notes s)
    (hjobs : ∀ job ∈ jobs, Schedulable job.settings) :
    ∀ e ∈ s.entries, Schedulable e.job.settings := by
  intro e he
  refine hjobs _ ?_
  rw [← h.configured]
  exact List.mem_map_of_mem he

/-- With nothing in flight, no slot is taken. -/
theorem Kept.vacant (h : Kept jobs notes s) (htasks : s.tasks = []) :
    s.running = [] ∧ ∀ k : String, s.scopes[k]?.getD 0 = 0 := by
  constructor
  · rw [← List.length_eq_zero_iff, h.sound.length, htasks]
    rfl
  · intro k
    rw [h.sound.tally k, htasks]
    rfl

/-- A pass admits nothing, or it takes samples. -/
theorem pass_work (hjobs : ∀ job ∈ jobs, Schedulable job.settings) (h : Kept jobs notes s) :
    (pass .once now s).1.entries = s.entries ∧ (pass .once now s).1.tasks = s.tasks
        ∧ Blocked now (globalLimit s.entries) s (order s)
      ∨ work (pass .once now s).1 < work s := by
  rcases @admitFrom_work jobs notes s now hjobs (globalLimit s.entries) (order s) h with
    ⟨hsame, hblocked⟩ | hlower
  · refine .inl ⟨?_, ?_, hblocked⟩
    · rw [pass, hsame]
    · rw [pass, hsame]
  · exact .inr hlower

/-- With nothing in flight, a pass takes a sample of an entry that is due. -/
theorem pass_progress (hjobs : ∀ job ∈ jobs, Schedulable job.settings) (h : Kept jobs notes s)
    (htasks : s.tasks = []) {entry : Entry} (hentry : entry ∈ s.entries) (hdue : entry.due ≤ now)
    (hspent : spent .once entry = false) : work (pass .once now s).1 < work s := by
  obtain ⟨hrunning, hscopes⟩ := h.vacant htasks
  rcases @pass_work jobs notes s now hjobs h with ⟨_, _, hfull | hpassed⟩ | hlower
  · have hlimit := globalLimit_pos (h.schedulable hjobs)
    rw [hrunning] at hfull
    exact absurd hfull (not_le.mpr hlimit)
  · obtain ⟨index, hlt, hat⟩ := List.mem_iff_getElem.mp hentry
    have hheld := hpassed index (mem_order hlt) entry (by rw [List.getElem?_eq_getElem hlt, hat])
    have hscope := (h.schedulable hjobs entry hentry).scopeConcurrency
    rw [held, hrunning, hscopes, hspent] at hheld
    simp only [List.contains_nil, Bool.or_false, Bool.or_eq_true, decide_eq_true_eq] at hheld
    rcases hheld with hlate | hscopeFull
    · exact absurd hlate (not_lt.mpr hdue)
    · exact absurd hscopeFull (not_le.mpr hscope)
  · exact hlower

/-- Nobody stops the loop, no panic escapes, and the receiver takes each result. -/
def Event.Received : Event → Prop
  | .stopped => False
  | .completed _ ending _ _ sending => ending ≠ .escaped ∧ sending = .delivered
  | _ => True

structure Turn.Attended (t : Turn) : Prop where
  unstopped : t.stopped = false
  received : t.event.Received

/-- The end of a task releases its slots and forwards its result. -/
theorem complete_eq (h : Kept jobs notes s) {index : Nat} {task : Task} {ending : Ending}
    {started clock : Time} (htask : s.tasks[index]? = some task) (hending : ending ≠ .escaped) :
    ∃ result, complete s index ending started clock .delivered =
      ({ s with
          tasks := s.tasks.eraseIdx index
          running := s.running.erase task.job.key
          scopes := Tally.decrement s.scopes (scope task.job) },
        [.forwarded s.entries task.job result]) := by
  have hadmits : admits s.entries task.job = true := by
    have hjob := h.subset task (List.mem_of_getElem? htask)
    rw [← h.configured] at hjob
    obtain ⟨e, he, hsame⟩ := List.mem_map.mp hjob
    refine List.any_eq_true.mpr ⟨e, he, ?_⟩
    rw [hsame, beq_self_eq_true, beq_self_eq_true, Bool.and_self]
  have hfinish : ∃ result, task.finish ending started clock = some (task.job, result) := by
    cases ending with
    | escaped => exact absurd rfl hending
    | returned result => exact ⟨_, rfl⟩
    | panicked => exact ⟨_, rfl⟩
    | cancelled => exact ⟨_, rfl⟩
  obtain ⟨result, hresult⟩ := hfinish
  refine ⟨result, ?_⟩
  rw [complete, htask]
  dsimp only
  rw [hresult]
  dsimp only
  rw [hadmits]
  rfl

theorem countP_eraseIdx {α : Type} {p : α → Bool} {xs : List α} {i : Nat} {a : α}
    (h : xs[i]? = some a) :
    (xs.eraseIdx i).countP p + (if p a then 1 else 0) = xs.countP p := by
  obtain ⟨hlt, rfl⟩ := List.getElem?_eq_some_iff.mp h
  rw [← (List.getElem_cons_eraseIdx_perm hlt).countP_eq p, List.countP_cons]

theorem complete_kept (h : Kept jobs notes s) (index : Nat) {ending : Ending}
    {started clock : Time} (hending : ending ≠ .escaped) :
    Kept jobs (notes ++ (complete s index ending started clock .delivered).2)
      (complete s index ending started clock .delivered).1 := by
  cases htask : s.tasks[index]? with
  | none =>
      rw [complete, htask, List.append_nil]
      exact h
  | some task =>
      obtain ⟨result, heq⟩ := @complete_eq _ _ _ h _ _ _ started clock htask hending
      rw [heq]
      refine ⟨h.sound.release htask, h.configured, h.bounded, fun t ht => ?_, fun p => ?_⟩
      · exact h.subset t (List.mem_of_mem_eraseIdx ht)
      · have hcount := @countP_eraseIdx _ (fun t : Task => p t.job) _ _ _ htask
        have hledger := h.ledger p
        unfold delivered at hledger ⊢
        rw [List.countP_append, List.countP_singleton]
        by_cases hp : p task.job
        · simp only [Note.isResult, hp, if_true] at hcount ⊢
          omega
        · simp only [Note.isResult, hp, if_false, Bool.false_eq_true] at hcount ⊢
          omega

theorem complete_work (h : Kept jobs notes s) (index : Nat) {ending : Ending}
    {started clock : Time} (hending : ending ≠ .escaped) :
    (complete s index ending started clock .delivered).1.entries = s.entries
      ∧ (complete s index ending started clock .delivered).1.ended = s.ended
      ∧ work (complete s index ending started clock .delivered).1
        = work s - if index < s.tasks.length then 1 else 0 := by
  cases htask : s.tasks[index]? with
  | none =>
      rw [complete, htask, if_neg (not_lt.mpr (List.getElem?_eq_none_iff.mp htask))]
      exact ⟨rfl, rfl, rfl⟩
  | some task =>
      obtain ⟨result, heq⟩ := @complete_eq _ _ _ h _ _ _ started clock htask hending
      have hlt := (List.getElem?_eq_some_iff.mp htask).1
      rw [heq, if_pos hlt]
      refine ⟨rfl, rfl, ?_⟩
      unfold work
      dsimp only
      rw [List.length_eraseIdx_of_lt hlt]
      omega

end Turn

end HealthMonitor.Scheduler
