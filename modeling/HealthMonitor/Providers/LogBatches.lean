import HealthMonitor.Integrations.LogWindow
import HealthMonitor.Library.Json
import HealthMonitor.Library.Process
import Mathlib.Data.List.Induction

/-!
# LogBatches

The log batches of a target. A batch reads its windows from the cursor on, and the cursor
advances to its end only after all of them have completed. What the windows are, what is
served to them and how their reads fail is decided by the environment; `Store` says what
an append-only store does.
-/

namespace HealthMonitor.Providers

open HealthMonitor.Integrations

/-- The overlap of the settings, and the span of the windows with an id. -/
structure LogSettings where
  overlap : Nat
  span : String → Nat

/-- A window as a collector reads it: the rows it is served, and the error it ends with. -/
structure Read where
  id : String
  limit : Nat
  rows : List Row
  failure : Option TransportError

/-- `room` says whether the budget has room for the cache, `others` are the operations of
the result besides those of the windows, and `current` says whether the revision is still
that of the job when the batch ends. -/
structure Batch where
  stop : Time
  continuous : Bool
  room : Bool
  reads : List Read
  others : List (String × Coverage)
  cancelled : Bool
  current : Bool

/-- What a window was served and what became of it. `moment` counts the windows that were
read before it. -/
structure WindowReport where
  id : String
  moment : Nat
  start : Time
  stop : Time
  served : List Event
  failure : Option TransportError
  recorded : List Event
  groups : List Event
  gapSeconds : Int
  outcome : Option TransportError

structure BatchReport where
  stop : Time
  committed : Bool
  windows : List WindowReport

structure Router where
  cursor : Option Time
  dedupe : Option (Table Time)
  moment : Nat

namespace WindowReport

def complete (w : WindowReport) : Bool :=
  w.outcome.isNone

def coverage (w : WindowReport) : Coverage :=
  match w.outcome with
  | none => .complete
  | some error => error.coverage

/-- The operations of a window, the missing interval first. -/
def operations (w : WindowReport) : List (String × Coverage) :=
  (if 0 < w.gapSeconds then [(w.id ++ "/missing-window", .missing)] else []) ++ [(w.id, w.coverage)]

end WindowReport

/-- `log_cursor::complete`. -/
def logsComplete (windows : List WindowReport) (operations : List (String × Coverage)) : Bool :=
  windows.any (·.complete)
    && operations.all fun operation =>
      operation.2 = .complete
        || operation.2 = .missing
          && windows.any fun w =>
            operation.1 = w.id ++ "/missing-window" && w.complete && 0 < w.gapSeconds

namespace Router

def new : Router where
  cursor := none
  dedupe := none
  moment := 0

/-- One window, from `Window::new` to `Window::finish`. Without a cache a continuous check
does not complete. -/
def readWindow (hash : Hashed → String) (settings : LogSettings) (batch : Batch)
    (logStart : Option Time) (dedupe : Option (Table Time)) (moment : Nat) (read : Read) :
    WindowReport × Option (Table Time) :=
  let w := Window.new settings.overlap read.id (settings.span read.id) read.limit logStart batch.stop
  let ended := w.recordAll hash dedupe read.rows
  let outcome := ended.2.or read.failure
  ({ id := read.id
     moment := moment
     start := w.start
     stop := batch.stop
     served := read.rows.map Row.event
     failure := read.failure
     recorded := ended.1.1.recorded
     groups := ended.1.1.groups
     gapSeconds := w.gapSeconds
     outcome :=
       if batch.continuous && dedupe.isNone && outcome.isNone then some .limit else outcome },
    ended.1.2)

def readAll (hash : Hashed → String) (settings : LogSettings) (batch : Batch)
    (logStart : Option Time) (dedupe : Option (Table Time)) (moment : Nat) :
    List Read → List WindowReport × Option (Table Time)
  | [] => ([], dedupe)
  | read :: reads =>
      let first := readWindow hash settings batch logStart dedupe moment read
      let rest := readAll hash settings batch logStart first.2 (moment + 1) reads
      (first.1 :: rest.1, rest.2)

/-- The cache of a continuous check, made as soon as there is room for it. -/
def cache (s : Router) (batch : Batch) : Option (Table Time) :=
  if batch.continuous then
    if s.dedupe.isNone && batch.room then some ∅ else s.dedupe
  else none

def logStart (s : Router) (batch : Batch) : Option Time :=
  if batch.continuous then s.cursor else none

/-- `Router::collect` of a log check. A cancelled batch has read what it has read, but its
result is a failure. -/
def collect (hash : Hashed → String) (settings : LogSettings) (s : Router) (batch : Batch) :
    Router × BatchReport :=
  let ended := readAll hash settings batch (s.logStart batch) (s.cache batch) s.moment batch.reads
  let complete := !batch.cancelled
    && logsComplete ended.1 (batch.others ++ ended.1.flatMap WindowReport.operations)
  let committed := batch.current && batch.continuous && complete
  ({ cursor := if committed then some batch.stop else s.cursor
     dedupe := if batch.continuous then ended.2 else s.dedupe
     moment := s.moment + batch.reads.length },
    { stop := batch.stop, committed, windows := ended.1 })

def process (hash : Hashed → String) (settings : LogSettings) : Process Router Batch BatchReport where
  step s batch :=
    let collected := s.collect hash settings batch
    (collected.1, [collected.2])

end Router

/-! ## One batch -/

/-- The fingerprints of some events of a window. -/
def fingerprints (hash : Hashed → String) (id : String) (events : List Event) : List String :=
  events.map fun x => hash (x.hashed id)

/-- What a window does in a batch that starts from these stamps. -/
structure Sound (hash : Hashed → String) (settings : LogSettings) (batch : Batch)
    (logStart : Option Time) (base : Option (Table Time)) (w : WindowReport) : Prop where
  start : w.start = Window.startOf settings.overlap (settings.span w.id) logStart batch.stop
  stop : w.stop = batch.stop
  inside : ∀ x ∈ w.recorded, w.start ≤ x.time ∧ x.time ≤ w.stop
  added : ∀ x ∈ w.groups, x ∈ w.recorded
  served : ∀ x ∈ w.recorded, x ∈ w.served
  complete : w.complete = true → w.recorded = w.served ∧ w.failure = none
  cached : w.complete = true → batch.continuous = true → base.isSome = true
  answered : ∀ x ∈ w.recorded, (∃ y ∈ w.groups, hash (y.hashed w.id) = hash (x.hashed w.id))
    ∨ ∃ time, stamp base (hash (x.hashed w.id)) = some time ∧ Reached logStart time

namespace Router

variable {hash : Hashed → String} {settings : LogSettings} {batch : Batch}
  {logStart : Option Time} {base dedupe : Option (Table Time)} {quiet : Prop}

/-- A window that completes has recorded all it was served, to the end. -/
theorem outcome_none {moment : Nat} {read : Read}
    (h : (readWindow hash settings batch logStart dedupe moment read).1.complete = true) :
    ((Window.new settings.overlap read.id (settings.span read.id) read.limit logStart
        batch.stop).recordAll hash dedupe read.rows).2 = none ∧ read.failure = none
      ∧ (batch.continuous = true → dedupe.isSome = true) := by
  rw [WindowReport.complete, readWindow, Option.isNone_iff_eq_none] at h
  dsimp only at h
  split at h
  · cases h
  · next hcache =>
      obtain ⟨hended, hfailure⟩ := Option.or_eq_none_iff.mp h
      refine ⟨hended, hfailure, fun hcontinuous => ?_⟩
      rw [h, hcontinuous] at hcache
      simpa [Option.isSome_iff_ne_none] using hcache

theorem readWindow_sound (hstop : ¬Reached logStart batch.stop)
    (hbase : ∀ k time, stamp dedupe k = some time → stamp base k = some time ∨ time = batch.stop)
    (hpresent : dedupe.isSome = base.isSome) (moment : Nat) {read : Read}
    (hquiet : quiet → ∀ row ∈ read.rows, row.evicted = none) :
    let ended := readWindow hash settings batch logStart dedupe moment read
    Sound hash settings batch logStart base ended.1
      ∧ Accepting logStart batch.stop quiet (fingerprints hash ended.1.id ended.1.recorded)
          (fingerprints hash ended.1.id ended.1.groups) dedupe ended.2 := by
  have hstart := Recording.start_new hash quiet settings.overlap read.id (settings.span read.id)
    read.limit logStart batch.stop dedupe
  obtain ⟨hrecording, taken, hstart, htaken, hall⟩ := hstart.recordAll hquiet
  have hrecorded : (readWindow hash settings batch logStart dedupe moment read).1.recorded
      = taken := htaken
  refine ⟨⟨rfl, rfl, hrecording.inside, hrecording.added, fun x hx => ?_, fun hcomplete => ?_,
    fun hcomplete hcontinuous => ?_, fun x hx => ?_⟩, hrecording.accepting⟩
  · exact hstart.subset (hrecorded ▸ hx)
  · obtain ⟨hended, hfailure, -⟩ := outcome_none hcomplete
    exact ⟨hrecorded.trans (hall hended), hfailure⟩
  · exact hpresent ▸ (outcome_none hcomplete).2.2 hcontinuous
  · have hcalled : hash (x.hashed read.id) ∈ fingerprints hash read.id
        (readWindow hash settings batch logStart dedupe moment read).1.recorded :=
      List.mem_map_of_mem hx
    rcases hrecording.accepting.answered _ hcalled with hadded | ⟨time, hstamp, hreached⟩
    · obtain ⟨y, hy, heq⟩ := List.mem_map.mp hadded
      exact .inl ⟨y, hy, heq⟩
    · rcases hbase _ _ hstamp with hstamp | rfl
      · exact .inr ⟨time, hstamp, hreached⟩
      · exact absurd hreached hstop

/-- The fingerprints of all windows together. -/
def allFingerprints (hash : Hashed → String) (events : WindowReport → List Event)
    (windows : List WindowReport) : List String :=
  windows.flatMap fun w => fingerprints hash w.id (events w)

theorem readAll_sound (hstop : ¬Reached logStart batch.stop)
    (hbase : ∀ k time, stamp dedupe k = some time → stamp base k = some time ∨ time = batch.stop)
    (hpresent : dedupe.isSome = base.isSome) (moment : Nat) {reads : List Read}
    (hquiet : quiet → ∀ read ∈ reads, ∀ row ∈ read.rows, row.evicted = none) :
    let ended := readAll hash settings batch logStart dedupe moment reads
    (∀ w ∈ ended.1, Sound hash settings batch logStart base w
        ∧ moment ≤ w.moment ∧ w.moment < moment + reads.length)
      ∧ Accepting logStart batch.stop quiet
          (allFingerprints hash WindowReport.recorded ended.1)
          (allFingerprints hash WindowReport.groups ended.1) dedupe ended.2 := by
  induction reads generalizing dedupe moment with
  | nil => exact ⟨fun w hw => absurd hw List.not_mem_nil, Accepting.refl dedupe⟩
  | cons read reads ih =>
      obtain ⟨hsound, haccepting⟩ := @readWindow_sound hash settings _ _ _ _ _ hstop
        hbase hpresent moment _ fun hq => hquiet hq read (by simp)
      have hbase' : ∀ k time,
          stamp (readWindow hash settings batch logStart dedupe moment read).2 k = some time →
          stamp base k = some time ∨ time = batch.stop := by
        intro k time hk
        rcases haccepting.origin k time hk with hk | ⟨htime, -⟩
        · exact hbase k time hk
        · exact .inr htime
      obtain ⟨hrest, hafter⟩ := ih hbase' (haccepting.present.trans hpresent) (moment + 1)
        fun hq read h => hquiet hq read (by simp [h])
      refine ⟨fun w hw => ?_, haccepting.trans hafter⟩
      rw [List.length_cons]
      rcases List.mem_cons.mp hw with rfl | hw
      · exact ⟨hsound, Nat.le_refl _, by show moment < _; omega⟩
      · obtain ⟨hw, hle, hlt⟩ := hrest w hw
        exact ⟨hw, by omega, by omega⟩

end Router

/-! ## Stores and runs -/

/-- What is visible to the reads of a window, by their moment. An event may become visible
late, and stays visible. -/
structure Store where
  visible : Nat → String → Event → Prop
  persists : ∀ {n m : Nat} {id : String} {x : Event}, n ≤ m → visible n id x → visible m id x

/-- The store serves what is visible, and all of it in the window to a read that does not
fail. -/
def Serves (store : Store) (log : List BatchReport) : Prop :=
  ∀ b ∈ log, ∀ w ∈ b.windows,
    (∀ x ∈ w.served, store.visible w.moment w.id x)
      ∧ (w.failure = none → ∀ x, store.visible w.moment w.id x → w.start ≤ x.time →
        x.time ≤ w.stop → x ∈ w.served)

/-- The batch has recorded the event in a window with that id. -/
def BatchReport.Records (b : BatchReport) (id : String) (x : Event) : Prop :=
  ∃ w ∈ b.windows, w.id = id ∧ x ∈ w.recorded

/-- The batch has added the event, as it is hashed, to the groups of such a window. -/
def BatchReport.Adds (b : BatchReport) (id : String) (x : Event) : Prop :=
  ∃ w ∈ b.windows, w.id = id ∧ ∃ y ∈ w.groups, y.hashed id = x.hashed id

/-- Where the cache stands after some batches. What the cursor has reached was read by a
committed batch, or a committed batch has left it behind. -/
structure Tracked (hash : Hashed → String) (settings : LogSettings) (quiet : Prop)
    (log : List BatchReport) (s : Router) : Prop where
  inside : ∀ b ∈ log, ∀ w ∈ b.windows, ∀ x ∈ w.recorded, x ∈ w.served ∧ x.time ≤ b.stop
  whole : ∀ b ∈ log, ∀ w ∈ b.windows, w.complete = true →
    w.recorded = w.served ∧ w.failure = none
  moments : ∀ b ∈ log, ∀ w ∈ b.windows, w.moment < s.moment
  complete : ∀ b ∈ log, b.committed = true →
    (∀ w ∈ b.windows, ∀ v ∈ b.windows, v.id ≠ w.id ++ "/missing-window") →
      ∀ w ∈ b.windows, w.complete = true
  cursor : ∀ time, Reached s.cursor time → ∃ b ∈ log, time ≤ b.stop
  committed : ∀ b ∈ log, b.committed = true → Reached s.cursor b.stop
  starts : ∀ b ∈ log, b.committed = true → ∀ w ∈ b.windows, ∀ stop, b.stop ≤ stop →
    w.start ≤ Window.startOf settings.overlap (settings.span w.id) s.cursor stop
  origin : ∀ k time, stamp s.dedupe k = some time →
    ∃ b ∈ log, b.stop = time ∧ ∃ w ∈ b.windows, ∃ x ∈ w.groups, x ∈ w.recorded
      ∧ hash (x.hashed w.id) = k
      ∧ (Reached s.cursor time → b.committed = true
        ∨ ∃ m ∈ log, b.stop < m.stop ∧ m.committed = true
          ∧ ∀ v ∈ m.windows, v.id = w.id → v.complete = true → x.time < v.start)
  counted : quiet → ∀ b ∈ log, b.committed = true → ∀ w ∈ b.windows, ∀ x ∈ w.groups,
    ∃ time, stamp s.dedupe (hash (x.hashed w.id)) = some time ∧ Reached s.cursor time

theorem startOf_mono {overlap span : Nat} {cursor cursor' : Option Time} {stop stop' : Time}
    (hstop : stop ≤ stop') (hcursor : ∀ time, Reached cursor time → Reached cursor' time) :
    Window.startOf overlap span cursor stop ≤ Window.startOf overlap span cursor' stop' := by
  have hfull : stop - span * nanosPerSecond ≤ stop' - span * nanosPerSecond :=
    Int.sub_le_sub_right hstop _
  cases cursor with
  | none =>
      cases cursor' with
      | none => exact hfull
      | some time' => exact Int.le_trans hfull (Int.le_max_left _ _)
  | some time =>
      obtain ⟨time', htime', hle⟩ := hcursor time ⟨time, rfl, Int.le_refl time⟩
      cases Option.mem_def.mp htime'
      exact Int.max_le.mpr ⟨Int.le_trans hfull (Int.le_max_left _ _),
        Int.le_trans (Int.sub_le_sub_right hle _) (Int.le_max_right _ _)⟩

namespace Tracked

theorem new (hash : Hashed → String) (settings : LogSettings) (quiet : Prop) :
    Tracked hash settings quiet [] .new where
  inside _ h := absurd h List.not_mem_nil
  whole _ h := absurd h List.not_mem_nil
  moments _ h := absurd h List.not_mem_nil
  complete _ h := absurd h List.not_mem_nil
  cursor _ h := by
    obtain ⟨cursor, hcursor, -⟩ := h
    cases hcursor
  committed _ h := absurd h List.not_mem_nil
  starts _ h := absurd h List.not_mem_nil
  origin _ _ h := by cases h
  counted _ _ h := absurd h List.not_mem_nil

section

variable {hash : Hashed → String} {settings : LogSettings} {quiet : Prop} {log : List BatchReport}
  {s : Router} {batch : Batch}

/-- The end of a batch is above all the cursor has reached. -/
theorem not_reached (h : Tracked hash settings quiet log s)
    (hlater : ∀ b ∈ log, b.stop < batch.stop) {time : Time} (htime : batch.stop ≤ time) :
    ¬Reached s.cursor time := by
  intro hreached
  obtain ⟨b, hb, hle⟩ := h.cursor time hreached
  have := hlater b hb
  exact Int.lt_irrefl _ (Int.lt_of_lt_of_le (Int.lt_of_lt_of_le this htime) hle)

theorem reached_logStart {time : Time} (h : Reached (s.logStart batch) time) :
    batch.continuous = true ∧ Reached s.cursor time := by
  obtain ⟨cursor, hcursor, hle⟩ := h
  rw [Router.logStart] at hcursor
  split at hcursor
  · next hcontinuous => exact ⟨hcontinuous, cursor, hcursor, hle⟩
  · cases hcursor

theorem stamp_cache {k : String} {time : Time} (h : stamp (s.cache batch) k = some time) :
    stamp s.dedupe k = some time := by
  rw [Router.cache] at h
  split at h
  · split at h
    · simp [stamp] at h
    · exact h
  · cases h

theorem cache_stamp (hcontinuous : batch.continuous = true) {k : String} {time : Time}
    (h : stamp s.dedupe k = some time) : stamp (s.cache batch) k = some time := by
  have hsome : s.dedupe.isNone = false := by
    cases hdedupe : s.dedupe with
    | none =>
        rw [hdedupe] at h
        cases h
    | some entries => rfl
  rw [Router.cache, if_pos hcontinuous, hsome]
  exact h

theorem logStart_reached (hcontinuous : batch.continuous = true) {time : Time}
    (h : Reached s.cursor time) : Reached (s.logStart batch) time := by
  rw [Router.logStart, if_pos hcontinuous]
  exact h

/-- What the windows of the next batch do. -/
theorem collected (h : Tracked hash settings quiet log s)
    (hlater : ∀ b ∈ log, b.stop < batch.stop)
    (hquiet : quiet → ∀ read ∈ batch.reads, ∀ row ∈ read.rows, row.evicted = none) :
    (∀ w ∈ (s.collect hash settings batch).2.windows,
      Sound hash settings batch (s.logStart batch) (s.cache batch) w
        ∧ s.moment ≤ w.moment ∧ w.moment < s.moment + batch.reads.length)
    ∧ Accepting (s.logStart batch) batch.stop quiet
        (Router.allFingerprints hash WindowReport.recorded (s.collect hash settings batch).2.windows)
        (Router.allFingerprints hash WindowReport.groups (s.collect hash settings batch).2.windows)
        (s.cache batch)
        (Router.readAll hash settings batch (s.logStart batch) (s.cache batch) s.moment
          batch.reads).2 :=
  Router.readAll_sound (fun hreached => h.not_reached hlater (Int.le_refl _)
    (reached_logStart hreached).2) (fun _ _ hk => .inl hk) rfl s.moment hquiet

theorem continuous_of_committed (h : (s.collect hash settings batch).2.committed = true) :
    batch.continuous = true := by
  simp only [Router.collect, Bool.and_eq_true] at h
  exact h.1.2

theorem complete_of_committed (h : (s.collect hash settings batch).2.committed = true) :
    ∃ w ∈ (s.collect hash settings batch).2.windows, w.complete = true := by
  simp only [Router.collect, logsComplete, Bool.and_eq_true] at h
  exact List.any_eq_true.mp h.2.2.1

/-- The operation of a window that failed is not that of a missing interval. -/
theorem all_complete (h : (s.collect hash settings batch).2.committed = true)
    (hids : ∀ w ∈ (s.collect hash settings batch).2.windows,
      ∀ v ∈ (s.collect hash settings batch).2.windows, v.id ≠ w.id ++ "/missing-window") :
    ∀ w ∈ (s.collect hash settings batch).2.windows, w.complete = true := by
  intro w hw
  simp only [Router.collect, logsComplete, Bool.and_eq_true, List.all_eq_true] at h
  have hoperation := h.2.2.2 (w.id, w.coverage)
    (List.mem_append_right _ (List.mem_flatMap.mpr ⟨w, hw, by simp [WindowReport.operations]⟩))
  rw [Bool.or_eq_true] at hoperation
  rcases hoperation with hcomplete | hmissing
  · rw [WindowReport.complete]
    rw [decide_eq_true_eq, WindowReport.coverage] at hcomplete
    cases houtcome : w.outcome with
    | none => rfl
    | some error =>
        rw [houtcome] at hcomplete
        cases error <;> cases hcomplete
  · rw [Bool.and_eq_true, List.any_eq_true] at hmissing
    obtain ⟨v, hv, heq⟩ := hmissing.2
    simp only [Bool.and_eq_true, decide_eq_true_eq] at heq
    exact absurd heq.1.1 (hids v hv w hw)

theorem cursor_collect : (s.collect hash settings batch).1.cursor
    = if (s.collect hash settings batch).2.committed then some batch.stop else s.cursor := rfl

theorem dedupe_collect : (s.collect hash settings batch).1.dedupe
    = if batch.continuous then
        (Router.readAll hash settings batch (s.logStart batch) (s.cache batch) s.moment
          batch.reads).2
      else s.dedupe := rfl

/-- The cursor never goes back. -/
theorem reached_collect (h : Tracked hash settings quiet log s)
    (hlater : ∀ b ∈ log, b.stop < batch.stop) {time : Time} (htime : Reached s.cursor time) :
    Reached (s.collect hash settings batch).1.cursor time := by
  rw [cursor_collect]
  split
  · obtain ⟨b, hb, hle⟩ := h.cursor time htime
    exact ⟨batch.stop, rfl, Int.le_trans hle (Int.le_of_lt (hlater b hb))⟩
  · exact htime

/-- An event that the batch has not asked the cache for lies before all it has read to the
end. -/
theorem left_behind (h : Tracked hash settings quiet log s)
    (hlater : ∀ b ∈ log, b.stop < batch.stop)
    (hquiet : quiet → ∀ read ∈ batch.reads, ∀ row ∈ read.rows, row.evicted = none) {store : Store}
    (hserves : Serves store (log ++ [(s.collect hash settings batch).2]))
    {b : BatchReport} (hb : b ∈ log) {w : WindowReport} (hw : w ∈ b.windows) {x : Event}
    (hx : x ∈ w.recorded) (hcontinuous : batch.continuous = true)
    (hstamp : stamp (s.collect hash settings batch).1.dedupe (hash (x.hashed w.id)) = some b.stop)
    (hnew : ¬Reached s.cursor b.stop) :
    ∀ v ∈ (s.collect hash settings batch).2.windows, v.id = w.id → v.complete = true →
      x.time < v.start := by
  intro v hv hid hcomplete
  obtain ⟨hsound, haccepting⟩ := h.collected hlater hquiet
  obtain ⟨hvsound, hmoment, -⟩ := hsound v hv
  refine Int.not_le.mp fun hstart => ?_
  obtain ⟨hserved, htime⟩ := h.inside b hb w hw x hx
  have hvisible : store.visible v.moment v.id x := by
    rw [hid]
    exact store.persists (Nat.le_of_lt (Nat.lt_of_lt_of_le (h.moments b hb w hw) hmoment))
      ((hserves b (List.mem_append_left _ hb) w hw).1 x hserved)
  have hstop : x.time ≤ v.stop := by
    rw [hvsound.stop]
    exact Int.le_trans htime (Int.le_of_lt (hlater b hb))
  have hagain : x ∈ v.recorded := by
    rw [(hvsound.complete hcomplete).1]
    exact (hserves _ (by simp) v hv).2 (hvsound.complete hcomplete).2 x hvisible hstart hstop
  have hcalled : hash (x.hashed w.id) ∈ Router.allFingerprints hash WindowReport.recorded
      (s.collect hash settings batch).2.windows :=
    List.mem_flatMap.mpr ⟨v, hv, List.mem_map.mpr ⟨x, hagain, by rw [hid]⟩⟩
  rw [dedupe_collect, if_pos hcontinuous] at hstamp
  rcases haccepting.renewed _ hcalled b.stop hstamp with heq | hreached
  · exact Int.lt_irrefl _ (heq ▸ hlater b hb)
  · exact hnew (reached_logStart hreached).2

/-- Where a stamp comes from after the batch. -/
theorem origin_collect (h : Tracked hash settings quiet log s)
    (hlater : ∀ b ∈ log, b.stop < batch.stop)
    (hquiet : quiet → ∀ read ∈ batch.reads, ∀ row ∈ read.rows, row.evicted = none) {store : Store}
    (hserves : Serves store (log ++ [(s.collect hash settings batch).2])) {k : String} {time : Time}
    (hstamp : stamp (s.collect hash settings batch).1.dedupe k = some time) :
    ∃ b ∈ log ++ [(s.collect hash settings batch).2], b.stop = time
      ∧ ∃ w ∈ b.windows, ∃ x ∈ w.groups, x ∈ w.recorded ∧ hash (x.hashed w.id) = k
      ∧ (Reached (s.collect hash settings batch).1.cursor time → b.committed = true
        ∨ ∃ m ∈ log ++ [(s.collect hash settings batch).2], b.stop < m.stop ∧ m.committed = true
          ∧ ∀ v ∈ m.windows, v.id = w.id → v.complete = true → x.time < v.start) := by
  obtain ⟨hsound, haccepting⟩ := h.collected hlater hquiet
  have hold : stamp s.dedupe k = some time → _ := h.origin k time
  by_cases hcontinuous : batch.continuous = true
  · rw [dedupe_collect, if_pos hcontinuous] at hstamp
    rcases haccepting.origin k time hstamp with hbefore | ⟨rfl, hadded⟩
    · obtain ⟨b, hb, rfl, w, hw, x, hx, hrecorded, rfl, hreach⟩ := hold (stamp_cache hbefore)
      refine ⟨b, List.mem_append_left _ hb, rfl, w, hw, x, hx, hrecorded, rfl, fun hreached => ?_⟩
      by_cases hbefore' : Reached s.cursor b.stop
      · rcases hreach hbefore' with hcommitted | ⟨m, hm, hrest⟩
        · exact .inl hcommitted
        · exact .inr ⟨m, List.mem_append_left _ hm, hrest⟩
      · -- the batch has moved the cursor past the stamp
        have hcommitted : (s.collect hash settings batch).2.committed = true := by
          by_contra hnot
          rw [cursor_collect, if_neg hnot] at hreached
          exact hbefore' hreached
        refine .inr ⟨_, by simp, hlater b hb, hcommitted, ?_⟩
        refine h.left_behind hlater hquiet hserves hb hw hrecorded hcontinuous ?_ hbefore'
        rw [dedupe_collect, if_pos hcontinuous]
        exact hstamp
    · obtain ⟨w, hw, hk⟩ := List.mem_flatMap.mp hadded
      obtain ⟨x, hx, rfl⟩ := List.mem_map.mp hk
      refine ⟨_, by simp, rfl, w, hw, x, hx, (hsound w hw).1.added x hx, rfl, fun hreached => ?_⟩
      by_contra hnot
      rw [not_or] at hnot
      rw [cursor_collect, if_neg hnot.1] at hreached
      exact h.not_reached hlater (Int.le_refl _) hreached
  · rw [dedupe_collect, if_neg hcontinuous] at hstamp
    have hcommitted : ¬(s.collect hash settings batch).2.committed = true :=
      fun hc => hcontinuous (continuous_of_committed hc)
    obtain ⟨b, hb, rfl, w, hw, x, hx, hrecorded, rfl, hreach⟩ := hold hstamp
    refine ⟨b, List.mem_append_left _ hb, rfl, w, hw, x, hx, hrecorded, rfl, fun hreached => ?_⟩
    rw [cursor_collect, if_neg hcommitted] at hreached
    rcases hreach hreached with hcommitted | ⟨m, hm, hrest⟩
    · exact .inl hcommitted
    · exact .inr ⟨m, List.mem_append_left _ hm, hrest⟩

/-- What committed batches have added stays in the cache while nothing is evicted. -/
theorem counted_collect (h : Tracked hash settings quiet log s)
    (hlater : ∀ b ∈ log, b.stop < batch.stop)
    (hquiet : quiet → ∀ read ∈ batch.reads, ∀ row ∈ read.rows, row.evicted = none) (hq : quiet)
    {b : BatchReport} (hb : b ∈ log ++ [(s.collect hash settings batch).2])
    (hcommitted : b.committed = true) {w : WindowReport} (hw : w ∈ b.windows) {x : Event}
    (hx : x ∈ w.groups) :
    ∃ time, stamp (s.collect hash settings batch).1.dedupe (hash (x.hashed w.id)) = some time
      ∧ Reached (s.collect hash settings batch).1.cursor time := by
  obtain ⟨hsound, haccepting⟩ := h.collected hlater hquiet
  rcases List.mem_append.mp hb with hb | hb
  · obtain ⟨time, hstamp, hreached⟩ := h.counted hq b hb hcommitted w hw x hx
    refine ⟨time, ?_, h.reached_collect hlater hreached⟩
    by_cases hcontinuous : batch.continuous = true
    · have hcache := cache_stamp hcontinuous hstamp
      rw [dedupe_collect, if_pos hcontinuous]
      rcases haccepting.kept hq _ time hcache with hkept | ⟨-, hadded⟩
      · exact hkept
      · exact absurd hadded (haccepting.suppressed hq _ time hcache
          (logStart_reached hcontinuous hreached))
    · rw [dedupe_collect, if_neg hcontinuous]
      exact hstamp
  · obtain rfl := List.mem_singleton.mp hb
    have hcontinuous := continuous_of_committed hcommitted
    obtain ⟨v, hv, hcomplete⟩ := complete_of_committed hcommitted
    refine ⟨batch.stop, ?_, ?_⟩
    · rw [dedupe_collect, if_pos hcontinuous]
      exact haccepting.stamped hq ((hsound v hv).1.cached hcomplete hcontinuous) _
        (List.mem_flatMap.mpr ⟨w, hw, List.mem_map_of_mem hx⟩)
    · rw [cursor_collect, if_pos hcommitted]
      exact ⟨batch.stop, rfl, Int.le_refl _⟩

theorem collect (h : Tracked hash settings quiet log s)
    (hlater : ∀ b ∈ log, b.stop < batch.stop)
    (hquiet : quiet → ∀ read ∈ batch.reads, ∀ row ∈ read.rows, row.evicted = none) {store : Store}
    (hserves : Serves store (log ++ [(s.collect hash settings batch).2])) :
    Tracked hash settings quiet (log ++ [(s.collect hash settings batch).2])
      (s.collect hash settings batch).1 := by
  obtain ⟨hsound, -⟩ := h.collected hlater hquiet
  have hlast : ∀ {b}, b ∈ log ++ [(s.collect hash settings batch).2] →
      b ∈ log ∨ b = (s.collect hash settings batch).2 :=
    fun hb => (List.mem_append.mp hb).imp_right List.mem_singleton.mp
  constructor
  · intro b hb w hw x hx
    rcases hlast hb with hb | rfl
    · exact h.inside b hb w hw x hx
    · have hw := (hsound w hw).1
      exact ⟨hw.served x hx, Int.le_trans (hw.inside x hx).2 (Int.le_of_eq hw.stop)⟩
  · intro b hb w hw hcomplete
    rcases hlast hb with hb | rfl
    · exact h.whole b hb w hw hcomplete
    · exact (hsound w hw).1.complete hcomplete
  · intro b hb w hw
    rcases hlast hb with hb | rfl
    · exact Nat.lt_of_lt_of_le (h.moments b hb w hw) (Nat.le_add_right _ _)
    · exact (hsound w hw).2.2
  · intro b hb hcommitted hids
    rcases hlast hb with hb | rfl
    · exact h.complete b hb hcommitted hids
    · exact all_complete hcommitted hids
  · intro time hreached
    rw [cursor_collect] at hreached
    split at hreached
    · obtain ⟨cursor, hcursor, hle⟩ := hreached
      cases Option.mem_def.mp hcursor
      exact ⟨(s.collect hash settings batch).2, by simp, hle⟩
    · obtain ⟨b, hb, hle⟩ := h.cursor time hreached
      exact ⟨b, List.mem_append_left _ hb, hle⟩
  · intro b hb hcommitted
    rcases hlast hb with hb | rfl
    · exact h.reached_collect hlater (h.committed b hb hcommitted)
    · rw [cursor_collect, if_pos hcommitted]
      exact ⟨batch.stop, rfl, Int.le_refl _⟩
  · intro b hb hcommitted w hw stop hstop
    rcases hlast hb with hb | rfl
    · exact Int.le_trans (h.starts b hb hcommitted w hw stop hstop)
        (startOf_mono (Int.le_refl _) fun _ => h.reached_collect hlater)
    · rw [(hsound w hw).1.start, Router.logStart, if_pos (continuous_of_committed hcommitted)]
      exact startOf_mono hstop fun _ => h.reached_collect hlater
  · exact fun k time hstamp => h.origin_collect hlater hquiet hserves hstamp
  · exact fun hq b hb hcommitted w hw x hx =>
      h.counted_collect hlater hquiet hq hb hcommitted hw hx

/-- What becomes of an event the batch records: it is new to the window, or a committed
batch has added it, or one has left it behind. -/
theorem answered_collect (hhash : Function.Injective hash) (h : Tracked hash settings quiet log s)
    (hlater : ∀ b ∈ log, b.stop < batch.stop)
    (hquiet : quiet → ∀ read ∈ batch.reads, ∀ row ∈ read.rows, row.evicted = none)
    {w : WindowReport} (hw : w ∈ (s.collect hash settings batch).2.windows) {x : Event}
    (hx : x ∈ w.recorded) :
    (∃ y ∈ w.groups, y.hashed w.id = x.hashed w.id)
    ∨ (∃ m ∈ log, m.committed = true ∧ m.Adds w.id x)
    ∨ ∃ j ∈ log, j.committed = false ∧ ∃ m ∈ log, j.stop < m.stop ∧ m.committed = true
      ∧ ∃ y, j.Records w.id y ∧ y.hashed w.id = x.hashed w.id
        ∧ ∀ v ∈ m.windows, v.id = w.id → v.complete = true → y.time < v.start ∧ v.start ≤ w.start := by
  obtain ⟨hsound, -⟩ := h.collected hlater hquiet
  have hwsound := (hsound w hw).1
  rcases hwsound.answered x hx with ⟨y, hy, heq⟩ | ⟨time, hstamp, hreached⟩
  · exact .inl ⟨y, hy, hhash heq⟩
  obtain ⟨hcontinuous, hreached⟩ := reached_logStart hreached
  obtain ⟨j, hj, rfl, u, hu, y, hy, hrecorded, heq, hreach⟩ := h.origin _ _ (stamp_cache hstamp)
  have hsame := hhash heq
  have hid : u.id = w.id := congrArg Hashed.window hsame
  rw [hid] at hsame
  refine .inr ?_
  cases hcommitted : j.committed with
  | true => exact .inl ⟨j, hj, hcommitted, u, hu, hid, y, hy, hsame⟩
  | false =>
      rcases hreach hreached with hyes | ⟨m, hm, hlt, hmcommitted, hleft⟩
      · rw [hcommitted] at hyes
        cases hyes
      · refine .inr ⟨j, hj, hcommitted, m, hm, hlt, hmcommitted, y, ⟨u, hu, hid, hrecorded⟩, hsame,
          fun v hv hvid hcomplete => ⟨hleft v hv (hvid.trans hid.symm) hcomplete, ?_⟩⟩
        have hstart := h.starts m hm hmcommitted v hv batch.stop (Int.le_of_lt (hlater m hm))
        rw [hwsound.start, Router.logStart, if_pos hcontinuous, ← hvid]
        exact hstart

/-- A committed batch adds nothing that an earlier one has added. -/
theorem new_collect (h : Tracked hash settings quiet log s)
    (hlater : ∀ b ∈ log, b.stop < batch.stop)
    (hquiet : quiet → ∀ read ∈ batch.reads, ∀ row ∈ read.rows, row.evicted = none) (hq : quiet)
    (hcommitted : (s.collect hash settings batch).2.committed = true) {id : String} {x : Event}
    (hadds : (s.collect hash settings batch).2.Adds id x) {m : BatchReport} (hm : m ∈ log)
    (hmcommitted : m.committed = true) : ¬m.Adds id x := by
  intro hmadds
  obtain ⟨-, haccepting⟩ := h.collected hlater hquiet
  obtain ⟨w, hw, rfl, y, hy, hsame⟩ := hadds
  obtain ⟨v, hv, hvid, z, hz, hzsame⟩ := hmadds
  have hcontinuous := continuous_of_committed hcommitted
  obtain ⟨time, hstamp, hreached⟩ := h.counted hq m hm hmcommitted v hv z hz
  rw [hvid, hzsame, ← hsame] at hstamp
  exact haccepting.suppressed hq _ time (cache_stamp hcontinuous hstamp)
    (logStart_reached hcontinuous hreached)
    (List.mem_flatMap.mpr ⟨w, hw, List.mem_map_of_mem hy⟩)

end

end Tracked

/-! ## Every run -/

/-- The ends of the batches increase. -/
def Increasing (log : List BatchReport) : Prop :=
  log.Pairwise (·.stop < ·.stop)

theorem Increasing.eq_of_mem {log : List BatchReport} (h : Increasing log) {b c : BatchReport}
    (hb : b ∈ log) (hc : c ∈ log) (heq : b.stop = c.stop) : b = c := by
  induction log with
  | nil => cases hb
  | cons a log ih =>
      obtain ⟨hfirst, hrest⟩ := List.pairwise_cons.mp h
      rcases List.mem_cons.mp hb with hb | hb <;> rcases List.mem_cons.mp hc with hc | hc
      · exact hb.trans hc.symm
      · have hlt := hfirst c hc
        rw [← hb, heq] at hlt
        exact absurd hlt (Int.lt_irrefl _)
      · have hlt := hfirst b hb
        rw [← hc, heq] at hlt
        exact absurd hlt (Int.lt_irrefl _)
      · exact ih hrest hb hc

instance (log : List BatchReport) : Decidable (Increasing log) :=
  inferInstanceAs (Decidable (log.Pairwise (·.stop < ·.stop)))

instance (b : BatchReport) (id : String) (x : Event) : Decidable (b.Adds id x) :=
  inferInstanceAs (Decidable (∃ w ∈ b.windows, w.id = id ∧ ∃ y ∈ w.groups, y.hashed id = x.hashed id))

/-- What keeps the cursor from leaving events behind: between a batch that records an event
without committing and one that records it again, every batch that commits has the window;
no window is named as the missing interval of another; and events have timestamps in
nanoseconds. -/
structure Steady (log : List BatchReport) : Prop where
  reread : ∀ j ∈ log, ∀ m ∈ log, ∀ k ∈ log, j.stop < m.stop → m.stop < k.stop →
    j.committed = false → m.committed = true → ∀ id x y, j.Records id y → k.Records id x →
      y.hashed id = x.hashed id → ∃ v ∈ m.windows, v.id = id
  ids : ∀ b ∈ log, ∀ w ∈ b.windows, ∀ v ∈ b.windows, v.id ≠ w.id ++ "/missing-window"
  dated : ∀ b ∈ log, ∀ w ∈ b.windows, ∀ x ∈ w.recorded, nanos x.time = x.time

/-- Batches that all have the same windows are steady. -/
theorem Steady.of_same {log : List BatchReport}
    (hsame : ∀ b ∈ log, ∀ m ∈ log, ∀ w ∈ b.windows, ∃ v ∈ m.windows, v.id = w.id)
    (hids : ∀ b ∈ log, ∀ w ∈ b.windows, ∀ v ∈ b.windows, v.id ≠ w.id ++ "/missing-window")
    (hdated : ∀ b ∈ log, ∀ w ∈ b.windows, ∀ x ∈ w.recorded, nanos x.time = x.time) :
    Steady log where
  reread j hj m hm _ _ _ _ _ _ id _ y hrecords _ _ := by
    obtain ⟨w, hw, rfl, -⟩ := hrecords
    exact hsame j hj m hm w hw
  ids := hids
  dated := hdated

/-- Nothing is suppressed but what the window or a committed batch has added. -/
def Answered (log : List BatchReport) (k : BatchReport) : Prop :=
  ∀ w ∈ k.windows, ∀ x ∈ w.recorded, (∃ y ∈ w.groups, y.hashed w.id = x.hashed w.id)
    ∨ ∃ m ∈ log, m.stop < k.stop ∧ m.committed = true ∧ m.Adds w.id x

theorem Steady.of_subset {log later : List BatchReport} (h : Steady later)
    (hsub : ∀ b ∈ log, b ∈ later) : Steady log where
  reread j hj m hm k hk := h.reread j (hsub j hj) m (hsub m hm) k (hsub k hk)
  ids b hb := h.ids b (hsub b hb)
  dated b hb := h.dated b (hsub b hb)

theorem Answered.of_subset {log later : List BatchReport} {k : BatchReport} (h : Answered log k)
    (hsub : ∀ b ∈ log, b ∈ later) : Answered later k := by
  intro w hw x hx
  rcases h w hw x hx with hadded | ⟨m, hm, hrest⟩
  · exact .inl hadded
  · exact .inr ⟨m, hsub m hm, hrest⟩

section

variable {hash : Hashed → String} {settings : LogSettings}

/-- In a steady run nothing is left behind. -/
theorem answered_next (hhash : Function.Injective hash) {quiet : Prop} {log : List BatchReport}
    {s : Router} {batch : Batch} (h : Tracked hash settings quiet log s)
    (hlater : ∀ b ∈ log, b.stop < batch.stop)
    (hquiet : quiet → ∀ read ∈ batch.reads, ∀ row ∈ read.rows, row.evicted = none)
    (hsteady : Steady (log ++ [(s.collect hash settings batch).2])) :
    Answered (log ++ [(s.collect hash settings batch).2]) (s.collect hash settings batch).2 := by
  intro w hw x hx
  have hold : ∀ {b}, b ∈ log → b ∈ log ++ [(s.collect hash settings batch).2] :=
    fun hb => List.mem_append_left _ hb
  rcases h.answered_collect hhash hlater hquiet hw hx with
    hadded | ⟨m, hm, hcommitted, hadds⟩ | ⟨j, hj, huncommitted, m, hm, hlt, hcommitted, y, hrecords,
      hsame, hleft⟩
  · exact .inl hadded
  · exact .inr ⟨m, hold hm, hlater m hm, hcommitted, hadds⟩
  · exfalso
    obtain ⟨v, hv, hvid⟩ := hsteady.reread j (hold hj) m (hold hm) _ (by simp) hlt (hlater m hm)
      huncommitted hcommitted w.id x y hrecords ⟨w, hw, rfl, hx⟩ hsame
    have hcomplete := h.complete m hm hcommitted (hsteady.ids m (hold hm)) v hv
    obtain ⟨hbefore, hstart⟩ := hleft v hv hvid hcomplete
    obtain ⟨u, hu, -, hy⟩ := hrecords
    have htime : y.time = x.time := by
      rw [← hsteady.dated j (hold hj) u hu y hy, ← hsteady.dated _ (by simp) w hw x hx]
      exact congrArg Hashed.nanos hsame
    obtain ⟨hsound, -⟩ := h.collected hlater hquiet
    have hinside := ((hsound w hw).1.inside x hx).1
    rw [htime] at hbefore
    exact Int.lt_irrefl _ (Int.lt_of_lt_of_le hbefore (Int.le_trans hstart hinside))

theorem run_tracked (hhash : Function.Injective hash) {store : Store} {quiet : Prop}
    (batches : List Batch)
    (hincreasing : Increasing ((Router.process hash settings).run .new batches).2)
    (hserves : Serves store ((Router.process hash settings).run .new batches).2)
    (hquiet : quiet → ∀ batch ∈ batches, ∀ read ∈ batch.reads, ∀ row ∈ read.rows,
      row.evicted = none) :
    let ended := (Router.process hash settings).run .new batches
    Tracked hash settings quiet ended.2 ended.1
      ∧ (Steady ended.2 → ∀ k ∈ ended.2, Answered ended.2 k)
      ∧ (quiet → ∀ k ∈ ended.2, k.committed = true → ∀ id x, k.Adds id x →
        ∀ m ∈ ended.2, m.stop < k.stop → m.committed = true → ¬m.Adds id x) := by
  induction batches using List.reverseRecOn with
  | nil => exact ⟨Tracked.new hash settings quiet, fun _ k hk => absurd hk List.not_mem_nil,
      fun _ k hk => absurd hk List.not_mem_nil⟩
  | append_singleton batches batch ih =>
      rw [Process.run_append, Process.run_singleton] at hincreasing hserves ⊢
      have hold : ∀ b ∈ ((Router.process hash settings).run .new batches).2,
          b ∈ ((Router.process hash settings).run .new batches).2
            ++ [((((Router.process hash settings).run .new batches).1).collect hash settings
              batch).2] :=
        fun b hb => List.mem_append_left _ hb
      obtain ⟨hstart, -, hlater⟩ := List.pairwise_append.mp hincreasing
      have hlater : ∀ b ∈ ((Router.process hash settings).run .new batches).2,
          b.stop < batch.stop := fun b hb => hlater b hb _ (List.mem_singleton_self _)
      have hbatch : quiet → ∀ read ∈ batch.reads, ∀ row ∈ read.rows, row.evicted = none :=
        fun hq => hquiet hq batch (by simp)
      obtain ⟨htracked, hanswered, hnew⟩ := ih hstart (fun b hb => hserves b (hold b hb))
        fun hq batch hb => hquiet hq batch (by simp [hb])
      refine ⟨htracked.collect hlater hbatch hserves, fun hsteady k hk => ?_,
        fun hq k hk hcommitted id x hadds m hm hlt hmcommitted => ?_⟩
      · rcases List.mem_append.mp hk with hk | hk
        · exact (hanswered (hsteady.of_subset hold) k hk).of_subset hold
        · rw [List.mem_singleton.mp hk]
          exact answered_next hhash htracked hlater hbatch hsteady
      · rcases List.mem_append.mp hk with hk | hk
        · rcases List.mem_append.mp hm with hm | hm
          · exact hnew hq k hk hcommitted id x hadds m hm hlt hmcommitted
          · rw [List.mem_singleton.mp hm] at hlt
            exact absurd (Int.lt_trans hlt (hlater k hk)) (Int.lt_irrefl _)
        · rw [List.mem_singleton.mp hk] at hcommitted hadds hlt
          rcases List.mem_append.mp hm with hm | hm
          · exact htracked.new_collect hlater hbatch hq hcommitted hadds hm hmcommitted
          · rw [List.mem_singleton.mp hm] at hlt
            exact absurd hlt (Int.lt_irrefl _)

/-- Every event that a committed batch can see in one of its windows is added by a committed
batch, and by one only while nothing is evicted; an event is suppressed only where it was
added before, and so is reported again when no committed batch has added it. -/
theorem logs_counted_once (hhash : Function.Injective hash) (store : Store) (batches : List Batch)
    (hincreasing : Increasing ((Router.process hash settings).run .new batches).2)
    (hserves : Serves store ((Router.process hash settings).run .new batches).2)
    (hsteady : Steady ((Router.process hash settings).run .new batches).2) :
    let log := ((Router.process hash settings).run .new batches).2
    (∀ k ∈ log, k.committed = true → ∀ w ∈ k.windows, ∀ x, store.visible w.moment w.id x →
      w.start ≤ x.time → x.time ≤ w.stop →
        (∃ m ∈ log, m.committed = true ∧ m.Adds w.id x)
        ∧ ((∀ batch ∈ batches, ∀ read ∈ batch.reads, ∀ row ∈ read.rows, row.evicted = none) →
          ∀ m ∈ log, ∀ m' ∈ log, m.committed = true → m'.committed = true → m.Adds w.id x →
            m'.Adds w.id x → m = m'))
    ∧ ∀ k ∈ log, Answered log k := by
  intro log
  obtain ⟨htracked, hanswered, hnew⟩ := run_tracked hhash batches hincreasing hserves id
  refine ⟨fun k hk hcommitted w hw x hvisible hstart hstop => ⟨?_, ?_⟩, hanswered hsteady⟩
  · have hcomplete := htracked.complete k hk hcommitted (hsteady.ids k hk) w hw
    obtain ⟨hrecorded, hfailure⟩ := htracked.whole k hk w hw hcomplete
    have hx : x ∈ w.recorded := by
      rw [hrecorded]
      exact (hserves k hk w hw).2 hfailure x hvisible hstart hstop
    rcases hanswered hsteady k hk w hw x hx with hadded | ⟨m, hm, -, hmcommitted, hadds⟩
    · exact ⟨k, hk, hcommitted, w, hw, rfl, hadded⟩
    · exact ⟨m, hm, hmcommitted, hadds⟩
  · intro hquiet m hm m' hm' hmcommitted hmcommitted' hadds hadds'
    by_contra hne
    -- of two batches one ends first
    have hdistinct : m.stop ≠ m'.stop := by
      intro heq
      exact hne (hincreasing.eq_of_mem hm hm' heq)
    rcases Int.lt_or_gt_of_ne hdistinct with hlt | hlt
    · exact hnew hquiet m' hm' hmcommitted' w.id x hadds' m hm hlt hmcommitted hadds
    · exact hnew hquiet m hm hmcommitted w.id x hadds m' hm' hlt hmcommitted' hadds'

end

/-! ## Two collectors -/

namespace Sample

/-- A digest that tells everything apart. -/
def digest (h : Hashed) : String :=
  Json.quote h.window ++ Json.quote h.scope ++ Json.quote h.text
    ++ (if h.nanos < 0 then "-" else "+") ++ h.nanos.natAbs.repr ++ "n"

theorem digest_injective : Function.Injective digest := by
  intro h k heq
  have htext : ∀ h : Hashed, (digest h).toList = (Json.quote h.window).toList
      ++ ((Json.quote h.scope).toList ++ ((Json.quote h.text).toList
        ++ ((if h.nanos < 0 then '-' else '+') :: (h.nanos.natAbs.repr.toList ++ ['n'])))) := by
    intro h
    rw [digest]
    split <;> simp
  have hlist := congrArg String.toList heq
  rw [htext, htext] at hlist
  obtain ⟨hwindow, hlist⟩ := Json.quote_append_inj hlist
  obtain ⟨hscope, hlist⟩ := Json.quote_append_inj hlist
  obtain ⟨htext, hlist⟩ := Json.quote_append_inj hlist
  obtain ⟨hsign, hlist⟩ := List.cons.inj hlist
  have habs := congrArg (fun l => (Json.number l).1) hlist
  rw [Json.number_append _ (by decide), Json.number_append _ (by decide)] at habs
  have hnanos : h.nanos = k.nanos := by
    split at hsign <;> split at hsign <;> first | omega | cases hsign
  cases h
  cases k
  simp_all

/-- What is in each window, from the start. -/
def storeOf (events : String → List Event) : Store where
  visible _ id x := x ∈ events id
  persists _ h := h

def ServedFrom (events : List Event) (w : WindowReport) : Prop :=
  (∀ x ∈ w.served, x ∈ events)
    ∧ (w.failure = none → ∀ x ∈ events, w.start ≤ x.time → x.time ≤ w.stop → x ∈ w.served)

instance (events : List Event) (w : WindowReport) : Decidable (ServedFrom events w) :=
  inferInstanceAs (Decidable ((∀ x ∈ w.served, x ∈ events)
    ∧ (w.failure = none → ∀ x ∈ events, w.start ≤ x.time → x.time ≤ w.stop → x ∈ w.served)))

theorem serves_storeOf {events : String → List Event} {log : List BatchReport}
    (h : ∀ b ∈ log, ∀ w ∈ b.windows, ServedFrom (events w.id) w) : Serves (storeOf events) log := h

def settings : LogSettings where
  overlap := 120
  span _ := 3600

def crash : Event where
  scope := "api"
  id := some "1"
  message := "ImportError"
  time := -10 * nanosPerSecond

def read (id : String) (events : List Event) (failure : Option TransportError) : Read where
  id := id
  limit := 500
  rows := events.map fun event => { event, evicted := none }
  failure := failure

def batch (second : Int) (reads : List Read) : Batch where
  stop := second * nanosPerSecond
  continuous := true
  room := true
  reads := reads
  others := []
  cancelled := false
  current := true

/-- The windows of a project are always the same. The runtime window fails first. -/
def project : List Batch :=
  [batch 0 [read "errors" [crash] none, read "runtime" [] (some .unavailable)],
    batch 30 [read "errors" [crash] none, read "runtime" [crash] none],
    batch 60 [read "errors" [crash] none, read "runtime" [crash] none]]

/-- Log groups are listed anew for every batch. The one with the event is not listed when
the second batch is. -/
def groups : List Batch :=
  [batch 0 [read "errors/api" [crash] none, read "runtime/api" [] (some .unavailable)],
    batch 30 [read "errors/db" [] none, read "runtime/db" [] none],
    batch 60 [read "errors/api" [crash] none, read "runtime/api" [crash] none,
      read "errors/db" [] none, read "runtime/db" [] none]]

/-- What is in the groups. -/
def listed (id : String) : List Event :=
  if id = "errors/api" ∨ id = "runtime/api" then [crash] else []

end Sample

/-- Every batch of a project reads the same windows. -/
theorem logs_counted_once_project :
    let log := ((Router.process Sample.digest Sample.settings).run .new Sample.project).2
    (∀ k ∈ log, k.committed = true → ∀ w ∈ k.windows, ∀ x ∈ [Sample.crash], w.start ≤ x.time →
      x.time ≤ w.stop → ∃ m ∈ log, m.committed = true ∧ m.Adds w.id x)
    ∧ ∀ k ∈ log, Answered log k := by
  obtain ⟨hcounted, hanswered⟩ := @logs_counted_once Sample.digest Sample.settings
    Sample.digest_injective (Sample.storeOf fun _ => [Sample.crash]) Sample.project
    (by decide +kernel) (Sample.serves_storeOf (by decide +kernel))
    (Steady.of_same (by decide +kernel) (by decide +kernel) (by decide +kernel))
  exact ⟨fun k hk hcommitted w hw x hx hstart hstop =>
    (hcounted k hk hcommitted w hw x hx hstart hstop).1, hanswered⟩

/-- The second batch moves the cursor past the stamp of an event that no committed batch has
added, and the third suppresses it. -/
theorem groups_lose_event :
    let log := ((Router.process Sample.digest Sample.settings).run .new Sample.groups).2
    Increasing log ∧ Serves (Sample.storeOf Sample.listed) log
      ∧ ∃ k ∈ log, k.committed = true ∧ ∃ w ∈ k.windows,
        (Sample.storeOf Sample.listed).visible w.moment w.id Sample.crash
          ∧ w.start ≤ Sample.crash.time ∧ Sample.crash.time ≤ w.stop
          ∧ ∀ m ∈ log, m.committed = true → ¬m.Adds w.id Sample.crash := by
  intro log
  refine ⟨by decide +kernel, Sample.serves_storeOf (by decide +kernel), ?_⟩
  have hlost : ∃ k ∈ log, k.committed = true ∧ ∃ w ∈ k.windows, Sample.crash ∈ Sample.listed w.id
      ∧ w.start ≤ Sample.crash.time ∧ Sample.crash.time ≤ w.stop
      ∧ ∀ m ∈ log, m.committed = true → ¬m.Adds w.id Sample.crash := by
    decide +kernel
  exact hlost

end HealthMonitor.Providers
