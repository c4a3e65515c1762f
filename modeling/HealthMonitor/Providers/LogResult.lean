import HealthMonitor.Core.Silence
import HealthMonitor.Providers.Endpoint
import HealthMonitor.Providers.LogBatches

/-!
# LogResult

The result of a log batch, and what is read off a stored one: whether its windows were read
to the end, and from where the cursors go on after a restart. What the groups of a window
say, and what a collector reports besides its windows, come from the environment.
-/

namespace HealthMonitor

/-! ## Windows of a result -/

/-- What the cursors read of a window. -/
structure WindowSummary where
  id : String
  gapSeconds : Nat
  stop : Time
  complete : Bool
  deriving DecidableEq, Repr

def WindowSummary.of? (obs : Observation) : Option WindowSummary :=
  match obs.data with
  | .logWindow window =>
      some
        { id := obs.operation
          gapSeconds := window.gapSeconds
          stop := window.stop
          complete := window.complete }
  | _ => none

def CheckResult.windows (result : CheckResult) : List WindowSummary :=
  result.observations.filterMap WindowSummary.of?

namespace LogCursor

/-- The operation is that of an interval which a complete window reports as missing. -/
def accounted (windows : List WindowSummary) (id : String) : Bool :=
  windows.any fun w => id == w.id ++ "/missing-window" && w.complete && decide (0 < w.gapSeconds)

/-- `log_cursor::complete`. -/
def complete (result : CheckResult) : Bool :=
  (result.windows.any fun w => w.complete)
    && result.operations.all fun op =>
      op.coverage == .complete || op.coverage == .missing && accounted result.windows op.id

/-- The end of the first of the complete windows. -/
def endOf (result : CheckResult) : Option Time :=
  ((result.windows.filter fun w => w.complete).map fun w => w.stop).min?

/-- `Router::restore_logs`, from the results of the snapshot in the order of their keys. -/
def restore (results : List CheckResult) : Table Time :=
  ((results.filter fun r => r.check == .logs && complete r).take 128).foldl
    (fun cursors r =>
      match endOf r with
      | none => cursors
      | some stop =>
          -- `insert_async` keeps an entry that is there
          if cursors.contains r.target then cursors else cursors.insert r.target stop)
    ∅

/-- Where a cursor is restored from. -/
theorem restore_some {results : List CheckResult} {target : String} {time : Time}
    (h : (restore results)[target]? = some time) :
    ∃ r ∈ results, r.check = .logs ∧ r.target = target ∧ complete r = true
      ∧ endOf r = some time := by
  have hall : ∀ (rest : List CheckResult) (cursors : Table Time),
      (rest.foldl (fun cursors r =>
        match endOf r with
        | none => cursors
        | some stop =>
            if cursors.contains r.target then cursors else cursors.insert r.target stop)
        cursors)[target]? = some time →
      cursors[target]? = some time ∨ ∃ r ∈ rest, r.target = target ∧ endOf r = some time := by
    intro rest
    induction rest with
    | nil => exact fun cursors h => .inl h
    | cons r rest ih =>
        intro cursors h
        rw [List.foldl_cons] at h
        rcases ih _ h with hfound | ⟨r', hr', hlater⟩
        · cases hstop : endOf r with
          | none =>
              rw [hstop] at hfound
              exact .inl hfound
          | some stop =>
              rw [hstop] at hfound
              dsimp only at hfound
              split at hfound
              · exact .inl hfound
              · rw [Std.ExtTreeMap.getElem?_insert] at hfound
                split at hfound
                · next heq =>
                    have htarget : r.target = target := by simpa using heq
                    cases hfound
                    exact .inr ⟨r, List.mem_cons_self, htarget, hstop⟩
                · exact .inl hfound
        · exact .inr ⟨r', List.mem_cons_of_mem _ hr', hlater⟩
  rcases hall _ ∅ h with hempty | ⟨r, hr, htarget, hstop⟩
  · simp at hempty
  · have hmem := List.mem_of_mem_take hr
    rw [List.mem_filter, Bool.and_eq_true, beq_iff_eq] at hmem
    exact ⟨r, hmem.1, hmem.2.1, htarget, hmem.2.2, hstop⟩

/-- Expiry leaves the windows of a stored result as they are, and no result becomes complete
by it. -/
theorem Dimmed.windows {before after : CheckResult} (h : Dimmed before after) :
    after.windows = before.windows := by
  obtain ⟨p, rfl⟩ := h
  rfl

theorem Dimmed.complete {before after : CheckResult} (h : Dimmed before after)
    (hcomplete : LogCursor.complete after = true) : LogCursor.complete before = true := by
  have hwindows := Dimmed.windows h
  obtain ⟨p, rfl⟩ := h
  rw [LogCursor.complete, hwindows, Bool.and_eq_true, List.all_eq_true] at hcomplete
  rw [LogCursor.complete, Bool.and_eq_true, List.all_eq_true]
  refine ⟨hcomplete.1, fun op hop => ?_⟩
  have hlower := hcomplete.2 _ (List.mem_map_of_mem hop)
  by_cases hkeep : (op.coverage == .complete) = true
  · rw [hkeep, Bool.true_or]
  · simpa [hkeep] using hlower

end LogCursor

namespace Providers

open Integrations

/-! ## The result of a batch -/

/-- `projection::observation`, without its context and the expectations of selectors. The
names of its callers here have no other characters than `identity` keeps. -/
def windowObservation (job : Job) (w : Window) (complete : Bool) : Observation where
  resource := job.target.name ++ "/" ++ w.id ++ "/window"
  operation := w.id
  observedAt := w.stop
  expected := job.target.expected
  data := .logWindow
    { gapSeconds := w.gapSeconds.toNat
      start := w.start
      stop := w.stop
      scanned := w.scanned
      duplicates := w.duplicates
      limit := w.limit
      complete }

/-- What a collector adds to the windows of a batch: the result they are added to, with the
operations besides those of the windows; the observations that the groups of a window make,
the pages it was read from, and the clock. What the result was begun with has no windows. -/
structure Collection where
  batch : Batch
  begun : CheckResult
  groups : List Event → Bool → List (String × Log)
  pages : String → Nat
  clock : Time
  others : begun.operations.map (fun op => (op.id, op.coverage)) = batch.others
  unread : begun.windows = []

/-- The observation of one group of a window. -/
def logObservation (job : Job) (id : String) (clock : Time) (group : String × Log) :
    Observation where
  resource := job.target.name ++ "/" ++ id ++ "/" ++ group.1
  operation := id
  observedAt := clock
  expected := job.target.expected
  data := .log group.2

/-- `Window::finish`. Whether there is a cache is what the collector was handed. -/
def finish (job : Job) (c : Collection) (cached : Bool) (w : Window)
    (failure : Option TransportError) (result : CheckResult) : CheckResult :=
  let outcome := if c.batch.continuous && !cached && failure.isNone then some .limit else failure
  { result with
    observations := result.observations
      ++ (c.groups w.groups outcome.isSome).map (logObservation job w.id c.clock)
      ++ [windowObservation job w outcome.isNone]
    operations := result.operations
      ++ (if 0 < w.gapSeconds then
          [operation (w.id ++ "/missing-window") (.error .missing) 0 job.settings.required c.clock]
        else [])
      ++ [operation w.id
          (match outcome with
            | none => .ok w.scanned
            | some error => .error error)
          (c.pages w.id) job.settings.required c.clock] }

/-- The windows of a batch, read one after the other. -/
def finishAll (hash : Hashed → String) (settings : LogSettings) (job : Job) (c : Collection)
    (logStart : Option Time) (dedupe : Option (Table Time)) (result : CheckResult) :
    List Read → CheckResult
  | [] => result
  | read :: reads =>
      let w := Window.new settings.overlap read.id (settings.span read.id) read.limit logStart
        c.batch.stop
      let ended := w.recordAll hash dedupe read.rows
      finishAll hash settings job c logStart ended.1.2
        (finish job c dedupe.isSome ended.1.1 (ended.2.or read.failure) result) reads

/-- `Router::collect` as the scheduler sees it. -/
def resultOf (hash : Hashed → String) (settings : LogSettings) (job : Job) (s : Router)
    (c : Collection) : CheckResult :=
  if c.batch.cancelled then .failure job.target.name job.check job.revision .cancelled c.clock
  else
    finishAll hash settings job c (s.logStart c.batch) (s.cache c.batch) c.begun c.batch.reads

/-! ## The result and the report -/

def WindowReport.summary (w : WindowReport) : WindowSummary where
  id := w.id
  gapSeconds := w.gapSeconds.toNat
  stop := w.stop
  complete := w.complete

section

variable {hash : Hashed → String} {settings : LogSettings} {job : Job} {c : Collection}
  {logStart : Option Time} {dedupe : Option (Table Time)}

/-- A window keeps its name, its ends and its gap while it records. -/
theorem recordAll_window {w : Window} {rows : List Row} :
    let ended := w.recordAll hash dedupe rows
    ended.1.1.id = w.id ∧ ended.1.1.start = w.start ∧ ended.1.1.stop = w.stop
      ∧ ended.1.1.gapSeconds = w.gapSeconds := by
  induction rows generalizing w dedupe with
  | nil => exact ⟨rfl, rfl, rfl, rfl⟩
  | cons row rows ih =>
      have hone : ∀ {next : (Window × Option (Table Time)) × Option TransportError},
          w.record hash dedupe row = next →
          next.1.1.id = w.id ∧ next.1.1.start = w.start ∧ next.1.1.stop = w.stop
            ∧ next.1.1.gapSeconds = w.gapSeconds := by
        rintro next rfl
        unfold Window.record
        dsimp only
        split
        · exact ⟨rfl, rfl, rfl, rfl⟩
        · split
          · exact ⟨rfl, rfl, rfl, rfl⟩
          · split
            · exact ⟨rfl, rfl, rfl, rfl⟩
            · split <;> exact ⟨rfl, rfl, rfl, rfl⟩
      dsimp only
      rw [Window.recordAll]
      split
      · next next hrecord =>
          obtain ⟨hid, hstart, hstop, hgap⟩ := hone hrecord
          obtain ⟨hid', hstart', hstop', hgap'⟩ := @ih next.2 next.1
          exact ⟨hid'.trans hid, hstart'.trans hstart, hstop'.trans hstop, hgap'.trans hgap⟩
      · next next error hrecord => exact hone hrecord

theorem windows_append (result : CheckResult) (observations : List Observation)
    (operations : List Operation) :
    ({ result with
      observations := result.observations ++ observations
      operations := result.operations ++ operations } : CheckResult).windows
      = result.windows ++ observations.filterMap WindowSummary.of? :=
  List.filterMap_append

/-- One window in the result and in the report. -/
theorem finish_report (moment : Nat) (read : Read) (result : CheckResult) :
    let w := Window.new settings.overlap read.id (settings.span read.id) read.limit logStart
      c.batch.stop
    let ended := w.recordAll hash dedupe read.rows
    let report := (Router.readWindow hash settings c.batch logStart dedupe moment read).1
    let after := finish job c dedupe.isSome ended.1.1 (ended.2.or read.failure) result
    after.windows = result.windows ++ [report.summary]
      ∧ after.operations.map (fun op => (op.id, op.coverage))
        = result.operations.map (fun op => (op.id, op.coverage)) ++ report.operations := by
  obtain ⟨hid, -, hstop, hgap⟩ := @recordAll_window hash dedupe
    (Window.new settings.overlap read.id (settings.span read.id) read.limit logStart c.batch.stop)
    read.rows
  dsimp only at hid hstop hgap ⊢
  rw [Router.readWindow]
  revert hid hstop hgap
  generalize (Window.new settings.overlap read.id (settings.span read.id) read.limit logStart
    c.batch.stop).recordAll hash dedupe read.rows = ended
  intro hid hstop hgap
  have hlogs : ∀ groups : List (String × Log),
      (groups.map (logObservation job ended.1.1.id c.clock)).filterMap WindowSummary.of? = [] := by
    intro groups
    rw [List.filterMap_eq_nil_iff]
    intro obs hobs
    obtain ⟨group, -, rfl⟩ := List.mem_map.mp hobs
    rfl
  have hnone : dedupe.isNone = !dedupe.isSome := by cases dedupe <;> rfl
  constructor
  · rw [finish]
    dsimp only
    rw [List.append_assoc, List.append_assoc, windows_append, List.filterMap_append, hlogs,
      List.nil_append]
    simp only [List.filterMap_cons, List.filterMap_nil, windowObservation, WindowSummary.of?,
      WindowReport.summary, WindowReport.complete, hid, hstop, hgap, hnone]
    rfl
  · rw [finish]
    dsimp only
    rw [List.append_assoc, List.map_append, WindowReport.operations, hid, hgap]
    congr 1
    rw [List.map_append]
    congr 1
    · show List.map _ (if 0 < (Window.new settings.overlap read.id (settings.span read.id)
        read.limit logStart c.batch.stop).gapSeconds then _ else _) = _
      split <;> rfl
    · simp only [List.map_cons, List.map_nil, WindowReport.coverage, operation, hnone]
      cases h : (if c.batch.continuous && !dedupe.isSome && (ended.2.or read.failure).isNone then
        some TransportError.limit else ended.2.or read.failure) <;> rfl

/-- The result of a batch holds the windows and the operations of its report. -/
theorem finishAll_report (moment : Nat) {reads : List Read} (result : CheckResult) :
    let report := (Router.readAll hash settings c.batch logStart dedupe moment reads).1
    let after := finishAll hash settings job c logStart dedupe result reads
    after.windows = result.windows ++ report.map WindowReport.summary
      ∧ after.operations.map (fun op => (op.id, op.coverage))
        = result.operations.map (fun op => (op.id, op.coverage))
          ++ report.flatMap WindowReport.operations := by
  induction reads generalizing dedupe moment result with
  | nil => exact ⟨(List.append_nil _).symm, (List.append_nil _).symm⟩
  | cons read reads ih =>
      obtain ⟨hwindows, hoperations⟩ :=
        @finish_report hash settings job c logStart dedupe moment read result
      dsimp only at hwindows hoperations ih ⊢
      rw [finishAll, Router.readAll]
      dsimp only
      obtain ⟨hrest, hrest'⟩ := @ih
        (Router.readWindow hash settings c.batch logStart dedupe moment read).2 (moment + 1)
        (finish job c dedupe.isSome
          ((Window.new settings.overlap read.id (settings.span read.id) read.limit logStart
            c.batch.stop).recordAll hash dedupe read.rows).1.1
          (((Window.new settings.overlap read.id (settings.span read.id) read.limit logStart
            c.batch.stop).recordAll hash dedupe read.rows).2.or read.failure) result)
      constructor
      · rw [List.map_cons, ← List.singleton_append, ← List.append_assoc, ← hwindows]
        exact hrest
      · rw [List.flatMap_cons, ← List.append_assoc, ← hoperations]
        exact hrest'

theorem resultOf_report (s : Router) (h : c.batch.cancelled = false) :
    (resultOf hash settings job s c).windows
        = (s.collect hash settings c.batch).2.windows.map WindowReport.summary
      ∧ (resultOf hash settings job s c).operations.map (fun op => (op.id, op.coverage))
        = c.batch.others
          ++ (s.collect hash settings c.batch).2.windows.flatMap WindowReport.operations := by
  obtain ⟨hwindows, hoperations⟩ := @finishAll_report hash settings job c
    (s.logStart c.batch) (s.cache c.batch) s.moment c.batch.reads c.begun
  rw [c.unread, List.nil_append] at hwindows
  rw [c.others] at hoperations
  rw [resultOf, if_neg (by rw [h]; decide)]
  exact ⟨hwindows, hoperations⟩

/-- What the result shows and what the cursor goes by are the same. -/
theorem complete_resultOf (s : Router) :
    LogCursor.complete (resultOf hash settings job s c)
      = (!c.batch.cancelled
        && logsComplete (s.collect hash settings c.batch).2.windows
          (c.batch.others
            ++ (s.collect hash settings c.batch).2.windows.flatMap WindowReport.operations)) := by
  cases hcancelled : c.batch.cancelled with
  | true =>
      rw [resultOf, if_pos hcancelled]
      rfl
  | false =>
      obtain ⟨hwindows, hoperations⟩ := @resultOf_report hash settings job c s hcancelled
      rw [Bool.not_false, Bool.true_and, ← hoperations, LogCursor.complete, hwindows,
        logsComplete, List.any_map, List.all_map]
      congr 1
      congr 1
      funext op
      show (_ || _ && LogCursor.accounted _ op.id) = _
      rw [LogCursor.accounted, List.any_map]
      simp only [Function.comp_def, WindowReport.summary, Bool.beq_eq_decide_eq, Int.lt_toNat,
        Bool.and_assoc]
      rfl

end

end Providers

end HealthMonitor
