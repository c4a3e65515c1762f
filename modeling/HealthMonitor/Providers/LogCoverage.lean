import HealthMonitor.Core.PartialResults
import HealthMonitor.Core.Runs
import HealthMonitor.Providers.LogResult

/-!
# LogCoverage

Which instants of a log have been read once the cursor has passed them. The batches of a
target go on from the cursor; a reload forgets it, and a restart takes it from the results
of the snapshot, which may be those of any earlier batch.
-/

namespace HealthMonitor.Providers

open Integrations

/-- The windows that have been read, each with the cursor its batch started from, and the
results, of which a snapshot may hold any. -/
structure Logs where
  settings : LogSettings
  router : Router
  read : List (Option Time × WindowReport)
  archive : List CheckResult

inductive LogStep where
  | batch (c : Collection)
  | reload (settings : LogSettings)
  | restart (settings : LogSettings) (results : List CheckResult)

/-! ## Instants -/

namespace WindowReport

def Holds (w : WindowReport) (time : Time) : Prop :=
  w.start ≤ time ∧ time ≤ w.stop

/-- The instant lies in the interval that the window reports as missing, whose whole seconds
it counts. -/
def Reports (w : WindowReport) (time : Time) : Prop :=
  0 < w.gapSeconds ∧ time < w.start ∧ w.start < time + (w.gapSeconds + 1) * nanosPerSecond

/-- An interval of less than a second before the window is not reported. -/
def Slips (w : WindowReport) (time : Time) : Prop :=
  time < w.start ∧ w.start < time + nanosPerSecond

end WindowReport

/-- From the start of a window that was read without a cursor, every instant up to that time
is in a window that was read to the end, or shortly before one. -/
def Covered (id : String) (read : List (Option Time × WindowReport)) (time : Time) : Prop :=
  ∃ origin, (none, origin) ∈ read ∧ origin.id = id ∧ origin.complete = true
    ∧ origin.stop ≤ time
    ∧ ∀ t, origin.start ≤ t → t ≤ time →
      ∃ entry ∈ read, entry.2.id = id ∧ entry.2.complete = true
        ∧ (entry.2.Holds t ∨ entry.2.Reports t ∨ entry.2.Slips t)

theorem Covered.mono {id : String} {read later : List (Option Time × WindowReport)} {time : Time}
    (h : Covered id read time) (hsubset : read ⊆ later) : Covered id later time := by
  obtain ⟨origin, horigin, hid, hcomplete, hstop, hall⟩ := h
  refine ⟨origin, hsubset horigin, hid, hcomplete, hstop, fun t hfrom hto => ?_⟩
  obtain ⟨entry, hentry, hshown⟩ := hall t hfrom hto
  exact ⟨entry, hsubset hentry, hshown⟩

/-! ## One batch -/

section

variable {hash : Hashed → String} {settings : LogSettings} {batch : Batch}
  {logStart : Option Time} {dedupe : Option (Table Time)}

theorem readAll_ids (moment : Nat) (reads : List Read) :
    (Router.readAll hash settings batch logStart dedupe moment reads).1.map (fun w => w.id)
      = reads.map fun read => read.id := by
  induction reads generalizing dedupe moment with
  | nil => rfl
  | cons read reads ih =>
      rw [Router.readAll, List.map_cons, List.map_cons, ih]
      rfl

/-- Where the windows of a batch lie. -/
theorem readAll_window (moment : Nat) {reads : List Read} {w : WindowReport}
    (h : w ∈ (Router.readAll hash settings batch logStart dedupe moment reads).1) :
    w.start = Window.startOf settings.overlap (settings.span w.id) logStart batch.stop
      ∧ w.stop = batch.stop
      ∧ ∀ time ∈ logStart, w.gapSeconds
        = max (numSeconds (batch.stop - settings.span w.id * nanosPerSecond) time) 0 := by
  induction reads generalizing dedupe moment with
  | nil => cases h
  | cons read reads ih =>
      rw [Router.readAll] at h
      rcases List.mem_cons.mp h with rfl | h
      · refine ⟨rfl, rfl, fun time htime => ?_⟩
        cases htime
        rfl
      · exact ih _ h

/-- A result that counts as complete has no window that failed. -/
theorem logsComplete_all {windows : List WindowReport} {others : List (String × Coverage)}
    (h : logsComplete windows (others ++ windows.flatMap WindowReport.operations) = true)
    (hids : ∀ w ∈ windows, ∀ v ∈ windows, v.id ≠ w.id ++ "/missing-window")
    {w : WindowReport} (hw : w ∈ windows) : w.complete = true := by
  simp only [logsComplete, Bool.and_eq_true, List.all_eq_true] at h
  have hlisted : (w.id, w.coverage) ∈ others ++ windows.flatMap WindowReport.operations := by
    apply List.mem_append_right
    rw [List.mem_flatMap]
    exact ⟨w, hw, by simp [WindowReport.operations]⟩
  have hoperation := h.2 _ hlisted
  rw [Bool.or_eq_true] at hoperation
  rcases hoperation with hcomplete | hmissing
  · rw [decide_eq_true_eq, WindowReport.coverage] at hcomplete
    rw [WindowReport.complete]
    cases houtcome : w.outcome with
    | none => rfl
    | some error =>
        rw [houtcome] at hcomplete
        cases error <;> cases hcomplete
  · rw [Bool.and_eq_true, List.any_eq_true] at hmissing
    obtain ⟨v, hv, heq⟩ := hmissing.2
    simp only [Bool.and_eq_true, decide_eq_true_eq] at heq
    exact absurd heq.1.1 (hids v hv w hw)

/-- The whole seconds of an interval, and one more, are longer than it is. -/
theorem lt_numSeconds {now since : Int} (h : since < now) :
    0 ≤ numSeconds now since ∧ now < since + (numSeconds now since + 1) * nanosPerSecond := by
  have hpos : 0 ≤ now - since := by omega
  rw [numSeconds, nanosPerSecond, Int.tdiv_eq_ediv_of_nonneg hpos]
  omega

/-- A window that starts after the cursor starts as late as its span allows. -/
theorem startOf_late {overlap span : Nat} {time stop : Int}
    (h : time < Window.startOf overlap span (some time) stop) :
    Window.startOf overlap span (some time) stop = stop - span * nanosPerSecond := by
  have hoverlap : time - (overlap : Int) * nanosPerSecond ≤ time := by
    rw [nanosPerSecond]
    omega
  rw [Window.startOf, Int.max_def] at h ⊢
  split at h
  · exact absurd (Int.lt_of_lt_of_le h hoverlap) (Int.lt_irrefl _)
  · next hfull => exact if_neg hfull

/-- The gap of a window that starts after the cursor reaches back to the cursor. -/
theorem window_after {w : WindowReport} {time t : Int}
    (hstart : w.start
      = Window.startOf settings.overlap (settings.span w.id) (some time) batch.stop)
    (hgap : w.gapSeconds
      = max (numSeconds (batch.stop - settings.span w.id * nanosPerSecond) time) 0)
    (hafter : time < t) (hbefore : t < w.start) : w.Reports t ∨ w.Slips t := by
  have hlate : time < w.start := Int.lt_trans hafter hbefore
  have hfull : w.start = batch.stop - settings.span w.id * nanosPerSecond := by
    rw [hstart] at hlate ⊢
    exact startOf_late hlate
  rw [← hfull] at hgap
  obtain ⟨hnonneg, hlong⟩ := lt_numSeconds hlate
  rw [Int.max_eq_left hnonneg] at hgap
  rw [← hgap, nanosPerSecond] at hlong
  by_cases hreported : 0 < w.gapSeconds
  · refine .inl ⟨hreported, hbefore, ?_⟩
    rw [nanosPerSecond]
    exact Int.lt_trans hlong (Int.add_lt_add_right hafter _)
  · have hzero : w.gapSeconds = 0 := Int.le_antisymm (Int.not_lt.mp hreported) (hgap ▸ hnonneg)
    rw [hzero, Int.zero_add, Int.one_mul] at hlong
    refine .inr ⟨hbefore, ?_⟩
    rw [nanosPerSecond]
    exact Int.lt_trans hlong (Int.add_lt_add_right hafter _)

/-- A window that is read to the end continues what was covered up to the cursor. -/
theorem covered_window {id : String} {read : List (Option Time × WindowReport)} (moment : Nat)
    {reads : List Read} (hcursor : ∀ time ∈ logStart, time ≤ batch.stop ∧ Covered id read time)
    {w : WindowReport}
    (hw : w ∈ (Router.readAll hash settings batch logStart dedupe moment reads).1)
    (hid : w.id = id) (hcomplete : w.complete = true) :
    Covered id
      (read ++ (Router.readAll hash settings batch logStart dedupe moment reads).1.map
        (logStart, ·)) batch.stop := by
  obtain ⟨hstart, hstop, hgap⟩ := readAll_window moment hw
  have hentry : (logStart, w) ∈ read
      ++ (Router.readAll hash settings batch logStart dedupe moment reads).1.map (logStart, ·) :=
    List.mem_append_right _ (List.mem_map_of_mem hw)
  cases logStart with
  | none =>
      refine ⟨w, hentry, hid, hcomplete, Int.le_of_eq hstop, fun t hfrom hto => ?_⟩
      exact ⟨_, hentry, hid, hcomplete, .inl ⟨hfrom, hstop ▸ hto⟩⟩
  | some time =>
      obtain ⟨hbefore, hcovered⟩ := hcursor time rfl
      obtain ⟨origin, horigin, hid', hcomplete', hstop', hall⟩ :=
        hcovered.mono (List.subset_append_left read _)
      refine ⟨origin, horigin, hid', hcomplete', Int.le_trans hstop' hbefore,
        fun t hfrom hto => ?_⟩
      by_cases hreached : t ≤ time
      · exact hall t hfrom hreached
      · refine ⟨_, hentry, hid, hcomplete, ?_⟩
        by_cases hinside : w.start ≤ t
        · exact .inl ⟨hinside, hstop ▸ hto⟩
        · exact .inr (window_after hstart (hgap time rfl) (Int.lt_of_not_ge hreached)
            (Int.lt_of_not_ge hinside))

end

/-! ## Clearing findings -/

/-- A clearing observation is made from a window that replaces its finding. -/
theorem collect_replaces {job : Job} {previous : Option CheckResult} {result : CheckResult}
    {findings : List Finding} {clears : List Observation} {obs : Observation}
    (h : obs ∈ LogRecovery.collect job previous result clears findings) :
    obs ∈ clears ∨ ∃ finding ∈ findings, ∃ window ∈ result.observations,
      LogRecovery.replaces result finding window = true
        ∧ obs = LogRecovery.clearing previous finding window := by
  induction findings generalizing clears with
  | nil => exact .inl h
  | cons finding rest ih =>
      have hrest : ∀ {clears : List Observation},
          obs ∈ LogRecovery.collect job previous result clears rest →
          obs ∈ clears ∨ ∃ f ∈ finding :: rest, ∃ window ∈ result.observations,
            LogRecovery.replaces result f window = true
              ∧ obs = LogRecovery.clearing previous f window := by
        intro clears h
        rcases ih h with h | ⟨f, hf, hwindow⟩
        · exact .inl h
        · exact .inr ⟨f, List.mem_cons_of_mem _ hf, hwindow⟩
      rw [LogRecovery.collect] at h
      split at h
      · exact hrest h
      · split at h
        · exact hrest h
        · next window hfind =>
            split at h
            · exact .inl h
            · rcases hrest h with h | h
              · rcases List.mem_append.mp h with h | h
                · exact .inl h
                · refine .inr ⟨finding, List.mem_cons_self, window, ?_, ?_, ?_⟩
                  · exact List.mem_of_find?_eq_some hfind
                  · exact List.find?_some hfind
                  · exact List.mem_singleton.mp h
              · exact .inr h

/-- A window that replaces a finding is complete and has no gap. -/
theorem replaces_summary {result : CheckResult} {finding : Finding} {window : Observation}
    (h : LogRecovery.replaces result finding window = true) :
    finding.evidence.contains window.operation = true
      ∧ ∃ w, WindowSummary.of? window = some w ∧ w.id = window.operation ∧ w.complete = true
        ∧ w.gapSeconds = 0 ∧ finding.observedAt < w.stop := by
  rw [LogRecovery.replaces, Bool.and_eq_true, Bool.and_eq_true] at h
  obtain ⟨⟨hevidence, hdata⟩, -⟩ := h
  refine ⟨hevidence, ?_⟩
  cases hkind : window.data
  case logWindow w =>
    rw [hkind] at hdata
    simp only [Bool.and_eq_true, beq_iff_eq, decide_eq_true_eq] at hdata
    refine ⟨⟨window.operation, w.gapSeconds, w.stop, w.complete⟩, ?_, rfl, hdata.1.1,
      hdata.1.2, hdata.2⟩
    rw [WindowSummary.of?, hkind]
  all_goals
    rw [hkind] at hdata
    cases hdata

/-! ## Runs -/

namespace Logs

variable (hash : Hashed → String) (job : Job)

def new (settings : LogSettings) : Logs where
  settings := settings
  router := .new
  read := []
  archive := []

/-- What a batch reads. -/
def reports (s : Logs) (c : Collection) : List WindowReport :=
  (s.router.collect hash s.settings c.batch).2.windows

def step (s : Logs) : LogStep → Logs
  | .batch c =>
      { s with
        router := (s.router.collect hash s.settings c.batch).1
        read := s.read ++ (s.reports hash c).map (s.router.logStart c.batch, ·)
        archive := s.archive ++ [resultOf hash s.settings job s.router c] }
  | .reload settings =>
      { s with settings, router := { s.router with cursor := none, dedupe := none } }
  | .restart settings results =>
      let cursor := (LogCursor.restore results)[job.target.name]?
      { s with settings, router := { s.router with cursor, dedupe := none } }

/-- Every batch reads the window, no window has the name of another's missing interval, and
the clock is not behind the cursor. What a snapshot holds for the logs of the target and
still counts as complete has the windows of a complete result of a batch. -/
def Admits (id : String) (s : Logs) : LogStep → Prop
  | .batch c =>
      (∃ read ∈ c.batch.reads, read.id = id)
        ∧ (∀ read ∈ c.batch.reads, ∀ other ∈ c.batch.reads,
          other.id ≠ read.id ++ "/missing-window")
        ∧ ∀ time ∈ s.router.cursor, time ≤ c.batch.stop
  | .reload _ => True
  | .restart _ results =>
      ∀ r ∈ results, r.check = .logs → r.target = job.target.name → LogCursor.complete r = true →
        ∃ stored ∈ s.archive, LogCursor.complete stored = true ∧ r.windows = stored.windows

/-- The states of the logs of a target. -/
inductive Run (id : String) : Logs → Prop
  | new (settings : LogSettings) : Run id (.new settings)
  | step {s : Logs} {event : LogStep} (h : Run id s) (hadmits : s.Admits job id event) :
      Run id (s.step hash job event)

/-- The cursor, and the ends of all complete results, have been covered. -/
structure Sound (id : String) (s : Logs) : Prop where
  cursor : ∀ time ∈ s.router.cursor, Covered id s.read time
  archive : ∀ r ∈ s.archive, LogCursor.complete r = true →
    ∃ stop, (∀ w ∈ r.windows, w.stop = stop) ∧ Covered id s.read stop

variable {hash job} {id : String} {s : Logs} {c : Collection}

/-- Results that only expiry has changed are admitted. -/
theorem Admits.restart {settings : LogSettings} {results : List CheckResult}
    (h : ∀ r ∈ results, ∃ stored ∈ s.archive, Dimmed stored r) :
    s.Admits job id (.restart settings results) := by
  intro r hr _ _ hcomplete
  obtain ⟨stored, hstored, hdimmed⟩ := h r hr
  exact ⟨stored, hstored, LogCursor.Dimmed.complete hdimmed hcomplete,
    LogCursor.Dimmed.windows hdimmed⟩

theorem Sound.logStart (h : s.Sound id) (hadmits : s.Admits job id (.batch c)) :
    ∀ time ∈ s.router.logStart c.batch, time ≤ c.batch.stop ∧ Covered id s.read time := by
  intro time htime
  rw [Router.logStart] at htime
  split at htime
  · exact ⟨hadmits.2.2 time htime, h.cursor time htime⟩
  · cases htime

theorem Sound.window (h : s.Sound id) (hadmits : s.Admits job id (.batch c))
    {w : WindowReport} (hw : w ∈ s.reports hash c) (hid : w.id = id)
    (hcomplete : w.complete = true) :
    Covered id (s.step hash job (.batch c)).read c.batch.stop :=
  covered_window _ (h.logStart hadmits) hw hid hcomplete

theorem Admits.ids (hadmits : s.Admits job id (.batch c)) :
    ∀ w ∈ s.reports hash c, ∀ v ∈ s.reports hash c, v.id ≠ w.id ++ "/missing-window" := by
  intro w hw v hv
  have hread : ∀ v ∈ s.reports hash c, ∃ read ∈ c.batch.reads, read.id = v.id := by
    intro v hv
    have hmem := List.mem_map_of_mem (f := fun w => w.id) hv
    rw [reports, Router.collect, readAll_ids] at hmem
    obtain ⟨read, hread, hid⟩ := List.mem_map.mp hmem
    exact ⟨read, hread, hid⟩
  obtain ⟨read, hreadw, hidw⟩ := hread w hw
  obtain ⟨read', hreadv, hidv⟩ := hread v hv
  rw [← hidw, ← hidv]
  exact hadmits.2.1 read hreadw read' hreadv

theorem Admits.read (hadmits : s.Admits job id (.batch c)) :
    ∃ w ∈ s.reports hash c, w.id = id := by
  obtain ⟨read, hread, hid⟩ := hadmits.1
  have hmem := List.mem_map_of_mem (f := fun read : Read => read.id) hread
  rw [← @readAll_ids hash s.settings c.batch (s.router.logStart c.batch)
    (s.router.cache c.batch) s.router.moment] at hmem
  obtain ⟨w, hw, heq⟩ := List.mem_map.mp hmem
  exact ⟨w, hw, heq.trans hid⟩

/-- A batch whose result is complete reaches its end. -/
theorem Sound.complete (h : s.Sound id) (hadmits : s.Admits job id (.batch c))
    (hcomplete : logsComplete (s.reports hash c)
      (c.batch.others ++ (s.reports hash c).flatMap WindowReport.operations) = true) :
    Covered id (s.step hash job (.batch c)).read c.batch.stop := by
  obtain ⟨w, hw, hid⟩ := @Admits.read hash job id s c hadmits
  exact h.window hadmits hw hid (logsComplete_all hcomplete hadmits.ids hw)

theorem Sound.batch (h : s.Sound id) (hadmits : s.Admits job id (.batch c)) :
    (s.step hash job (.batch c)).Sound id := by
  have hkept : s.read ⊆ (s.step hash job (.batch c)).read := List.subset_append_left _ _
  constructor
  · intro time htime
    change time ∈ (s.router.collect hash s.settings c.batch).1.cursor at htime
    rw [Tracked.cursor_collect] at htime
    split at htime
    · next hcommitted =>
        cases htime
        apply h.complete hadmits
        simp only [Router.collect, Bool.and_eq_true] at hcommitted
        exact hcommitted.2.2
    · exact (h.cursor time htime).mono hkept
  · intro r hr hcomplete
    rcases List.mem_append.mp hr with hr | hr
    · obtain ⟨stop, hstops, hcovered⟩ := h.archive r hr hcomplete
      exact ⟨stop, hstops, hcovered.mono hkept⟩
    · cases List.mem_singleton.mp hr
      rw [complete_resultOf, Bool.and_eq_true, Bool.not_eq_true'] at hcomplete
      refine ⟨c.batch.stop, ?_, h.complete hadmits hcomplete.2⟩
      intro w hw
      rw [(resultOf_report s.router hcomplete.1).1] at hw
      obtain ⟨report, hreport, rfl⟩ := List.mem_map.mp hw
      exact (readAll_window _ hreport).2.1

theorem Sound.step (h : s.Sound id) {event : LogStep} (hadmits : s.Admits job id event) :
    (s.step hash job event).Sound id := by
  cases event with
  | batch c => exact h.batch hadmits
  | reload settings =>
      refine ⟨fun time htime => ?_, h.archive⟩
      cases htime
  | restart settings results =>
      refine ⟨fun time htime => ?_, h.archive⟩
      obtain ⟨r, hr, hcheck, htarget, hcomplete, hend⟩ := LogCursor.restore_some htime
      obtain ⟨stored, hstored, hwhole, hwindows⟩ := hadmits r hr hcheck htarget hcomplete
      obtain ⟨stop, hstops, hcovered⟩ := h.archive stored hstored hwhole
      -- all windows of the stored result end together
      obtain ⟨w, hw, heq⟩ := List.mem_map.mp (List.min?_mem hend)
      rw [hwindows] at hw
      rw [← heq, hstops w (List.mem_of_mem_filter hw)]
      exact hcovered

theorem sound_of_run (h : Run hash job id s) : s.Sound id := by
  induction h with
  | new settings =>
      constructor
      · intro time htime
        cases htime
      · intro r hr
        cases hr
  | step _ hadmits ih => exact ih.step hadmits

/-- **The cursor has left nothing out.** However batches failed, and whatever reloads and
restarts came between, every instant up to the cursor, from the start of a window that was
read without one, lies in a window that was read to the end, in an interval reported as
missing, or less than a second before a window. -/
theorem logs_covered (h : Run hash job id s) {time : Time} (hcursor : s.router.cursor = some time) :
    Covered id s.read time :=
  (sound_of_run h).cursor time hcursor

/-- **A failure is cleared by what was read.** An observation that clears a log finding, in
the result of a batch or in that result with what it retains of the stored one, belongs to a
window that ends after the finding was seen, was read to the end and reports nothing
missing; and up to its end nothing has been left out. -/
theorem cleared_covered (h : Run hash job id s) (hadmits : s.Admits job id (.batch c))
    {host : Host} {snapshot : Snapshot} {result : CheckResult}
    (hresult : result = resultOf hash s.settings job s.router c
      ∨ result = PartialResults.retain host job snapshot
        (resultOf hash s.settings job s.router c))
    {obs : Observation} (hobs : obs ∈ (LogRecovery.reconcile job snapshot result).observations)
    (hnew : obs ∉ result.observations) (hid : obs.operation = id) :
    ∃ (key : String) (finding : Finding), snapshot.findings[key]? = some finding
      ∧ obs.resource = finding.resource ∧ finding.evidence.contains id = true
      ∧ ∃ w ∈ s.reports hash c, w.id = id ∧ w.complete = true ∧ w.gapSeconds ≤ 0
        ∧ finding.observedAt < w.stop
        ∧ Covered id (s.step hash job (.batch c)).read w.stop := by
  rw [LogRecovery.reconcile] at hobs
  split at hobs
  · exact absurd hobs hnew
  · rcases List.mem_append.mp hobs with hobs | hobs
    · exact absurd hobs hnew
    · rcases collect_replaces hobs with hobs | ⟨finding, hfinding, window, hwindow, hreplaces, rfl⟩
      · cases hobs
      · obtain ⟨⟨key, finding⟩, hmem, rfl⟩ := List.mem_map.mp hfinding
        obtain ⟨hevidence, summary, hsummary, hop, hcomplete, hgap, hafter⟩ :=
          replaces_summary hreplaces
        have hbacks : result.backs window = true := by
          rw [LogRecovery.replaces, Bool.and_eq_true] at hreplaces
          exact hreplaces.2
        have hread : window ∈ (resultOf hash s.settings job s.router c).observations := by
          rcases hresult with rfl | rfl
          · exact hwindow
          · exact PartialResults.mem_of_backs hwindow hbacks
        have hlisted : summary ∈ (resultOf hash s.settings job s.router c).windows :=
          List.mem_filterMap.mpr ⟨window, hread, hsummary⟩
        have hcancelled : c.batch.cancelled = false := by
          cases h : c.batch.cancelled with
          | false => rfl
          | true =>
              rw [resultOf, if_pos h] at hlisted
              cases hlisted
        rw [(resultOf_report s.router hcancelled).1] at hlisted
        obtain ⟨w, hw, rfl⟩ := List.mem_map.mp hlisted
        have hwid : w.id = id := by
          rw [← hid]
          exact hop
        refine ⟨key, finding, Table.mem_toList.mp hmem, rfl, hid ▸ hevidence, w, hw, hwid,
          hcomplete, ?_, hafter, ?_⟩
        · exact Int.toNat_eq_zero.mp hgap
        · rw [(readAll_window _ hw).2.1]
          exact (sound_of_run h).window hadmits hw hwid hcomplete

end Logs

/-! ## An outage -/

namespace Outage

def job : Job := HealthMonitor.Sample.job .logs

def collection (second : Int) (events : List Event) : Collection where
  batch := Sample.batch second [Sample.read "errors" events none]
  begun := base job 0
  groups _ _ := []
  pages _ := 1
  clock := second * nanosPerSecond
  others := rfl
  unread := rfl

def first : Logs := (Logs.new Sample.settings).step Sample.digest job
  (.batch (collection 0 [Sample.crash]))

/-- The monitor comes back after two hours, and its windows cover one. -/
def after : Logs :=
  (first.step Sample.digest job (.restart Sample.settings first.archive)).step Sample.digest job
    (.batch (collection 7200 []))

theorem run : Logs.Run Sample.digest job "errors" after := by
  apply Logs.Run.step
  · apply Logs.Run.step
    · apply Logs.Run.step
      · exact Logs.Run.new _
      · exact ⟨by decide, by decide, by decide⟩
    · exact Logs.Admits.restart fun r hr => ⟨r, hr, Dimmed.refl r⟩
  · refine ⟨by decide, by decide, ?_⟩
    have hrestored : (first.step Sample.digest job
        (.restart Sample.settings first.archive)).router.cursor = some 0 := by
      decide +kernel
    rw [hrestored]
    decide

def host : Host where
  observationJson := fun _ => 200
  observationSize := 200
  operationSize := 100
  previousOccurrence := fun _ _ _ => none

/-- What the first batch found. -/
def failure : Finding where
  diagnostic := none
  check := some .logs
  id := "app/errors/crash:runtime-failure-sample"
  resource := "app/errors/crash"
  rule := "runtime-failure-sample"
  severity := .error
  evidence := ["errors"]
  observedAt := nanosPerSecond
  expected := .active
  confidence := .direct
  stale := false
  clearCount := 0
  validUntil := none

def snapshot : Snapshot :=
  { HealthMonitor.Sample.start with findings := (∅ : Table Finding).insert failure.id failure }

end Outage

theorem Logs.logs_covered_outage :
    Outage.after.router.cursor = some (7200 * nanosPerSecond)
      ∧ (∃ entry ∈ Outage.after.read, entry.2.gapSeconds = 3600)
      ∧ Covered "errors" Outage.after.read (7200 * nanosPerSecond) := by
  have hcursor : Outage.after.router.cursor = some (7200 * nanosPerSecond) := by
    decide +kernel
  exact ⟨hcursor, by decide +kernel, Logs.logs_covered Outage.run hcursor⟩

/-- A minute later the failure does not occur any more. -/
theorem Logs.cleared_covered_failure :
    ∃ obs ∈ (LogRecovery.reconcile Outage.job Outage.snapshot
        (PartialResults.retain Outage.host Outage.job Outage.snapshot
          (resultOf Sample.digest Sample.settings Outage.job Outage.first.router
            (Outage.collection 60 [])))).observations,
      obs.resource = Outage.failure.resource
        ∧ ∃ w ∈ Outage.first.reports Sample.digest (Outage.collection 60 []),
          Outage.failure.observedAt < w.stop
          ∧ Covered "errors" (Outage.first.step Sample.digest Outage.job
            (.batch (Outage.collection 60 []))).read w.stop := by
  have hcleared : ∃ obs ∈ (LogRecovery.reconcile Outage.job Outage.snapshot
      (PartialResults.retain Outage.host Outage.job Outage.snapshot
        (resultOf Sample.digest Sample.settings Outage.job Outage.first.router
          (Outage.collection 60 [])))).observations,
      obs ∉ (PartialResults.retain Outage.host Outage.job Outage.snapshot
        (resultOf Sample.digest Sample.settings Outage.job Outage.first.router
          (Outage.collection 60 []))).observations ∧ obs.operation = "errors" := by
    decide +kernel
  obtain ⟨obs, hobs, hnew, hid⟩ := hcleared
  have hrun : Logs.Run Sample.digest Outage.job "errors" Outage.first := by
    apply Logs.Run.step
    · exact Logs.Run.new _
    · exact ⟨by decide, by decide, by decide⟩
  have hadmits : Outage.first.Admits Outage.job "errors" (.batch (Outage.collection 60 [])) := by
    refine ⟨by decide, by decide, ?_⟩
    have hcursor : Outage.first.router.cursor = some 0 := by decide +kernel
    rw [hcursor]
    decide
  obtain ⟨key, finding, hfinding, hresource, -, w, hw, -, -, -, hafter, hcovered⟩ :=
    Logs.cleared_covered hrun hadmits (.inr rfl) hobs hnew hid
  have hkey : finding = Outage.failure := by
    rw [Outage.snapshot, Std.ExtTreeMap.getElem?_insert] at hfinding
    split at hfinding
    · exact (Option.some.inj hfinding).symm
    · simp at hfinding
  rw [hkey] at hresource hafter
  exact ⟨obs, hobs, hresource, w, hw, hafter, hcovered⟩

end HealthMonitor.Providers
