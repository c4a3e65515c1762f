import HealthMonitor.History.Journal
import HealthMonitor.Library.Entries

/-!
# Accounting

What has become of every record submitted to the journal, and what covers every loss.
Each measure is a sum over the places a record, a batch or a count can be in, so a step
only has to show what it moves from one place to another. The counts agree as long as
no more losses of a kind were counted than a gap can hold.
-/

namespace HealthMonitor.History

open Entries

variable {α : Type}

/-! ## Measures -/

/-- The records a submission still holds. After a failed send they are counted as
dropped. -/
def Submission.items (x : Submission α) : List (Item α) :=
  if x.stage = .leaving then [] else x.rest ++ x.batch.items

/-- A submission sends only what it has filled, and checks the pending counters only for
an empty batch. -/
structure Submission.Sound (x : Submission α) : Prop where
  filled : x.stage ≠ .filling → x.rest = []
  checking : x.stage = .checkingEvents ∨ x.stage = .checkingRuns → x.batch.items = []
  gaps : x.batch.gaps = []

/-- The records in flight. -/
def Worker.items : Worker α → List (Item α)
  | .takingEvents batch => batch.items
  | .takingRuns batch _ => batch.items
  | .writing batch => batch.items
  | _ => []

/-- The gaps in flight. -/
def Worker.gaps : Worker α → List Gap
  | .takingEvents batch => batch.gaps
  | .takingRuns batch _ => batch.gaps
  | .writing batch => batch.gaps
  | _ => []

/-- The batches the worker holds. -/
def Worker.batches : Worker α → Nat
  | .takingEvents _ => 1
  | .takingRuns .. => 1
  | .writing _ => 1
  | .rejecting .. => 1
  | .finishing => 1
  | .dropping => 1
  | _ => 0

/-- The counter updates the worker has still to make. -/
def Worker.updates : Worker α → List Update
  | .rejecting _ updates => updates
  | _ => []

/-- The counts taken from the pending counters but not yet in a gap. -/
def Worker.taken (kind : Kind) : Worker α → Nat
  | .takingRuns _ events => if kind = .events then events else 0
  | _ => 0

/-- The worker has neither returned nor is about to. -/
def Worker.Running : Worker α → Prop
  | .rejecting batch _ => batch.isEmpty = false
  | .dropping => False
  | .closing => False
  | .draining => False
  | .exited => False
  | _ => True

/-- What an update adds to the loss counter of a kind. -/
def Update.counts (kind : Kind) : Update → Nat
  | .drop k amount => if k = kind then amount else 0
  | _ => 0

/-- What an update adds to the pending counter of a kind. -/
def Update.covers (kind : Kind) : Update → Nat
  | .drop .. => 0
  | .pend k amount => if k = kind then amount else 0
  | .restore k amount => if k = kind then amount else 0

namespace State

/-- What the submissions and the worker have still to add. -/
def owed (f : Update → Nat) (s : State α) : Nat :=
  total (fun x => total f x.updates) s.submissions + total f s.worker.updates

/-- No counter is about to be updated. -/
def Settled (s : State α) : Prop :=
  (∀ x ∈ s.submissions, x.updates = []) ∧ s.worker.updates = []

/-- No more losses of a kind were counted than a gap can hold. -/
def Fits (s : State α) : Prop :=
  ∀ kind, losses kind s.dropped ≤ i64Max

/-- Where the records and the losses are. -/
structure Accounted (s : State α) : Prop where
  classes : ∀ p : Item α → Bool, s.submitted.countP p
    = s.persisted.countP p + s.dropped.countP p + s.abandoned.countP p
      + total (fun b => b.items.countP p) s.queue + s.worker.items.countP p
      + total (fun x => x.items.countP p) s.submissions
  outstanding : s.status.outstanding
    = (s.submissions.length + s.queue.length + s.worker.batches : Nat)
  counted : ∀ kind, min (s.status.dropped kind + s.owed (Update.counts kind)) u64Max
    = min (losses kind s.dropped) u64Max
  bounded : ∀ kind, s.status.dropped kind ≤ u64Max
  covered : s.Fits → ∀ kind, s.status.pending kind + s.owed (Update.covers kind)
      + s.worker.taken kind + gapLosses kind s.worker.gaps + gapLosses kind s.persistedGaps
      + gapLosses kind s.rejectedGaps + gapLosses kind s.abandonedGaps
    = losses kind s.dropped
  plain : ∀ b ∈ s.queue, b.gaps = []
  sound : ∀ x ∈ s.submissions, x.Sound
  running : s.worker.Running →
    s.abandoned = [] ∧ s.rejectedGaps = [] ∧ s.abandonedGaps = []

end State

/-! ## Losses -/

@[simp] theorem losses_nil (kind : Kind) : losses kind ([] : List (Item α)) = 0 := rfl

@[simp] theorem losses_append (kind : Kind) (l m : List (Item α)) :
    losses kind (l ++ m) = losses kind l + losses kind m :=
  List.countP_append

@[simp] theorem gapLosses_nil (kind : Kind) : gapLosses kind [] = 0 := rfl

@[simp] theorem gapLosses_append (kind : Kind) (l m : List Gap) :
    gapLosses kind (l ++ m) = gapLosses kind l + gapLosses kind m := by
  simp [gapLosses]

/-- A dropped item is counted once. -/
theorem counts_item (kind : Kind) (item : Item α) :
    total (Update.counts kind) item.dropUpdates = losses kind [item] := by
  cases item <;> cases kind <;> rfl

theorem covers_item (kind : Kind) (item : Item α) :
    total (Update.covers kind) item.dropUpdates = losses kind [item] := by
  cases item <;> cases kind <;> rfl

theorem losses_items (kind : Kind) (batch : Batch α) :
    losses kind batch.items = match kind with
      | .events => batch.events.length + batch.records.length
      | .runs => batch.runs.length := by
  have hmap : ∀ (f : α → Item α) (l : List α),
      losses kind (l.map f) = l.countP fun a => (f a).kind = kind := by
    intro f l
    rw [losses, List.countP_map]
    rfl
  rw [Batch.items, losses_append, losses_append, hmap, hmap, hmap]
  cases kind <;> simp [Item.kind]

/-- Each item of a dropped batch is counted once. -/
theorem counts_batch (kind : Kind) (batch : Batch α) :
    total (Update.counts kind) batch.dropUpdates = losses kind batch.items := by
  rw [losses_items]
  cases kind <;> simp [Batch.dropUpdates, dropRecords, Update.counts]

theorem covers_batch (kind : Kind) (batch : Batch α) :
    total (Update.covers kind) batch.dropUpdates = losses kind batch.items := by
  rw [losses_items]
  cases kind <;> simp [Batch.dropUpdates, dropRecords, Update.covers]

/-- Restoring the counts of gaps covers what the gaps did. -/
theorem covers_restore (kind : Kind) (gaps : List Gap) :
    total (Update.covers kind) (gaps.flatMap Gap.restoreUpdates) = gapLosses kind gaps := by
  induction gaps with
  | nil => rfl
  | cons gap gaps ih =>
      rw [List.flatMap_cons, total_append, ih, gapLosses, gapLosses, List.map_cons,
        List.sum_cons]
      cases kind <;> simp [Gap.restoreUpdates, Update.covers]

theorem counts_restore (kind : Kind) (gaps : List Gap) :
    total (Update.counts kind) (gaps.flatMap Gap.restoreUpdates) = 0 := by
  refine total_eq_zero fun update hupdate => ?_
  obtain ⟨gap, _, hmem⟩ := List.mem_flatMap.mp hupdate
  simp only [Gap.restoreUpdates, List.mem_cons, List.not_mem_nil, or_false] at hmem
  rcases hmem with rfl | rfl <;> rfl

/-- As long as both counts fit, a gap holds exactly what was taken. -/
theorem gapLosses_addGap {batch : Batch α} {time : Time} {events runs : Nat}
    (hevents : events ≤ i64Max) (hruns : runs ≤ i64Max) (kind : Kind) :
    gapLosses kind (batch.addGap time events runs).gaps
      = gapLosses kind batch.gaps + match kind with | .events => events | .runs => runs := by
  unfold Batch.addGap Gap.new
  by_cases hzero : events ≠ 0 ∨ runs ≠ 0
  · rw [if_pos hzero, if_pos ⟨hevents, hruns⟩]
    cases kind <;> simp [gapLosses]
  · rw [if_neg hzero]
    rw [not_or, not_not, not_not] at hzero
    cases kind <;> simp [hzero.1, hzero.2]

@[simp] theorem items_addGap (batch : Batch α) (time : Time) (events runs : Nat) :
    (batch.addGap time events runs).items = batch.items := by
  unfold Batch.addGap
  split
  · split <;> rfl
  · rfl

theorem push_items (batch : Batch α) (item : Item α) (p : Item α → Bool) :
    (batch.push item).items.countP p = batch.items.countP p + [item].countP p := by
  cases item <;>
    simp only [Batch.push, Batch.items, List.map_append, List.map_cons, List.map_nil,
      List.countP_append] <;> omega

@[simp] theorem push_gaps (batch : Batch α) (item : Item α) :
    (batch.push item).gaps = batch.gaps := by
  cases item <;> rfl

theorem items_of_isEmpty {batch : Batch α} (h : batch.isEmpty = true) : batch.items = [] := by
  obtain ⟨revision, runs, events, records, gaps⟩ := batch
  simp only [Batch.isEmpty, Bool.and_eq_true, List.isEmpty_iff] at h
  obtain ⟨⟨rfl, rfl⟩, rfl⟩ := h
  rfl

/-! ## Counter updates -/

/-- Saturation is all that a loss counter forgets. -/
theorem apply_counted (status : Status) (update : Update) (kind : Kind) (rest : Nat) :
    min ((status.apply update).dropped kind + rest) u64Max
      = min (status.dropped kind + (Update.counts kind update + rest)) u64Max := by
  cases update with
  | drop k amount =>
      by_cases hk : k = kind
      · subst hk
        simp only [Status.apply, Function.update_self, Update.counts, if_pos, saturatingAdd]
        omega
      · simp [Status.apply, Update.counts, hk, Function.update_of_ne (Ne.symm hk)]
  | pend k amount => simp [Status.apply, Update.counts]
  | restore k amount => simp [Status.apply, Update.counts]

/-- Within the bound a pending counter neither saturates nor wraps. -/
theorem apply_covered {status : Status} {update : Update} {kind : Kind}
    (h : status.pending kind + Update.covers kind update ≤ i64Max) :
    (status.apply update).pending kind = status.pending kind + Update.covers kind update := by
  have hmax : i64Max < u64Max := by decide
  have hword : u64Max < 2 ^ 64 := by decide
  cases update with
  | drop k amount => simp [Status.apply, Update.covers]
  | pend k amount =>
      by_cases hk : k = kind
      · subst hk
        simp only [Update.covers, if_pos] at h
        simp only [Status.apply, Function.update_self, Update.covers, if_pos, saturatingAdd]
        omega
      · simp [Status.apply, Update.covers, hk, Function.update_of_ne (Ne.symm hk)]
  | restore k amount =>
      by_cases hk : k = kind
      · subst hk
        simp only [Update.covers, if_pos] at h
        simp only [Status.apply, Function.update_self, Update.covers, if_pos]
        exact Nat.mod_eq_of_lt (by omega)
      · simp [Status.apply, Update.covers, hk, Function.update_of_ne (Ne.symm hk)]

theorem apply_bounded {status : Status} (h : ∀ kind, status.dropped kind ≤ u64Max)
    (update : Update) (kind : Kind) : (status.apply update).dropped kind ≤ u64Max := by
  cases update with
  | drop k amount =>
      by_cases hk : k = kind
      · subst hk
        simp only [Status.apply, Function.update_self, saturatingAdd]
        omega
      · simpa [Status.apply, Function.update_of_ne (Ne.symm hk)] using h kind
  | pend k amount => exact h kind
  | restore k amount => exact h kind

@[simp] theorem apply_outstanding (status : Status) (update : Update) :
    (status.apply update).outstanding = status.outstanding := by
  cases update <;> rfl

/-! ## Steps -/

namespace State

variable {s : State α}

theorem Accounted.start : Accounted (start : State α) where
  classes p := rfl
  outstanding := rfl
  counted kind := rfl
  bounded kind := Nat.zero_le _
  covered _ kind := rfl
  plain := by simp [State.start]
  sound := by simp [State.start]
  running _ := ⟨rfl, rfl, rfl⟩

/-- A submission makes its next counter update. -/
theorem Accounted.update (h : Accounted s) {i : Nat} {x : Submission α}
    (hx : s.submissions[i]? = some x) {u : Update} {us : List Update}
    (hupdates : x.updates = u :: us) :
    Accounted { s with
      status := s.status.apply u
      submissions := s.submissions.set i { x with updates := us } } where
  classes p := by
    have hset := total_set (fun x => x.items.countP p) hx { x with updates := us }
    have := h.classes p
    simp only [Submission.items] at hset this ⊢
    omega
  outstanding := by
    rw [apply_outstanding, List.length_set]
    exact h.outstanding
  counted kind := by
    have hset := total_set (fun x => total (Update.counts kind) x.updates) hx
      { x with updates := us }
    have := h.counted kind
    dsimp only at hset
    rw [hupdates, total_cons] at hset
    simp only [owed] at this ⊢
    rw [apply_counted, ← this]
    congr 2
    omega
  bounded := apply_bounded h.bounded u
  covered hfits kind := by
    have hset := total_set (fun x => total (Update.covers kind) x.updates) hx
      { x with updates := us }
    have := h.covered hfits kind
    have hle : losses kind s.dropped ≤ i64Max := hfits kind
    dsimp only at hset
    rw [hupdates, total_cons] at hset
    simp only [owed] at this ⊢
    rw [apply_covered (by omega)]
    omega
  plain := h.plain
  sound y hy := by
    rcases List.mem_or_eq_of_mem_set hy with hy | rfl
    · exact h.sound y hy
    · obtain ⟨hfilled, hchecking, hgaps⟩ := h.sound x (List.mem_of_getElem? hx)
      exact ⟨hfilled, hchecking, hgaps⟩
  running := h.running

/-- A submission moves on. What it no longer holds is dropped, and still has to be
counted. -/
theorem Accounted.replace (h : Accounted s) {i : Nat} {x y : Submission α}
    (hx : s.submissions[i]? = some x) (moved : List (Item α))
    (hitems : ∀ p : Item α → Bool,
      x.items.countP p = y.items.countP p + moved.countP p)
    (hcounts : ∀ kind, total (Update.counts kind) y.updates
      = total (Update.counts kind) x.updates + losses kind moved)
    (hcovers : ∀ kind, total (Update.covers kind) y.updates
      = total (Update.covers kind) x.updates + losses kind moved)
    (hsound : y.Sound) :
    Accounted { s with
      dropped := s.dropped ++ moved
      submissions := s.submissions.set i y } where
  classes p := by
    have hset := total_set (fun x => x.items.countP p) hx y
    have := h.classes p
    have := hitems p
    simp only [List.countP_append]
    omega
  outstanding := by
    rw [List.length_set]
    exact h.outstanding
  counted kind := by
    have hset := total_set (fun x => total (Update.counts kind) x.updates) hx y
    have := h.counted kind
    have := hcounts kind
    simp only [owed, losses_append] at *
    omega
  bounded := h.bounded
  covered hfits kind := by
    have hset := total_set (fun x => total (Update.covers kind) x.updates) hx y
    have hfits' : s.Fits := fun k => by
      have := hfits k
      simp only [losses_append] at this
      omega
    have := h.covered hfits' kind
    have := hcovers kind
    simp only [owed, losses_append] at *
    omega
  plain := h.plain
  sound z hz := by
    rcases List.mem_or_eq_of_mem_set hz with hz | rfl
    · exact h.sound z hz
    · exact hsound
  running := h.running

/-- A submission that has nothing left to count ends; its batch goes into the queue or
is dropped. -/
theorem Accounted.finish (h : Accounted s) {i : Nat} {x : Submission α}
    (hx : s.submissions[i]? = some x) (hupdates : x.updates = []) {queue : List (Batch α)}
    {status : Status} (hitems : ∀ p : Item α → Bool,
      total (fun b => b.items.countP p) queue
        = total (fun b => b.items.countP p) s.queue + x.items.countP p)
    (houtstanding : status.outstanding + s.queue.length + 1
      = s.status.outstanding + queue.length)
    (hdropped : status.dropped = s.status.dropped)
    (hpending : status.pending = s.status.pending) (hplain : ∀ b ∈ queue, b.gaps = []) :
    Accounted { s with
      status := status
      queue := queue
      submissions := s.submissions.eraseIdx i } where
  classes p := by
    have herase := total_eraseIdx (fun x => x.items.countP p) hx
    have := h.classes p
    have := hitems p
    dsimp only at *
    omega
  outstanding := by
    obtain ⟨hi, _⟩ := List.getElem?_eq_some_iff.mp hx
    have := h.outstanding
    rw [List.length_eraseIdx, if_pos hi]
    dsimp only
    omega
  counted kind := by
    have herase := total_eraseIdx (fun x => total (Update.counts kind) x.updates) hx
    have := h.counted kind
    simp only [owed, hupdates, total_nil, hdropped] at *
    omega
  bounded kind := hdropped ▸ h.bounded kind
  covered hfits kind := by
    have herase := total_eraseIdx (fun x => total (Update.covers kind) x.updates) hx
    have := h.covered hfits kind
    simp only [owed, hupdates, total_nil, hpending] at *
    omega
  plain := hplain
  sound y hy := h.sound y (List.mem_of_mem_eraseIdx hy)
  running := h.running

/-- A submission begins. -/
theorem Accounted.submit (h : Accounted s) (capacity : Nat) (revision : String)
    (runs events records : List α) :
    Accounted (s.step capacity (.submit revision runs events records)) where
  classes p := by
    have := h.classes p
    simp only [step, List.countP_append, total_append, total_cons, total_nil,
      Submission.items, reduceCtorEq, if_false, Batch.items, List.map_nil, List.append_nil] at *
    simp only [enter]
    omega
  outstanding := by
    have := h.outstanding
    simp only [step, enter, List.length_append, List.length_cons, List.length_nil]
    omega
  counted kind := by
    have := h.counted kind
    simp only [step, owed, total_append, total_cons, total_nil, enter] at *
    omega
  bounded := h.bounded
  covered hfits kind := by
    have := h.covered hfits kind
    simp only [step, owed, total_append, total_cons, total_nil, enter] at *
    omega
  plain := h.plain
  sound x hx := by
    rcases List.mem_append.mp hx with hx | hx
    · exact h.sound x hx
    · rw [List.mem_singleton] at hx
      rw [hx]
      exact ⟨fun hstage => absurd rfl hstage, by simp, rfl⟩
  running := h.running

/-! ## Steps of the worker -/

/-- The worker goes somewhere else with what it holds; fields no measure reads may
change with it. -/
theorem Accounted.shift (h : Accounted s) {w : Worker α} {lastRevision : Option String}
    {closed stopped : Bool} {flush : Flush}
    (hitems : w.items = s.worker.items) (hbatches : w.batches = s.worker.batches)
    (hupdates : w.updates = s.worker.updates)
    (htaken : ∀ kind, w.taken kind = s.worker.taken kind) (hgaps : w.gaps = s.worker.gaps)
    (hrunning : w.Running → s.worker.Running) :
    Accounted { s with
      worker := w
      lastRevision := lastRevision
      closed := closed
      stopped := stopped
      flush := flush } where
  classes p := by
    have := h.classes p
    rw [← hitems] at this
    exact this
  outstanding := by
    have := h.outstanding
    rw [← hbatches] at this
    exact this
  counted kind := by
    have := h.counted kind
    simp only [owed, ← hupdates] at this ⊢
    exact this
  bounded := h.bounded
  covered hfits kind := by
    have := h.covered hfits kind
    simp only [owed, ← hupdates, ← htaken, ← hgaps] at this ⊢
    exact this
  plain := h.plain
  sound := h.sound
  running hrun := h.running (hrunning hrun)

/-- The worker makes a batch of its own, or takes one from the queue. -/
theorem Accounted.acquire (h : Accounted s)
    (hw : s.worker = .waiting ∨ ∃ r, s.worker = .creating r)
    {batch : Batch α} {queue : List (Batch α)} {outstanding : Int}
    (hitems : ∀ p : Item α → Bool, total (fun b => b.items.countP p) s.queue
      = total (fun b => b.items.countP p) queue + batch.items.countP p)
    (houtstanding : outstanding + s.queue.length = s.status.outstanding + queue.length + 1)
    (hgaps : batch.gaps = []) (hplain : ∀ b ∈ queue, b.gaps = []) :
    Accounted { s with
      status := { s.status with outstanding := outstanding }
      queue := queue
      worker := .takingEvents batch } := by
  have hmeasures : s.worker.items = [] ∧ s.worker.batches = 0 ∧ s.worker.updates = []
      ∧ (∀ kind, s.worker.taken kind = 0) ∧ s.worker.gaps = [] ∧ s.worker.Running := by
    rcases hw with hw | ⟨r, hw⟩ <;> rw [hw] <;>
      exact ⟨rfl, rfl, rfl, fun _ => rfl, rfl, trivial⟩
  obtain ⟨hheld, hbatches, hupdates, htaken, hnone, hrun⟩ := hmeasures
  refine ⟨fun p => ?_, ?_, fun kind => ?_, h.bounded, fun hfits kind => ?_, hplain, h.sound,
    fun _ => h.running hrun⟩
  · have := h.classes p
    have := hitems p
    rw [hheld, List.countP_nil] at *
    simp only [Worker.items]
    omega
  · have := h.outstanding
    rw [hbatches] at this
    simp only [Worker.batches]
    omega
  · have := h.counted kind
    simp only [owed, hupdates, total_nil] at this
    simp only [owed, Worker.updates, total_nil]
    exact this
  · have := h.covered hfits kind
    simp only [owed, hupdates, total_nil, htaken, hnone, gapLosses_nil] at this
    simp only [owed, Worker.updates, total_nil, Worker.taken, Worker.gaps, hgaps,
      gapLosses_nil]
    exact this

/-- The pending events are taken into the hands of the worker. -/
theorem Accounted.takeEvents (h : Accounted s) {batch : Batch α}
    (hw : s.worker = .takingEvents batch) (lastRevision : Option String) :
    Accounted { s with
      lastRevision := lastRevision
      status := { s.status with pending := Function.update s.status.pending .events 0 }
      worker := .takingRuns batch (s.status.pending .events) } := by
  have hrun : s.worker.Running := by
    rw [hw]
    trivial
  refine ⟨fun p => ?_, ?_, fun kind => ?_, h.bounded, fun hfits kind => ?_, h.plain, h.sound,
    fun _ => h.running hrun⟩
  · have := h.classes p
    rw [hw] at this
    exact this
  · have := h.outstanding
    rw [hw] at this
    exact this
  · have := h.counted kind
    simp only [owed, hw] at this ⊢
    exact this
  · have := h.covered hfits kind
    simp only [owed, hw, Worker.updates, Worker.taken, Worker.gaps] at this ⊢
    cases kind
    · rw [Function.update_self, if_pos rfl]
      omega
    · rw [Function.update_of_ne (by decide), if_neg (by decide)]
      omega

/-- The pending runs follow, and both counts become a gap. -/
theorem Accounted.takeRuns (h : Accounted s) {batch : Batch α} {events : Nat}
    (hw : s.worker = .takingRuns batch events) (time : Time) :
    Accounted { s with
      status := { s.status with pending := Function.update s.status.pending .runs 0 }
      worker := .writing (batch.addGap time events (s.status.pending .runs)) } := by
  have hrun : s.worker.Running := by
    rw [hw]
    trivial
  refine ⟨fun p => ?_, ?_, fun kind => ?_, h.bounded, fun hfits kind => ?_, h.plain, h.sound,
    fun _ => h.running hrun⟩
  · have := h.classes p
    simp only [hw, Worker.items, items_addGap] at this ⊢
    exact this
  · have := h.outstanding
    rw [hw] at this
    exact this
  · have := h.counted kind
    simp only [owed, hw] at this ⊢
    exact this
  · have hcovered := h.covered hfits
    simp only [owed, hw, Worker.updates, Worker.taken, Worker.gaps] at hcovered ⊢
    have hevents : events ≤ i64Max := by
      have hall := hcovered .events
      rw [if_pos rfl] at hall
      have hle : losses .events s.dropped ≤ i64Max := hfits .events
      omega
    have hruns : s.status.pending .runs ≤ i64Max := by
      have hall := hcovered .runs
      have hle : losses .runs s.dropped ≤ i64Max := hfits .runs
      omega
    rw [gapLosses_addGap hevents hruns]
    have := hcovered kind
    cases kind
    · rw [Function.update_of_ne (by decide)]
      rw [if_pos rfl] at this
      dsimp only
      omega
    · rw [Function.update_self]
      rw [if_neg (by decide)] at this
      dsimp only
      omega

/-- The write succeeds. -/
theorem Accounted.wrote (h : Accounted s) {batch : Batch α} (hw : s.worker = .writing batch) :
    Accounted { s with
      persisted := s.persisted ++ batch.items
      persistedGaps := s.persistedGaps ++ batch.gaps
      worker := .finishing } := by
  have hrun : s.worker.Running := by
    rw [hw]
    trivial
  refine ⟨fun p => ?_, ?_, fun kind => ?_, h.bounded, fun hfits kind => ?_, h.plain, h.sound,
    fun _ => h.running hrun⟩
  · have := h.classes p
    simp only [hw, Worker.items, List.countP_append, List.countP_nil] at this ⊢
    omega
  · have := h.outstanding
    rw [hw] at this
    exact this
  · have := h.counted kind
    simp only [owed, hw] at this ⊢
    exact this
  · have := h.covered hfits kind
    simp only [owed, hw, Worker.updates, Worker.taken, Worker.gaps, gapLosses_append,
      gapLosses_nil] at this ⊢
    omega

/-- The write is rejected: the records are dropped, and the counts of the gap restored
unless it was all the batch held. -/
theorem Accounted.reject (h : Accounted s) {batch : Batch α}
    (hw : s.worker = .writing batch) :
    Accounted { s with
      dropped := s.dropped ++ batch.items
      rejectedGaps := s.rejectedGaps ++ if batch.isEmpty then batch.gaps else []
      worker := .rejecting batch (batch.dropUpdates
        ++ if batch.isEmpty then [] else batch.gaps.flatMap Gap.restoreUpdates) } := by
  have hrun : s.worker.Running := by
    rw [hw]
    trivial
  obtain ⟨habandoned, hrejected, hgaps⟩ := h.running hrun
  refine ⟨fun p => ?_, ?_, fun kind => ?_, h.bounded, fun hfits kind => ?_, h.plain, h.sound,
    fun hrunning => ?_⟩
  · have := h.classes p
    simp only [hw, Worker.items, List.countP_append, List.countP_nil] at this ⊢
    omega
  · have := h.outstanding
    rw [hw] at this
    exact this
  · have := h.counted kind
    simp only [owed, hw, Worker.updates, total_nil, total_append, counts_batch,
      losses_append] at this ⊢
    have hrestore : total (Update.counts kind)
        (if batch.isEmpty then [] else batch.gaps.flatMap Gap.restoreUpdates) = 0 := by
      split
      · rfl
      · exact counts_restore kind batch.gaps
    omega
  · have hfits' : s.Fits := fun k => by
      have := hfits k
      simp only [losses_append] at this
      omega
    have := h.covered hfits' kind
    simp only [owed, hw, Worker.updates, Worker.taken, Worker.gaps, total_nil, total_append,
      covers_batch, losses_append, gapLosses_append, gapLosses_nil] at this ⊢
    cases batch.isEmpty with
    | true =>
        simp only [if_true, total_nil]
        omega
    | false =>
        simp only [Bool.false_eq_true, if_false, covers_restore, gapLosses_nil]
        omega
  · have hfull : batch.isEmpty = false := hrunning
    rw [hfull]
    exact ⟨habandoned, by rw [hrejected]; rfl, hgaps⟩

/-- The worker makes its next counter update. -/
theorem Accounted.settle (h : Accounted s) {batch : Batch α} {u : Update} {us : List Update}
    (hw : s.worker = .rejecting batch (u :: us)) :
    Accounted { s with
      status := s.status.apply u
      worker := .rejecting batch us } := by
  refine ⟨fun p => ?_, ?_, fun kind => ?_, apply_bounded h.bounded u,
    fun hfits kind => ?_, h.plain, h.sound, fun hrunning => ?_⟩
  · have := h.classes p
    rw [hw] at this
    exact this
  · have := h.outstanding
    rw [hw] at this
    rw [apply_outstanding]
    exact this
  · have := h.counted kind
    simp only [owed, hw, Worker.updates, total_cons] at this ⊢
    rw [apply_counted, ← this]
    congr 2
    omega
  · have := h.covered hfits kind
    have hle : losses kind s.dropped ≤ i64Max := hfits kind
    simp only [owed, hw, Worker.updates, Worker.taken, Worker.gaps, total_cons] at this ⊢
    rw [apply_covered (by omega)]
    omega
  · refine h.running ?_
    rw [hw]
    exact hrunning

/-- The worker drops a batch whose records it no longer holds. -/
theorem Accounted.release (h : Accounted s) {w : Worker α}
    (hw : s.worker = .finishing ∧ w = .head ∨ s.worker = .dropping ∧ w = .closing) :
    Accounted { s.leave with worker := w } := by
  rcases hw with ⟨hw, rfl⟩ | ⟨hw, rfl⟩
  all_goals
    refine ⟨fun p => ?_, ?_, fun kind => ?_, h.bounded, fun hfits kind => ?_, h.plain, h.sound,
    fun hrunning => ?_⟩
    · have := h.classes p
      rw [hw] at this
      exact this
    · have := h.outstanding
      simp only [hw, Worker.batches, leave] at this ⊢
      omega
    · have := h.counted kind
      simp only [owed, hw, leave] at this ⊢
      exact this
    · have := h.covered hfits kind
      simp only [owed, hw, leave] at this ⊢
      exact this
  · exact h.running (by rw [hw]; trivial)
  · cases hrunning

/-- The worker returns: what is in flight is given up. -/
theorem Accounted.abandon (h : Accounted s) {batch : Batch α}
    (hw : s.worker = .writing batch) : Accounted (s.abandon batch) := by
  refine ⟨fun p => ?_, ?_, fun kind => ?_, h.bounded, fun hfits kind => ?_, h.plain, h.sound,
    fun hrunning => ?_⟩
  · have := h.classes p
    simp only [hw, State.abandon, Worker.items, List.countP_append, List.countP_nil] at this ⊢
    omega
  · have := h.outstanding
    rw [hw] at this
    exact this
  · have := h.counted kind
    simp only [owed, hw, State.abandon] at this ⊢
    exact this
  · have := h.covered hfits kind
    simp only [owed, hw, State.abandon, Worker.updates, Worker.taken, Worker.gaps,
      gapLosses_append, gapLosses_nil] at this ⊢
    omega
  · cases hrunning

/-- A queued batch is dropped with the channel. -/
theorem Accounted.drain (h : Accounted s) {batch : Batch α} {queue : List (Batch α)}
    (hw : s.worker = .draining) (hqueue : s.queue = batch :: queue) :
    Accounted { s.leave with
      queue := queue
      abandoned := s.abandoned ++ batch.items } := by
  refine ⟨fun p => ?_, ?_, fun kind => ?_, h.bounded, fun hfits kind => ?_,
    fun b hb => ?_, h.sound, fun hrunning => ?_⟩
  · have := h.classes p
    simp only [hqueue, total_cons, List.countP_append, leave] at this ⊢
    omega
  · have := h.outstanding
    simp only [hqueue, List.length_cons, leave] at this ⊢
    omega
  · exact h.counted kind
  · exact h.covered hfits kind
  · exact h.plain b (by rw [hqueue]; exact List.mem_cons_of_mem _ hb)
  · have : (Worker.draining : Worker α).Running := hw ▸ hrunning
    cases this

/-! ## Runs -/

theorem Accounted.choose (h : Accounted s)
    (hw : s.worker = .head ∨ s.worker = .headRuns) (pending : Bool) :
    Accounted (s.choose pending) := by
  have hshift : ∀ w : Worker α, (w = .waiting ∨ ∃ r, w = .creating r) →
      Accounted { s with worker := w } := by
    intro w hplace
    have hnothing : w.items = [] ∧ w.batches = 0 ∧ w.updates = []
        ∧ (∀ kind, w.taken kind = 0) ∧ w.gaps = [] := by
      rcases hplace with rfl | ⟨r, rfl⟩ <;> exact ⟨rfl, rfl, rfl, fun _ => rfl, rfl⟩
    obtain ⟨hitems, hbatches, hupdates, htaken, hgaps⟩ := hnothing
    rcases hw with hw | hw
    all_goals
      refine h.shift ?_ ?_ ?_ ?_ ?_ ?_ <;> rw [hw]
      · exact hitems
      · exact hbatches
      · exact hupdates
      · exact htaken
      · exact hgaps
      · exact fun _ => trivial
  unfold State.choose
  split
  · refine hshift _ ?_
    cases pending
    · exact .inl rfl
    · exact .inr ⟨_, rfl⟩
  · exact hshift _ (.inl rfl)

theorem Accounted.work (h : Accounted s) {signal : Signal} {t : State α}
    (ht : s.work signal = some t) : Accounted t := by
  -- A step between places where the worker holds nothing.
  have hidle : ∀ {w : Worker α} {closed : Bool}, (s.worker = .starting ∨ s.worker = .head
        ∨ s.worker = .waiting ∨ s.worker = .closing ∨ s.worker = .draining) →
      w.items = [] → w.batches = 0 → w.updates = [] → (∀ kind, w.taken kind = 0) →
      w.gaps = [] → (w.Running → s.worker.Running) →
      Accounted { s with worker := w, closed := closed } := by
    intro w closed hplace hitems hbatches hupdates htaken hgaps hrunning
    have hnothing : s.worker.items = [] ∧ s.worker.batches = 0 ∧ s.worker.updates = []
        ∧ (∀ kind, s.worker.taken kind = 0) ∧ s.worker.gaps = [] := by
      rcases hplace with hw | hw | hw | hw | hw <;> rw [hw] <;>
        exact ⟨rfl, rfl, rfl, fun _ => rfl, rfl⟩
    obtain ⟨hitems', hbatches', hupdates', htaken', hgaps'⟩ := hnothing
    exact h.shift (hitems.trans hitems'.symm) (hbatches.trans hbatches'.symm)
      (hupdates.trans hupdates'.symm) (fun kind => (htaken kind).trans (htaken' kind).symm)
      (hgaps.trans hgaps'.symm) hrunning
  unfold State.work at ht
  split at ht
  case h_1 hw => -- starting
    cases ht
    exact hidle (.inl hw) rfl rfl rfl (fun _ => rfl) rfl fun _ => by rw [hw]; trivial
  case h_2 hw =>
    split at ht <;> cases ht
    exact hidle (.inl hw) rfl rfl rfl (fun _ => rfl) rfl fun hrun => by cases hrun
  case h_3 hw => -- head
    cases ht
    split
    · exact h.choose (.inl hw) true
    · exact hidle (.inr (.inl hw)) rfl rfl rfl (fun _ => rfl) rfl fun _ => by rw [hw]; trivial
  case h_4 hw =>
    cases ht
    exact h.choose (.inr hw) _
  case h_5 revision _ hw => -- creating
    cases ht
    refine h.acquire (.inr ⟨revision, hw⟩) (fun p => ?_) ?_ rfl h.plain
    · rfl
    · show s.status.outstanding + 1 + (s.queue.length : Int)
        = s.status.outstanding + s.queue.length + 1
      omega
  case h_6 hw => -- waiting
    split at ht <;> cases ht
    exact hidle (.inr (.inr (.inl hw))) rfl rfl rfl (fun _ => rfl) rfl
      fun hrun => by cases hrun
  case h_7 hw =>
    cases ht
    exact hidle (.inr (.inr (.inl hw))) rfl rfl rfl (fun _ => rfl) rfl
      fun _ => by rw [hw]; trivial
  case h_8 hw =>
    split at ht
    · next batch queue hqueue =>
        cases ht
        have hmem : ∀ b ∈ batch :: queue, b.gaps = [] := by
          rw [← hqueue]
          exact h.plain
        refine h.acquire (.inl hw) (fun p => ?_) ?_ (hmem batch (by simp))
          fun b hb => hmem b (by simp [hb])
        · rw [hqueue, total_cons]
          omega
        · show s.status.outstanding + (s.queue.length : Int)
            = s.status.outstanding + queue.length + 1
          rw [hqueue, List.length_cons]
          omega
    · cases ht
  case h_9 hw =>
    split at ht <;> cases ht
    exact hidle (.inr (.inr (.inl hw))) rfl rfl rfl (fun _ => rfl) rfl
      fun hrun => by cases hrun
  case h_10 batch _ hw =>
    cases ht
    exact h.takeEvents hw _
  case h_11 batch events time hw =>
    cases ht
    exact h.takeRuns hw time
  case h_12 batch hw => -- writing
    split at ht <;> cases ht
    exact h.abandon hw
  case h_13 batch hw =>
    cases ht
    exact h.wrote hw
  case h_14 batch hw =>
    cases ht
    exact h
  case h_15 batch hw =>
    cases ht
    exact h.reject hw
  case h_16 batch u us _ hw =>
    cases ht
    exact h.settle hw
  case h_17 batch _ hw =>
    cases ht
    cases hempty : batch.isEmpty with
    | true =>
        refine h.shift ?_ ?_ ?_ ?_ ?_ fun hrun => by cases hrun
        all_goals
          rw [hw]
          first | rfl | exact fun _ => rfl
    | false =>
        refine h.shift ?_ ?_ ?_ ?_ ?_ fun _ => by rw [hw]; exact hempty
        all_goals
          rw [hw]
          first | rfl | exact fun _ => rfl
  case h_18 _ hw =>
    cases ht
    exact h.release (.inl ⟨hw, rfl⟩)
  case h_19 _ hw =>
    cases ht
    exact h.release (.inr ⟨hw, rfl⟩)
  case h_20 _ hw =>
    cases ht
    exact hidle (.inr (.inr (.inr (.inl hw)))) rfl rfl rfl (fun _ => rfl) rfl
      fun hrun => by cases hrun
  case h_21 _ hw =>
    split at ht
    · next batch queue hqueue =>
        cases ht
        exact h.drain hw hqueue
    · cases ht
      exact hidle (.inr (.inr (.inr (.inr hw)))) rfl rfl rfl (fun _ => rfl) rfl
        fun hrun => by cases hrun
  case h_22 => cases ht

theorem Accounted.advance (h : Accounted s) (capacity index : Nat) (admitted : Bool) :
    Accounted (s.step capacity (.advance index admitted)) := by
  rw [State.step]
  cases hx : s.submissions[index]? with
  | none => exact h
  | some x =>
  dsimp only
  obtain ⟨hfilled, hchecking, hgaps⟩ := h.sound x (List.mem_of_getElem? hx)
  cases hupdates : x.updates with
  | cons u us =>
      simp only [State.advance, hupdates]
      exact h.update hx hupdates
  | nil =>
  -- Without anything dropped the submission only changes its place.
  have hmove : ∀ y : Submission α, (∀ p : Item α → Bool,
      x.items.countP p = y.items.countP p) → y.updates = [] → y.Sound →
      Accounted { s with submissions := s.submissions.set index y } := by
    intro y hitems hnone hsound
    have := h.replace hx [] (by simpa using hitems) (by simp [hupdates, hnone])
      (by simp [hupdates, hnone]) hsound
    rwa [List.append_nil] at this
  cases hstage : x.stage with
  | filling =>
      cases hrest : x.rest with
      | nil =>
          simp only [State.advance, hupdates, hstage, hrest]
          refine hmove _ (fun p => ?_) rfl ⟨fun _ => rfl, ?_, hgaps⟩
          · simp only [Submission.items, hstage, hrest, reduceCtorEq, if_false]
            rw [if_neg (by split <;> decide)]
          · intro hchecks
            by_cases hempty : x.batch.isEmpty = true
            · exact items_of_isEmpty hempty
            · simp [hempty] at hchecks
      | cons item rest =>
          simp only [State.advance, hupdates, hstage, hrest]
          by_cases hfits : (admitted && x.batch.hasRoom item) = true
          · rw [if_pos hfits]
            refine hmove _ (fun p => ?_) rfl
              ⟨fun hne => absurd rfl hne, by simp, (push_gaps _ _).trans hgaps⟩
            simp only [Submission.items, hstage, hrest, reduceCtorEq, if_false,
              List.countP_append, push_items, List.countP_cons, List.countP_nil]
            omega
          · rw [if_neg hfits]
            refine h.replace hx [item] (fun p => ?_) (fun kind => ?_) (fun kind => ?_)
              ⟨fun hne => absurd rfl hne, by simp, hgaps⟩
            · simp only [Submission.items, hstage, hrest, reduceCtorEq, if_false,
                List.countP_append, List.countP_cons, List.countP_nil]
              omega
            · rw [hupdates, counts_item, total_nil, Nat.zero_add]
            · rw [hupdates, covers_item, total_nil, Nat.zero_add]
  | checkingEvents =>
      simp only [State.advance, hupdates, hstage]
      have hrest := hfilled (by simp [hstage])
      have hempty := hchecking (.inl hstage)
      refine hmove _ (fun p => ?_) rfl ⟨fun _ => hrest, fun _ => hempty, hgaps⟩
      simp only [Submission.items, hstage, reduceCtorEq, if_false]
      rw [if_neg (by split <;> decide)]
  | checkingRuns =>
      simp only [State.advance, hupdates, hstage]
      have hrest := hfilled (by simp [hstage])
      have hempty := hchecking (.inr hstage)
      refine hmove _ (fun p => ?_) rfl ⟨fun _ => hrest, fun _ => hempty, hgaps⟩
      simp only [Submission.items, hrest, hempty, List.append_nil, ite_self]
  | sending =>
      have hrest := hfilled (by simp [hstage])
      have hitems : x.items = x.batch.items := by
        simp [Submission.items, hstage, hrest]
      by_cases hfull : (s.closed || decide (capacity ≤ s.queue.length)) = true
      · simp only [State.advance, hupdates, hstage, if_pos hfull]
        refine h.replace hx x.batch.items (fun p => ?_) (fun kind => ?_) (fun kind => ?_)
          ⟨fun _ => hrest, by simp, hgaps⟩
        · rw [hitems]
          simp [Submission.items]
        · rw [hupdates, counts_batch, total_nil, Nat.zero_add]
        · rw [hupdates, covers_batch, total_nil, Nat.zero_add]
      · simp only [State.advance, hupdates, hstage, if_neg hfull]
        refine h.finish hx hupdates (fun p => ?_) ?_ rfl rfl fun b hb => ?_
        · rw [total_append, total_cons, total_nil, hitems, Nat.add_zero]
        · rw [List.length_append, List.length_cons, List.length_nil]
          omega
        · rcases List.mem_append.mp hb with hb | hb
          · exact h.plain b hb
          · rw [List.mem_singleton] at hb
            rw [hb, hgaps]
  | leaving =>
      simp only [State.advance, hupdates, hstage]
      refine h.finish hx hupdates (fun p => ?_) ?_ rfl rfl h.plain
      · simp [Submission.items, hstage, leave]
      · show s.status.outstanding - 1 + (s.queue.length : Int) + 1
          = s.status.outstanding + s.queue.length
        omega

/-- The step lemma: every step keeps the account. -/
theorem Accounted.step (h : Accounted s) (capacity : Nat) (action : Action α) :
    Accounted (s.step capacity action) := by
  cases action with
  | submit revision runs events records => exact h.submit capacity revision runs events records
  | advance index admitted => exact h.advance capacity index admitted
  | work signal =>
      show Accounted ((s.work signal).getD s)
      cases ht : s.work signal with
      | none => exact h
      | some t => exact h.work ht
  | cancel => exact h.shift rfl rfl rfl (fun _ => rfl) rfl id
  | flush =>
      rw [State.step]
      cases hf : s.flush with
      | idle => exact h.shift rfl rfl rfl (fun _ => rfl) rfl id
      | returned _ => exact h.shift rfl rfl rfl (fun _ => rfl) rfl id
      | _ => exact h
  | read =>
      show Accounted s.read
      unfold State.read
      split
      · split
        · exact h.shift rfl rfl rfl (fun _ => rfl) rfl id
        · exact h
      · exact h.shift rfl rfl rfl (fun _ => rfl) rfl id
      · exact h.shift rfl rfl rfl (fun _ => rfl) rfl id
      · exact h
  | timeout =>
      show Accounted s.timeout
      unfold State.timeout
      split
      · exact h.shift rfl rfl rfl (fun _ => rfl) rfl id
      · exact h

/-- The run lemma: every reachable state is accounted for. -/
theorem accounted_run (capacity : Nat) (actions : List (Action α)) :
    Accounted ((process capacity).run State.start actions).1 := by
  have hstep : (process capacity).Preserves (fun _ => True) (Accounted (α := α)) :=
    fun _ action _ h => h.step capacity action
  exact hstep.run (fun _ _ => trivial) .start

/-! ## Losses between updates -/

/-- No submission or worker step is in the middle of an update. -/
def Quiet (s : State α) : Prop :=
  s.Settled ∧ ∀ kind, s.worker.taken kind = 0

/-- Every record is in one place. -/
def Placed (s : State α) (givenUp : List (Item α)) : Prop :=
  s.submitted.Perm (s.persisted ++ s.queue.flatMap Batch.items ++ s.worker.items
    ++ s.submissions.flatMap Submission.items ++ s.dropped ++ givenUp)

/-- Every loss is covered once, by a pending count or by a gap. -/
def Covered (s : State α) : Prop :=
  ∀ kind, losses kind s.dropped
    = s.status.pending kind + gapLosses kind s.worker.gaps + gapLosses kind s.persistedGaps

theorem owed_of_settled (h : s.Settled) (f : Update → Nat) : s.owed f = 0 := by
  rw [owed, h.2, total_nil, Nat.add_zero]
  exact total_eq_zero fun x hx => by rw [h.1 x hx, total_nil]

theorem countP_flatMap {β : Type} (f : β → List (Item α)) (l : List β) (p : Item α → Bool) :
    (l.flatMap f).countP p = total (fun b => (f b).countP p) l := by
  induction l with
  | nil => rfl
  | cons b l ih => rw [List.flatMap_cons, List.countP_append, ih, total_cons]

/-- The state after some actions. -/
def after (capacity : Nat) (actions : List (Action α)) : State α :=
  ((process capacity).run start actions).1

/-- Between updates every record is persisted, queued, in flight, with its submission,
counted as dropped, or was given up when the worker returned; while the worker runs
nothing is given up and, as long as a gap can hold them, all losses are covered. -/
theorem losses_accounted (capacity : Nat) (actions : List (Action α)) :
    Placed (after capacity actions) (after capacity actions).abandoned
      ∧ ((after capacity actions).Quiet → ∀ kind, (after capacity actions).status.dropped kind
        = min (losses kind (after capacity actions).dropped) u64Max)
      ∧ ((after capacity actions).worker.Running → (after capacity actions).abandoned = []
        ∧ ((after capacity actions).Quiet → (after capacity actions).Fits →
          (after capacity actions).Covered))
      ∧ (after capacity actions).status.outstanding
        = ((after capacity actions).submissions.length + (after capacity actions).queue.length
          + (after capacity actions).worker.batches : Nat) := by
  have h : Accounted (after capacity actions) := accounted_run capacity actions
  refine ⟨?_, fun hquiet kind => ?_, fun hrun => ⟨(h.running hrun).1, ?_⟩, h.outstanding⟩
  · classical
    refine List.perm_iff_count.mpr fun a => ?_
    have := h.classes (· == a)
    simp only [List.count, List.countP_append, countP_flatMap]
    omega
  · have := h.counted kind
    have := h.bounded kind
    rw [owed_of_settled hquiet.1] at *
    omega
  · intro hquiet hfits kind
    obtain ⟨_, hrejected, hgaps⟩ := h.running hrun
    have := h.covered hfits kind
    rw [owed_of_settled hquiet.1, hquiet.2, hrejected, hgaps, gapLosses_nil] at this
    omega

/-! ## A shutdown, and more losses than a gap holds -/

/-- The worker takes its place, a run is submitted and taken, and the worker is stopped
during the write. -/
def shutdown : List (Action Nat) :=
  [.work (.go 0), .work (.go 0), .work (.go 0), .submit "r" [0] [] [], .advance 0 true,
    .advance 0 true, .advance 0 true, .work .receive, .work (.go 1), .work (.go 1), .cancel,
    .work .stop, .work (.go 2), .work (.go 2), .work (.go 2)]

/-- A waiting worker and one submission, of whose runs `k` were refused and `rest` are
still to come. -/
def refusing (submitted : List (Item Nat)) (k rest : Nat) : State Nat :=
  { start with
    status :=
      { outstanding := 1
        dropped := fun | .events => 0 | .runs => k
        pending := fun | .events => 0 | .runs => k }
    submissions := [⟨List.replicate rest (.run 0), { revision := "r" }, [], .filling⟩]
    worker := .waiting
    submitted := submitted
    dropped := List.replicate k (.run 0) }

/-- One refused run takes five steps. -/
def refusal : List (Action Nat) := List.replicate 5 (.advance 0 false)

theorem run_refusal {k : Nat} (hk : k + 1 ≤ u64Max) (submitted : List (Item Nat))
    (rest : Nat) :
    ((process 1).run (refusing submitted k (rest + 1)) refusal).1
      = refusing submitted (k + 1) rest := by
  have hzero : saturatingAdd 0 0 = 0 := rfl
  have hsucc : saturatingAdd k 1 = k + 1 := Nat.min_eq_left hk
  simp only [refusal, refusing, List.replicate, Process.run, process, step, advance,
    List.getElem?_cons_zero, List.set_cons_zero, Bool.false_and, Bool.false_eq_true, if_false,
    Item.dropUpdates, dropRecords, Status.apply, start, State.mk.injEq, and_true, true_and,
    Status.mk.injEq]
  refine ⟨⟨funext fun kind => ?_, funext fun kind => ?_⟩, ?_⟩
  · cases kind <;> simp [Function.update, hzero, hsucc]
  · cases kind <;> simp [Function.update, hzero, hsucc]
  · rw [← List.replicate_succ', List.replicate_succ]

theorem run_refusals {n k : Nat} (hk : k + n ≤ u64Max) (submitted : List (Item Nat)) :
    ((process 1).run (refusing submitted k n) (List.replicate n refusal).flatten).1
      = refusing submitted (k + n) 0 := by
  induction n generalizing k with
  | zero => rfl
  | succ n ih =>
      rw [List.replicate_succ, List.flatten_cons, Process.run_append,
        run_refusal (by omega)]
      rw [ih (by omega)]
      congr 1
      omega

/-- A submission of `n` runs, all of them refused; the worker then takes the counts. -/
def overflow (n : Nat) : List (Action Nat) :=
  [.work (.go 0), .work (.go 0), .work (.go 0), .submit "r" (List.replicate n 0) [] []]
    ++ (List.replicate n refusal).flatten
    ++ [.advance 0 false, .advance 0 false, .advance 0 false, .advance 0 false,
      .work .receive, .work (.go 1), .work (.go 1)]

theorem after_submit (n : Nat) :
    ((process 1).run start [.work (.go 0), .work (.go 0), .work (.go 0),
        .submit "r" (List.replicate n 0) [] []]).1
      = refusing (List.replicate n (.run 0)) 0 n := by
  have hzero : (fun _ => 0 : Kind → Nat) = fun | .events => 0 | .runs => 0 := by
    funext kind
    cases kind <;> rfl
  simp [Process.run, process, step, work, choose, start, refusing, enter, Status.start, hzero]

/-- A count that no gap can hold is taken and forgotten. -/
theorem after_overflow {n : Nat} (hn : i64Max < n) (hbound : n ≤ u64Max) :
    (after 1 (overflow n)).Quiet ∧ (after 1 (overflow n)).worker.Running
      ∧ losses .runs (after 1 (overflow n)).dropped = n
      ∧ (after 1 (overflow n)).status.pending .runs = 0
      ∧ (after 1 (overflow n)).worker.gaps = []
      ∧ (after 1 (overflow n)).persistedGaps = [] := by
  have hpos : n ≠ 0 := by
    rintro rfl
    exact absurd hn (Nat.not_lt_zero _)
  have hgap : ∀ time, Gap.new time 0 n = .error .record := fun time =>
    if_neg fun h => Nat.not_lt.mpr h.2 hn
  have hrefusals := run_refusals (k := 0) (n := n) (by omega) (List.replicate n (.run 0))
  rw [Nat.zero_add] at hrefusals
  have hlosses : losses .runs (List.replicate n (Item.run 0)) = n := by
    rw [losses, List.countP_replicate]
    rfl
  rw [after, overflow, Process.run_append, Process.run_append, after_submit, hrefusals]
  simp [Process.run, process, step, advance, work, refusing, start, Quiet, Settled,
    Batch.isEmpty, Batch.addGap, hpos, hgap, hlosses, Worker.updates, Worker.taken,
    Worker.Running, Worker.gaps, Function.update]

/-- A worker that is stopped gives up the records in flight without counting them, and a
count beyond `i64::MAX` leaves no gap. -/
theorem losses_not_accounted :
    (¬ ∀ actions : List (Action Nat), (after 1 actions).Quiet → Placed (after 1 actions) [])
      ∧ ¬ ∀ actions : List (Action Nat), (after 1 actions).Quiet →
        (after 1 actions).worker.Running → (after 1 actions).Covered := by
  constructor
  · intro h
    have hquiet : (after 1 shutdown).Quiet :=
      ⟨⟨fun x hx => absurd hx List.not_mem_nil, rfl⟩, fun _ => rfl⟩
    have hlength := (h shutdown hquiet).length_eq
    revert hlength
    decide
  · intro h
    obtain ⟨n, hn, hbound⟩ : ∃ n, i64Max < n ∧ n ≤ u64Max :=
      ⟨i64Max + 1, Nat.lt_succ_self _, by decide⟩
    obtain ⟨hquiet, hrun, hlost, hpending, hgaps, hpersisted⟩ := after_overflow hn hbound
    have hcovered := h _ hquiet hrun .runs
    rw [hlost, hpending, hgaps, hpersisted, gapLosses_nil] at hcovered
    omega

end State

end HealthMonitor.History
