import HealthMonitor.Core.Config
import HealthMonitor.History.Records
import HealthMonitor.Library.Process

/-!
# Publication

Transitions wait in a queue until the background writer has published them. A write
captures the queue as it is; its success acknowledges as many transitions as it
captured, wherever it is awaited, and they leave the queue from the front. What arrives
while the queue is full is refused and counted.

Whether a write succeeds, and when, is decided by the environment. Each step reports
what it appended, captured and removed.
-/

namespace HealthMonitor.Runtime

/-! ## The publisher -/

/-- How awaiting a write ends: it succeeded, it failed or panicked, or the deadline
passed first. -/
inductive Outcome where
  | written | failed | timedOut
  deriving DecidableEq, Repr

/-- `task` holds the transitions the write in flight has captured. -/
structure Publisher where
  task : Option (List Transition)
  eventCount : Nat
  requested : Bool
  next : Time
  backoff : Int

namespace Publisher

def seconds (n : Int) : Int := n * nanosPerSecond

def new (now : Time) : Publisher where
  task := none
  eventCount := 0
  requested := false
  next := now
  backoff := seconds 1

def request (p : Publisher) : Publisher :=
  { p with requested := true }

def start (p : Publisher) (transitions : List Transition) (now : Time) : Publisher × Bool :=
  if p.task.isSome || !p.requested || now < p.next then (p, false)
  else
    ({ p with
        requested := false
        eventCount := transitions.length
        task := some transitions }, true)

/-- `complete`, awaited until `now`. On a timeout the task is gone and nothing else
changes. -/
def complete (p : Publisher) (outcome : Outcome) (now : Time) :
    Publisher × Option (Except Unit Nat) :=
  match p.task, outcome with
  | none, _ => (p, none)
  | some _, .written =>
      ({ p with task := none, next := now, backoff := seconds 1 }, some (.ok p.eventCount))
  | some _, .failed =>
      ({ p with
          task := none
          requested := true
          next := now + p.backoff
          backoff := min (p.backoff * 2) (seconds 60) }, some (.error ()))
  | some _, .timedOut => ({ p with task := none }, none)

end Publisher

/-! ## The supervisor -/

structure Supervisor where
  publisher : Publisher
  transitions : List Transition
  persistenceFault : Bool
  droppedTransitions : Nat

/-- What a step reports. -/
inductive Report where
  | appended (incoming accepted refused : List Transition)
  | settled (captured : List Transition) (outcome : Outcome) (removed : List Transition)
  deriving DecidableEq

/-- When the parts of `finish` run, and how its two writes end. -/
structure Ending where
  deadline : Time
  begun : Time
  previous : Outcome
  previousAt : Time
  reset : Time
  started : Time
  last : Outcome
  lastAt : Time

inductive Action where
  | append (incoming : List Transition) (maxFindings : Nat)
  | request
  | start (now : Time)
  | poll (result : Option Bool) (now : Time)
  | finish (ending : Ending)

namespace Supervisor

/-- `append`. -/
def append (s : Supervisor) (incoming : List Transition) (maxFindings : Nat) : Supervisor :=
  let remaining := saturatingMul maxFindings 2 - s.transitions.length
  let s :=
    if remaining < incoming.length then
      { s with
        droppedTransitions :=
          saturatingAdd s.droppedTransitions (incoming.length - remaining)
        persistenceFault := true }
    else s
  { s with transitions := s.transitions ++ incoming.take remaining }

/-- `transitions.drain(..count.min(transitions.len()))`. -/
def drain (s : Supervisor) (count : Nat) : Supervisor :=
  { s with transitions := s.transitions.drop (min count s.transitions.length) }

/-- The report of an awaited write, if there was one. -/
def settled (s : Supervisor) (outcome : Outcome) (t : Supervisor) : List Report :=
  match s.publisher.task with
  | none => []
  | some captured =>
      [.settled captured outcome
        (s.transitions.take (s.transitions.length - t.transitions.length))]

/-- The branch of the disk tick that polls the publisher. `result` says how the task
ended, if it is finished. -/
def poll (s : Supervisor) (result : Option Bool) (now : Time) : Supervisor :=
  match s.publisher.task, result with
  | some _, some true =>
      let done := s.publisher.complete .written now
      { { s with publisher := done.1 }.drain s.publisher.eventCount with
        persistenceFault := false }
  | some _, some false =>
      { s with publisher := (s.publisher.complete .failed now).1, persistenceFault := true }
  | _, _ => s

/-- A write is awaited under the deadline, and a success drained. -/
def await (s : Supervisor) (outcome : Outcome) (now : Time) : Supervisor :=
  let done := s.publisher.complete outcome now
  let s := { s with publisher := done.1 }
  match done.2 with
  | some (.ok count) => s.drain count
  | _ => s

/-- `request`, `next = now` and `start`, as `finish` calls them. -/
def restart (s : Supervisor) (ending : Ending) : Supervisor × Bool :=
  let publisher := { s.publisher.request with next := ending.reset }
  let started := publisher.start s.transitions ending.started
  ({ s with publisher := started.1 }, started.2)

/-- `Publisher::finish` and what the supervisor makes of it. -/
def finish (s : Supervisor) (ending : Ending) : Supervisor × List Report :=
  let failed (s : Supervisor) := { s with persistenceFault := true }
  if ending.deadline ≤ ending.begun then (failed s, [])
  else
    let first := s.await ending.previous ending.previousAt
    let reports := s.settled ending.previous first
    if s.publisher.task.isSome && ending.previous = .timedOut then (failed first, reports)
    else
      let again := first.restart ending
      if !again.2 then (failed again.1, reports)
      else
        let second := again.1.await ending.last ending.lastAt
        ({ second with persistenceFault := ending.last ≠ .written },
          reports ++ again.1.settled ending.last second)

def step (s : Supervisor) : Action → Supervisor × List Report
  | .append incoming maxFindings =>
      let remaining := saturatingMul maxFindings 2 - s.transitions.length
      (s.append incoming maxFindings,
        [.appended incoming (incoming.take remaining) (incoming.drop remaining)])
  | .request => ({ s with publisher := s.publisher.request }, [])
  | .start now => ({ s with publisher := (s.publisher.start s.transitions now).1 }, [])
  | .poll result now =>
      (s.poll result now,
        match result with
        | none => []
        | some true => s.settled .written (s.poll result now)
        | some false => s.settled .failed (s.poll result now))
  | .finish ending => s.finish ending

def process : Process Supervisor Action Report where
  step := step

end Supervisor

/-! ## The queue and the log -/

def Report.accepted : Report → List Transition
  | .appended _ accepted _ => accepted
  | .settled .. => []

def Report.refused : Report → List Transition
  | .appended _ _ refused => refused
  | .settled .. => []

/-- What a publication acknowledged, if it succeeded. -/
def Report.acknowledged : Report → List Transition
  | .settled captured .written _ => captured
  | _ => []

/-- The report of an awaited write. -/
def Report.isSettled : Report → Bool
  | .appended .. => false
  | .settled .. => true

/-- A report splits what was passed to `append`, and an awaited write removes what it
published or nothing. -/
def Report.Sound : Report → Prop
  | .appended incoming accepted refused => incoming = accepted ++ refused
  | .settled captured .written removed => removed = captured
  | .settled _ _ removed => removed = []

namespace Supervisor

/-- The queue holds what was accepted and not yet acknowledged, behind what the write in
flight has captured. -/
structure Conserved (dropped : Nat) (log : List Report) (s : Supervisor) : Prop where
  queue : log.flatMap Report.accepted = log.flatMap Report.acknowledged ++ s.transitions
  reports : ∀ report ∈ log, report.Sound
  captured : ∀ captured, s.publisher.task = some captured →
    captured <+: s.transitions ∧ s.publisher.eventCount = captured.length
  counted : s.droppedTransitions = min (dropped + (log.flatMap Report.refused).length) u64Max

section Steps

variable {s : Supervisor} {dropped : Nat} {log : List Report}

/-- What changes neither the queue nor the write in flight. -/
theorem Conserved.keep (h : Conserved dropped log s) {p : Publisher}
    (htask : p.task = none ∨ p.task = s.publisher.task ∧ p.eventCount = s.publisher.eventCount) :
    Conserved dropped log { s with publisher := p } := by
  refine ⟨h.queue, h.reports, fun captured hcaptured => ?_, h.counted⟩
  rcases htask with hnone | ⟨hsame, hcount⟩
  · rw [hnone] at hcaptured
    cases hcaptured
  · show captured <+: s.transitions ∧ p.eventCount = captured.length
    rw [hcount]
    exact h.captured captured (hsame ▸ hcaptured)

/-- A write captures the whole queue. -/
theorem Conserved.start (h : Conserved dropped log s) (now : Time) :
    Conserved dropped log
      { s with publisher := (s.publisher.start s.transitions now).1 } := by
  unfold Publisher.start
  split
  · exact h
  · refine ⟨h.queue, h.reports, fun captured hcaptured => ?_, h.counted⟩
    cases hcaptured
    exact ⟨List.prefix_rfl, rfl⟩

theorem Conserved.append (h : Conserved dropped log s) (incoming : List Transition)
    (maxFindings : Nat) :
    Conserved dropped
      (log ++ [.appended incoming
        (incoming.take (saturatingMul maxFindings 2 - s.transitions.length))
        (incoming.drop (saturatingMul maxFindings 2 - s.transitions.length))])
      (s.append incoming maxFindings) := by
  generalize hremaining : saturatingMul maxFindings 2 - s.transitions.length = remaining
  have htransitions : (s.append incoming maxFindings).transitions
      = s.transitions ++ incoming.take remaining := by
    unfold Supervisor.append
    dsimp only
    rw [hremaining]
    split <;> rfl
  have hpublisher : (s.append incoming maxFindings).publisher = s.publisher := by
    unfold Supervisor.append
    dsimp only
    split <;> rfl
  refine ⟨?_, ?_, fun captured hcaptured => ?_, ?_⟩
  · rw [htransitions, List.flatMap_append, List.flatMap_append, h.queue]
    simp [Report.accepted, Report.acknowledged]
  · intro report hreport
    rcases List.mem_append.mp hreport with hreport | hreport
    · exact h.reports report hreport
    · rw [List.mem_singleton] at hreport
      rw [hreport]
      exact (List.take_append_drop remaining incoming).symm
  · rw [hpublisher] at hcaptured ⊢
    obtain ⟨hstart, hcount⟩ := h.captured captured hcaptured
    rw [htransitions]
    exact ⟨hstart.trans (List.prefix_append ..), hcount⟩
  · have hcounted := h.counted
    have hlength : ((log ++ [Report.appended incoming (incoming.take remaining)
        (incoming.drop remaining)]).flatMap Report.refused).length
          = (log.flatMap Report.refused).length + (incoming.length - remaining) := by
      simp [List.flatMap_append, Report.refused]
    rw [hlength]
    unfold Supervisor.append saturatingAdd
    dsimp only
    rw [hremaining]
    split
    · dsimp only
      omega
    · omega

/-- The prefix that a write captured leaves the queue. -/
theorem Conserved.acknowledge (h : Conserved dropped log s) {captured : List Transition}
    (htask : s.publisher.task = some captured) {t : Supervisor}
    (htransitions : t.transitions
      = s.transitions.drop (min s.publisher.eventCount s.transitions.length))
    (hnone : t.publisher.task = none) (hdropped : t.droppedTransitions = s.droppedTransitions) :
    Conserved dropped (log ++ s.settled .written t) t := by
  obtain ⟨⟨later, hlater⟩, hcount⟩ := h.captured captured htask
  have hmin : min s.publisher.eventCount s.transitions.length = captured.length := by
    rw [hcount, ← hlater, List.length_append]
    omega
  have ht : t.transitions = later := by
    rw [htransitions, hmin, ← hlater, List.drop_left]
  have hremoved : s.transitions.take (s.transitions.length - t.transitions.length)
      = captured := by
    rw [ht, ← hlater, List.length_append, Nat.add_sub_cancel, List.take_left]
  rw [Supervisor.settled, htask, hremoved]
  refine ⟨?_, ?_, fun other hother => ?_, ?_⟩
  · rw [List.flatMap_append, List.flatMap_append, h.queue, ht, ← hlater]
    simp [Report.accepted, Report.acknowledged]
  · intro report hreport
    rcases List.mem_append.mp hreport with hreport | hreport
    · exact h.reports report hreport
    · rw [List.mem_singleton] at hreport
      rw [hreport]
      exact rfl
  · rw [hnone] at hother
    cases hother
  · rw [hdropped, h.counted]
    simp [List.flatMap_append, Report.refused]

/-- A write that did not succeed in time removes nothing. -/
theorem Conserved.fail (h : Conserved dropped log s) {outcome : Outcome}
    (hfailed : outcome ≠ .written) {t : Supervisor} (htransitions : t.transitions = s.transitions)
    (hnone : t.publisher.task = none) (hdropped : t.droppedTransitions = s.droppedTransitions) :
    Conserved dropped (log ++ s.settled outcome t) t := by
  have hempty : s.transitions.take (s.transitions.length - t.transitions.length) = [] := by
    rw [htransitions, Nat.sub_self, List.take_zero]
  have hquiet : ∀ report ∈ s.settled outcome t, report.Sound ∧ report.accepted = []
      ∧ report.acknowledged = [] ∧ report.refused = [] := by
    intro report hreport
    unfold Supervisor.settled at hreport
    split at hreport
    · cases hreport
    · rw [List.mem_singleton] at hreport
      rw [hreport, hempty]
      cases outcome with
      | written => exact absurd rfl hfailed
      | failed => exact ⟨rfl, rfl, rfl, rfl⟩
      | timedOut => exact ⟨rfl, rfl, rfl, rfl⟩
  have hnothing : ∀ f : Report → List Transition, (∀ report ∈ s.settled outcome t, f report = []) →
      (s.settled outcome t).flatMap f = [] := fun f hf => List.flatMap_eq_nil_iff.mpr hf
  refine ⟨?_, ?_, fun captured hcaptured => ?_, ?_⟩
  · rw [List.flatMap_append, List.flatMap_append,
      hnothing _ fun report hreport => (hquiet report hreport).2.1,
      hnothing _ fun report hreport => (hquiet report hreport).2.2.1, htransitions,
      List.append_nil, List.append_nil, h.queue]
  · intro report hreport
    rcases List.mem_append.mp hreport with hreport | hreport
    · exact h.reports report hreport
    · exact (hquiet report hreport).1
  · rw [hnone] at hcaptured
    cases hcaptured
  · rw [hdropped, h.counted, List.flatMap_append,
      hnothing _ fun report hreport => (hquiet report hreport).2.2.2, List.append_nil]

/-- Awaiting a write under the deadline. -/
theorem Conserved.await (h : Conserved dropped log s) (outcome : Outcome) (now : Time) :
    Conserved dropped (log ++ s.settled outcome (s.await outcome now)) (s.await outcome now) := by
  cases htask : s.publisher.task with
  | none =>
      have hstill : s.await outcome now = s := by
        simp [Supervisor.await, Publisher.complete, htask]
      rw [hstill, Supervisor.settled, htask, List.append_nil]
      exact h
  | some captured =>
      cases outcome with
      | written =>
          refine h.acknowledge htask ?_ ?_ ?_ <;>
            simp [Supervisor.await, Publisher.complete, htask, drain]
      | failed =>
          refine h.fail (by decide) ?_ ?_ ?_ <;>
            simp [Supervisor.await, Publisher.complete, htask]
      | timedOut =>
          refine h.fail (by decide) ?_ ?_ ?_ <;>
            simp [Supervisor.await, Publisher.complete, htask]

theorem Conserved.poll (h : Conserved dropped log s) (result : Option Bool) (now : Time) :
    Conserved dropped
      (log ++ match result with
        | none => []
        | some true => s.settled .written (s.poll result now)
        | some false => s.settled .failed (s.poll result now)) (s.poll result now) := by
  cases result with
  | none =>
      have hstill : s.poll none now = s := by
        unfold Supervisor.poll
        split <;> simp_all
      rw [hstill, List.append_nil]
      exact h
  | some success =>
      cases htask : s.publisher.task with
      | none =>
          have hstill : s.poll (some success) now = s := by
            simp [Supervisor.poll, htask]
          have hnothing : ∀ outcome, s.settled outcome s = [] := by
            intro outcome
            rw [Supervisor.settled, htask]
          rw [hstill]
          cases success
          · show Conserved dropped (log ++ s.settled .failed s) s
            rwa [hnothing, List.append_nil]
          · show Conserved dropped (log ++ s.settled .written s) s
            rwa [hnothing, List.append_nil]
      | some captured =>
          cases success with
          | true =>
              refine h.acknowledge htask ?_ ?_ ?_ <;>
                simp [Supervisor.poll, Publisher.complete, htask, drain]
          | false =>
              refine h.fail (by decide) ?_ ?_ ?_ <;>
                simp [Supervisor.poll, Publisher.complete, htask]

theorem Conserved.finish (h : Conserved dropped log s) (ending : Ending) :
    Conserved dropped (log ++ (s.finish ending).2) (s.finish ending).1 := by
  have hfault : ∀ {log : List Report} {t : Supervisor} {fault : Bool}, Conserved dropped log t →
      Conserved dropped log { t with persistenceFault := fault } :=
    fun h => ⟨h.queue, h.reports, h.captured, h.counted⟩
  unfold Supervisor.finish
  dsimp only
  split
  · rw [List.append_nil]
    exact hfault h
  have hfirst := h.await ending.previous ending.previousAt
  split
  · exact hfault hfirst
  have hagain : Conserved dropped (log ++ s.settled ending.previous
      (s.await ending.previous ending.previousAt))
      ((s.await ending.previous ending.previousAt).restart ending).1 := by
    have hrequested := hfirst.keep
      (p := { (s.await ending.previous ending.previousAt).publisher.request with
        next := ending.reset })
      (.inr ⟨rfl, rfl⟩)
    exact hrequested.start ending.started
  split
  · exact hfault hagain
  · have hsecond := hagain.await ending.last ending.lastAt
    rw [← List.append_assoc]
    exact hfault hsecond

/-- The step lemma. -/
theorem Conserved.step (h : Conserved dropped log s) (action : Action) :
    Conserved dropped (log ++ (s.step action).2) (s.step action).1 := by
  cases action with
  | append incoming maxFindings => exact h.append incoming maxFindings
  | request =>
      rw [show (s.step .request).2 = [] from rfl, List.append_nil]
      exact h.keep (.inr ⟨rfl, rfl⟩)
  | start now =>
      rw [show (s.step (.start now)).2 = [] from rfl, List.append_nil]
      exact h.start now
  | poll result now => exact h.poll result now
  | finish ending => exact h.finish ending

end Steps

/-! ## Runs -/

/-- The supervisor before the first transition; the counter may have been restored. -/
def fresh (now : Time) (fault : Bool) (dropped : UInt64) : Supervisor where
  publisher := .new now
  transitions := []
  persistenceFault := fault
  droppedTransitions := dropped.toNat

theorem conserved_fresh (now : Time) (fault : Bool) (dropped : UInt64) :
    Conserved dropped.toNat [] (fresh now fault dropped) := by
  refine ⟨rfl, by simp, fun captured hcaptured => ?_, ?_⟩
  · cases hcaptured
  · have hbound : dropped.toNat < 2 ^ 64 := dropped.toNat_lt
    show dropped.toNat = min (dropped.toNat + 0) (2 ^ 64 - 1)
    omega

/-- A step that settles no write leaves the one in flight as it is, and only adds to the
queue. -/
theorem step_in_flight {s : Supervisor} {captured : List Transition}
    (htask : s.publisher.task = some captured) (action : Action)
    (hquiet : ∀ report ∈ (s.step action).2, report.isSettled = false) :
    (s.step action).1.publisher.task = some captured
      ∧ (s.step action).1.transitions
        = s.transitions ++ (s.step action).2.flatMap Report.accepted := by
  have hsettled : ∀ outcome t, ∃ report ∈ s.settled outcome t, report.isSettled = true := by
    intro outcome t
    rw [settled, htask]
    exact ⟨_, List.mem_singleton_self _, rfl⟩
  have hnever : ∀ outcome t, ¬ ∀ report ∈ s.settled outcome t, report.isSettled = false := by
    intro outcome t hall
    obtain ⟨report, hreport, htrue⟩ := hsettled outcome t
    rw [hall report hreport] at htrue
    cases htrue
  cases action with
  | append incoming maxFindings =>
      have haccepted : (s.step (.append incoming maxFindings)).2.flatMap Report.accepted
          = incoming.take (saturatingMul maxFindings 2 - s.transitions.length) :=
        List.append_nil _
      rw [haccepted]
      show (s.append incoming maxFindings).publisher.task = _
        ∧ (s.append incoming maxFindings).transitions = _
      unfold append
      dsimp only
      split <;> exact ⟨htask, rfl⟩
  | request => exact ⟨htask, (List.append_nil _).symm⟩
  | start now =>
      refine ⟨?_, (List.append_nil _).symm⟩
      show (s.publisher.start s.transitions now).1.task = _
      rw [Publisher.start, if_pos (by simp [htask])]
      exact htask
  | poll result now =>
      cases result with
      | none =>
          have hstill : s.poll none now = s := by
            unfold poll
            split <;> simp_all
          show (s.poll none now).publisher.task = _ ∧ (s.poll none now).transitions = _
          rw [hstill]
          exact ⟨htask, (List.append_nil _).symm⟩
      | some success =>
          exfalso
          cases success
          · exact hnever .failed _ hquiet
          · exact hnever .written _ hquiet
  | finish ending =>
      show (s.finish ending).1.publisher.task = _ ∧ (s.finish ending).1.transitions = _ ++
        (s.finish ending).2.flatMap _
      change ∀ report ∈ (s.finish ending).2, _ at hquiet
      by_cases hearly : ending.deadline ≤ ending.begun
      · simp only [finish, if_pos hearly]
        exact ⟨htask, (List.append_nil _).symm⟩
      · exfalso
        obtain ⟨report, hreport, htrue⟩ := hsettled ending.previous
          (s.await ending.previous ending.previousAt)
        have hmem : report ∈ (s.finish ending).2 := by
          unfold finish
          simp only [if_neg hearly]
          split
          · exact hreport
          · split
            · exact hreport
            · exact List.mem_append_left _ hreport
        rw [hquiet report hmem] at htrue
        cases htrue

/-- As long as no write is settled, the one in flight stays, and the queue grows at its
end. -/
theorem run_in_flight {s : Supervisor} {captured : List Transition}
    (htask : s.publisher.task = some captured) (more : List Action)
    (hquiet : ∀ report ∈ (process.run s more).2, report.isSettled = false) :
    (process.run s more).1.publisher.task = some captured
      ∧ (process.run s more).1.transitions
        = s.transitions ++ (process.run s more).2.flatMap Report.accepted := by
  induction more generalizing s with
  | nil => exact ⟨htask, (List.append_nil _).symm⟩
  | cons action more ih =>
      rw [Process.run_cons] at hquiet ⊢
      obtain ⟨hflight, hgrown⟩ := step_in_flight htask action
        fun report hreport => hquiet report (List.mem_append_left _ hreport)
      obtain ⟨hflight', hgrown'⟩ := ih hflight
        fun report hreport => hquiet report (List.mem_append_right _ hreport)
      refine ⟨hflight', hgrown'.trans ?_⟩
      show (s.step action).1.transitions ++ _ = _
      rw [hgrown, List.flatMap_append, List.append_assoc]
      rfl

theorem length_append_le (s : Supervisor) (incoming : List Transition) (maxFindings : Nat) :
    (s.append incoming maxFindings).transitions.length
      ≤ max s.transitions.length (2 * maxFindings) := by
  have htransitions : (s.append incoming maxFindings).transitions
      = s.transitions ++ incoming.take (saturatingMul maxFindings 2 - s.transitions.length) := by
    unfold append
    dsimp only
    split <;> rfl
  have hlimit : saturatingMul maxFindings 2 ≤ 2 * maxFindings := by
    unfold saturatingMul
    omega
  rw [htransitions, List.length_append, List.length_take]
  omega

/-- Transitions are conserved: what was accepted is what was acknowledged, each by the
publication that removed it, followed by the queue; what was refused is counted, up to
`u64::MAX`; a write in flight acknowledges nothing that arrives after it. -/
theorem transitions_conserved (now : Time) (fault : Bool) (dropped : UInt64)
    (actions : List Action) :
    (process.run (fresh now fault dropped) actions).2.flatMap Report.accepted
        = (process.run (fresh now fault dropped) actions).2.flatMap Report.acknowledged
          ++ (process.run (fresh now fault dropped) actions).1.transitions
      ∧ (∀ report ∈ (process.run (fresh now fault dropped) actions).2, report.Sound)
      ∧ (process.run (fresh now fault dropped) actions).1.droppedTransitions
        = min (dropped.toNat + ((process.run (fresh now fault dropped) actions).2.flatMap
            Report.refused).length) u64Max
      ∧ (∀ before more captured, actions = before ++ more →
          (process.run (fresh now fault dropped) before).1.publisher.task = some captured →
          (∀ report ∈ (process.run (process.run (fresh now fault dropped) before).1 more).2,
            report.isSettled = false) →
          (process.run (fresh now fault dropped) actions).1.publisher.task = some captured
            ∧ captured <+: (process.run (fresh now fault dropped) before).1.transitions)
      ∧ ∀ incoming maxFindings,
        ((process.run (fresh now fault dropped) actions).1.append incoming
            maxFindings).transitions.length
          ≤ max (process.run (fresh now fault dropped) actions).1.transitions.length
            (2 * maxFindings) := by
  have hstep : process.Tracks (fun _ => True) (Conserved dropped.toNat) :=
    fun _ _ action _ h => h.step action
  have hall : ∀ actions, Conserved dropped.toNat
      (process.run (fresh now fault dropped) actions).2
      (process.run (fresh now fault dropped) actions).1 := fun actions =>
    hstep.run_start _ actions (fun _ _ => trivial) (conserved_fresh now fault dropped)
  refine ⟨(hall actions).queue, (hall actions).reports, (hall actions).counted, ?_,
    length_append_le _⟩
  rintro before more captured rfl htask hquiet
  rw [Process.run_append]
  exact ⟨(run_in_flight htask more hquiet).1, ((hall before).captured captured htask).1⟩

/-- A restored counter at `u64::MAX` does not count what is refused. -/
theorem refused_uncounted :
    ¬ ∀ (now : Time) (fault : Bool) (dropped : UInt64) (actions : List Action),
      (process.run (fresh now fault dropped) actions).1.droppedTransitions
        = dropped.toNat + ((process.run (fresh now fault dropped) actions).2.flatMap
            Report.refused).length := by
  intro h
  have hfull := h 0 false 18446744073709551615
    [.append [⟨1, "a", .new⟩, ⟨2, "b", .new⟩, ⟨3, "c", .new⟩] 1]
  revert hfull
  decide

end Supervisor

end HealthMonitor.Runtime
