import HealthMonitor.Server.View

/-!
# Bus

One immutable view serves all readers, and every replacement of it has a generation of its
own. An update that brings no transition, and a snapshot with the time, the revision and the
persistence state of the view that is out, publishes nothing.
-/

namespace HealthMonitor.Server

open View

structure Bus where
  generation : Nat := 0
  view : Option View := none

/-- What an update hands to the journal. An event needs the finding it is about, and the
target that owns it. -/
structure Submission where
  runs : List CheckResult
  events : List (Transition × Option (String × Finding))

namespace Bus

/-- The view that is out was built from a snapshot with these three. -/
def current (bus : Bus) (snapshot : Snapshot) : Bool :=
  bus.view.any fun view =>
    view.capturedAt == snapshot.capturedAt && view.revision == snapshot.revision
      && view.persistenceFault == snapshot.persistenceFault

/-- The results that the previous view has not seen. -/
def runs (previous : Option View) (snapshot : Snapshot) : List CheckResult :=
  (snapshot.results.toList.filter fun entry =>
    entry.2.revision == snapshot.revision
      && ((previous.bind (·.resultStamps[entry.1]?)).all fun stamp =>
        !stamp.matches entry.2)).map Prod.snd

/-- The finding of a transition: the one of the snapshot, or else of the previous view. The
findings of a view are in the order of their ids, so the binary search finds what is there. -/
def eventOf (previous : Option View) (targets : List View.Target) (snapshot : Snapshot)
    (transition : Transition) : Option (String × Finding) :=
  match snapshot.findings[transition.finding]? with
  | some finding => some (View.target finding.resource targets, finding)
  | none =>
      (previous.bind fun view => view.findings.find? (·.id == transition.finding)).map
        fun old => (old.target, old.source)

variable (facts : Data → List Fact)

/-- `Bus::update`, without the query records. -/
def update (bus : Bus) (snapshot : Snapshot) (effective : Effective)
    (transitions : List Transition) : Bus × Option Submission :=
  if bus.current snapshot && transitions.isEmpty then (bus, none)
  else
    let generation := bus.generation + 1
    let view := build facts snapshot effective generation
    ({ generation, view := some view },
      some
        { runs := runs bus.view snapshot
          events := transitions.map fun transition =>
            (transition, eventOf bus.view view.targets snapshot transition) })

variable {facts} {bus : Bus} {snapshot : Snapshot} {effective : Effective}
  {transitions : List Transition}

/-- An update leaves the view as it is, or puts out the next generation. -/
theorem update_cases :
    (transitions = [] ∧ bus.current snapshot = true
        ∧ bus.update facts snapshot effective transitions = (bus, none))
      ∨ (bus.update facts snapshot effective transitions).1
        = { generation := bus.generation + 1
            view := some (build facts snapshot effective (bus.generation + 1)) } := by
  rw [update]
  by_cases hskip : (bus.current snapshot && transitions.isEmpty) = true
  · rw [Bool.and_eq_true, List.isEmpty_iff] at hskip
    exact .inl ⟨hskip.2, hskip.1, by simp [hskip]⟩
  · exact .inr (by rw [if_neg hskip])

theorem update_of_not_current (h : bus.current snapshot = false) :
    (bus.update facts snapshot effective transitions).1
      = { generation := bus.generation + 1
          view := some (build facts snapshot effective (bus.generation + 1)) } := by
  rw [update, h, Bool.false_and]
  rfl

end Bus

end HealthMonitor.Server
