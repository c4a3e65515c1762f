import HealthMonitor.Core.StateLifecycle

/-!
# Report

Structural comparison of two snapshots; incidental sample values are ignored.
-/

namespace HealthMonitor.Report

/-- What happened to a finding of the new snapshot since the old one. -/
def kindOf (old : Snapshot) (id : String) (finding : Finding) : Option TransitionKind :=
  match old.findings[id]? with
  | none => some (if old.retired.contains id then .reappeared else .new)
  | some prior =>
      if !prior.stale && finding.stale then some .stale
      else if prior.stale && !finding.stale then some .reappeared
      else if prior.severity.rank < finding.severity.rank then some .worsened
      else none

/-- The transitions between two snapshots. A finding that disappeared is
reported as it was retired: its absence alone proves nothing. -/
def diff (old new : Snapshot) : List Transition :=
  new.findings.toList.filterMap (fun (id, finding) =>
    (kindOf old id finding).map fun kind => { time := new.capturedAt, finding := id, kind })
  ++ (old.findings.toList.filter fun e => !new.findings.contains e.1).filterMap
    fun e => new.retired[e.1]?

end HealthMonitor.Report
