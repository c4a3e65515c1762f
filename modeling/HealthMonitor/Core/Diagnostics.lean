import HealthMonitor.Core.Bounds

/-!
# Diagnostics

Compact triggering evidence of a finding, admitted against the diagnostic byte
budget of one apply.
-/

namespace HealthMonitor.Diagnostic

def bytes (host : Host) (d : Diagnostic) : Nat :=
  observationBytes host d.observation + 256

/-- The bytes a finding's diagnostic is charged. -/
def charge (host : Host) (d : Option Diagnostic) : Nat :=
  (d.map (bytes host)).getD 0

/-- The restarts of the same container in the previous observation. -/
def restartsBefore (obs : Observation) (previous : Option Observation) :
    Option Nat :=
  match previous.map Observation.data, obs.data with
  | some (.pod prior), .pod pod =>
      if prior.uid = pod.uid ∧ prior.container = pod.container then
        some prior.restarts
      else none
  | _, _ => none

/-- A restored legacy finding has an unknown beginning until a new episode
starts. -/
def capture (obs : Observation) (previous : Option Observation)
    (old : Option Finding) (graceSeconds : Nat) : Diagnostic :=
  { firstDetectedAt :=
      match old with
      | some old => old.diagnostic.bind Diagnostic.firstDetectedAt
      | none => some obs.observedAt
    lastDetectedAt := obs.observedAt
    observation := obs
    previousRestarts := restartsBefore obs previous
    graceSeconds }

/-- Charge retained triggering evidence separately from current collection
results: the kept diagnostic and the bytes that remain. -/
def admitted (host : Host) (d : Diagnostic) (old : Option Finding) (remaining : Nat) :
    Option Diagnostic × Nat :=
  let old := old.bind Finding.diagnostic
  let available := remaining + charge host old
  if bytes host d ≤ available then (some d, available - bytes host d)
  else (old, remaining)

/-- Admission moves bytes between the kept diagnostic and the remainder. -/
theorem admitted_charge (host : Host) (d : Diagnostic) (old : Option Finding)
    (remaining : Nat) :
    charge host (d.admitted host old remaining).1 + (d.admitted host old remaining).2
      = charge host (old.bind Finding.diagnostic) + remaining := by
  unfold admitted
  dsimp only
  split
  · rename_i h
    have : charge host (some d) = bytes host d := rfl
    simp only [this]
    omega
  · rfl

end HealthMonitor.Diagnostic
