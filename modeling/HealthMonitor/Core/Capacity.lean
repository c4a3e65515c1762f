import HealthMonitor.Core.Policy

/-!
# Capacity

Sustained capacity pressure from distinct current readings, with separate
warning and error clocks per resource.
-/

namespace HealthMonitor.Capacity

open Policy

/-- `since.get_or_insert(time)` while the reading is at or above the
threshold, `None` below it. -/
def sustain (above : Bool) (since : Option Time) (time : Time) : Option Time :=
  if above then some (since.getD time) else none

/-- The clocks after one more reading, in percent, at the given thresholds. -/
def advance (pressure : Pressure) (time : Time) (value warning error : Reading)
    (freshness : Nat) : Pressure :=
  let reset := numSeconds time pressure.lastSeen > freshness
    || !pressure.warning.eq warning || !pressure.error.eq error
  { lastSeen := time
    warningSince :=
      sustain (warning.le value) (if reset then none else pressure.warningSince) time
    errorSince :=
      sustain (error.le value) (if reset then none else pressure.errorSince) time
    warning, error }

/-- A clock has run for the configured span. -/
def sustained (settings : Settings) (time : Time) (since : Option Time) : Bool :=
  since.any fun t => numSeconds time t ≥ settings.capacitySustain.seconds

/-- The verdict after the clocks moved. -/
def judge (obs : Observation) (settings : Settings) (pressure : Pressure)
    (value : Reading) : Evaluation :=
  if sustained settings obs.observedAt pressure.errorSince then
    fault obs "metric-threshold" .error .correlated
  else if sustained settings obs.observedAt pressure.warningSince then
    fault obs "metric-threshold" .warning .correlated
  else result (if value.lt pressure.warning then .healthy else .unknown)

/-- The clocks a reading starts from: those of its resource, or new ones. -/
def entry (state : Table Pressure) (obs : Observation) (warning error : Reading) :
    Pressure :=
  state[obs.resource]?.getD
    { lastSeen := obs.observedAt, warningSince := none, errorSince := none
      warning, error }

/-- A point reading of a capacity metric, in percent of its capacity. -/
def evaluatePoint (state : Table Pressure) (obs : Observation) (settings : Settings)
    (value warning error : Reading) : Table Pressure × Option Evaluation :=
  if settings.maxAssets ≤ state.size && !state.contains obs.resource then
    (state, some (result .unknown))
  else
    let pressure := entry state obs warning error
    if obs.observedAt < pressure.lastSeen then
      (state.insert obs.resource pressure, some (result .unknown))
    else
      let pressure :=
        advance pressure obs.observedAt value warning error settings.freshness
      (state.insert obs.resource pressure, some (judge obs settings pressure value))

/-- Capacity metrics with a denominator are judged here; everything else is
left to the policy engine. -/
def evaluate (state : Table Pressure) (obs : Observation) (settings : Settings)
    (complete : Bool) (now : Time) : Table Pressure × Option Evaluation :=
  match obs.data with
  | .metric { value, capacity := some capacity, warning, error, windowSeconds, .. } =>
      if obs.inactive then
        (state.erase obs.resource, some (result .expectedInactive))
      else if !complete || now < obs.observedAt
          || numSeconds now obs.observedAt > settings.freshness then
        (state.erase obs.resource, none)
      else if settings.capacitySustain.seconds ≤ windowSeconds then (state, none)
      else if !value.isFinite || value.lt (Reading.ofNat 0) || !capacity.isFinite
          || capacity.le (Reading.ofNat 0) then
        (state.erase obs.resource, some (result .unknown))
      else
        evaluatePoint state obs settings (value.percentOf capacity)
          (warning.getD settings.capacityWarning) (error.getD settings.capacityError)
  | _ => (state, none)

/-! ## What one evaluation can do -/

variable {state : Table Pressure} {obs : Observation} {settings : Settings}
  {complete : Bool} {now : Time}

theorem judge_verdict {pressure : Pressure} {value : Reading} :
    Evaluation.Verdict obs (judge obs settings pressure value) :=
  .ite (.fault ..) (.ite (.fault ..) (.result _))

theorem evaluate_verdict {e : Evaluation}
    (h : (evaluate state obs settings complete now).2 = some e) :
    Evaluation.Verdict obs e := by
  unfold evaluate at h
  split at h
  · split at h
    · cases h; exact .result _
    split at h
    · cases h
    split at h
    · cases h
    split at h
    · cases h; exact .result _
    unfold evaluatePoint at h
    split at h
    · cases h; exact .result _
    dsimp only at h
    split at h
    · cases h; exact .result _
    · cases h; exact judge_verdict
  · cases h

/-- Other resources keep their clocks. -/
theorem evaluate_frame {r : String} (hr : r ≠ obs.resource) :
    (evaluate state obs settings complete now).1[r]? = state[r]? := by
  have hne : obs.resource ≠ r := fun h => hr h.symm
  unfold evaluate
  split
  · split
    · simp [Std.ExtTreeMap.getElem?_erase, hne]
    split
    · simp [Std.ExtTreeMap.getElem?_erase, hne]
    split
    · rfl
    split
    · simp [Std.ExtTreeMap.getElem?_erase, hne]
    unfold evaluatePoint
    split
    · rfl
    dsimp only
    split <;> simp [Std.ExtTreeMap.getElem?_insert, hne]
  · rfl

/-- The number of clocks never passes the asset limit. -/
theorem evaluate_size (h : state.size ≤ settings.maxAssets) :
    (evaluate state obs settings complete now).1.size ≤ settings.maxAssets := by
  have herase : (state.erase obs.resource).size ≤ settings.maxAssets :=
    Nat.le_trans Std.ExtTreeMap.size_erase_le h
  unfold evaluate
  split
  · split
    · exact herase
    split
    · exact herase
    split
    · exact h
    split
    · exact herase
    unfold evaluatePoint
    split
    · exact h
    · rename_i hroom
      have hinsert : ∀ p, (state.insert obs.resource p).size ≤ settings.maxAssets := by
        intro p
        rw [Std.ExtTreeMap.size_insert]
        simp only [Bool.and_eq_true, decide_eq_true_eq, Bool.not_eq_true',
          not_and, Bool.not_eq_false] at hroom
        split
        · exact h
        · rename_i hc
          have : ¬ settings.maxAssets ≤ state.size := fun hle => hc (hroom hle)
          omega
      dsimp only
      split
      · exact hinsert _
      · exact hinsert _
  · exact h

end HealthMonitor.Capacity
