import HealthMonitor.Core.Capacity
import HealthMonitor.Core.Runs
import HealthMonitor.Library.Process
import HealthMonitor.Library.Stretch

/-!
# Sustain

What stands behind a capacity finding: the readings of one resource over a run of
evaluations, with readings of other resources in between. A clock runs over a
stretch of point readings; a complete reading that is aggregated over the whole
span is judged elsewhere and leaves the clocks alone.
-/

namespace HealthMonitor.Capacity

open Policy

/-- What one evaluation is given. -/
structure Delivery where
  obs : Observation
  complete : Bool
  now : Time

namespace Delivery

/-- A metric with a capacity, with the thresholds that apply to it. -/
structure Gauge where
  value : Reading
  capacity : Reading
  warning : Reading
  error : Reading
  window : Nat
  deriving DecidableEq, Repr

variable (settings : Settings) (d : Delivery)

def gauge? : Option Gauge :=
  match d.obs.data with
  | .metric { value, capacity := some capacity, warning, error, windowSeconds, .. } =>
      some
        { value, capacity
          warning := warning.getD settings.capacityWarning
          error := error.getD settings.capacityError
          window := windowSeconds }
  | _ => none

/-- A capacity reading of the resource. -/
def About (resource : String) : Prop :=
  d.obs.resource = resource ∧ (d.gauge? settings).isSome = true

/-- Active, complete, not from the future and within the freshness limit. -/
structure Current : Prop where
  active : d.obs.expected = .active
  complete : d.complete = true
  past : d.obs.observedAt ≤ d.now
  fresh : numSeconds d.now d.obs.observedAt ≤ settings.freshness

/-- Aggregated over the whole span, and of use as it is. -/
def Aggregated : Prop :=
  d.Current settings ∧ ∃ g ∈ d.gauge? settings, settings.capacitySustain.seconds ≤ g.window

/-- The readings of the resource that the clocks go by. -/
def Counts (resource : String) : Prop :=
  d.About settings resource ∧ ¬ d.Aggregated settings

instance (resource : String) : Decidable (d.About settings resource) :=
  inferInstanceAs (Decidable (_ ∧ _))

instance : Decidable (d.Current settings) :=
  decidable_of_iff (d.obs.expected = .active ∧ d.complete = true ∧ d.obs.observedAt ≤ d.now
      ∧ numSeconds d.now d.obs.observedAt ≤ settings.freshness)
    ⟨fun h => ⟨h.1, h.2.1, h.2.2.1, h.2.2.2⟩, fun h => ⟨h.active, h.complete, h.past, h.fresh⟩⟩

instance : Decidable (d.Aggregated settings) :=
  inferInstanceAs (Decidable (_ ∧ _))

instance (resource : String) : Decidable (d.Counts settings resource) :=
  inferInstanceAs (Decidable (_ ∧ _))

end Delivery

/-- A finite reading of a positive capacity over less than the span, at these
thresholds and at or above `limit` percent. -/
structure Delivery.Gauge.High (settings : Settings) (warning error limit : Reading)
    (g : Delivery.Gauge) : Prop where
  point : g.window < settings.capacitySustain.seconds
  value : g.value.isFinite = true
  capacity : g.capacity.isFinite = true
  warning : g.warning = warning
  error : g.error = error
  above : limit.le (g.value.percentOf g.capacity) = true

/-- A current reading at or above the limit. -/
def Delivery.High (settings : Settings) (warning error limit : Reading) (d : Delivery) : Prop :=
  d.Current settings ∧ ∃ g ∈ d.gauge? settings, g.High settings warning error limit

/-- No further apart than the freshness limit. -/
def Delivery.Close (settings : Settings) (d d' : Delivery) : Prop :=
  numSeconds d'.obs.observedAt d.obs.observedAt ≤ settings.freshness

/-- Evaluations one after the other; each hands its reading on to the log. -/
def readings (settings : Settings) : Process (Table Pressure) Delivery Delivery where
  step state d := ((evaluate state d.obs settings d.complete d.now).1, [d])

theorem readings_log (settings : Settings) (state : Table Pressure) (log : List Delivery) :
    ((readings settings).run state log).2 = log := by
  induction log generalizing state with
  | nil => rfl
  | cons d log ih => rw [Process.run_cons, ih]; rfl

/-! ## What one evaluation does to the clocks of its resource -/

section Move

variable {settings : Settings} {state : Table Pressure} {d : Delivery} {g : Delivery.Gauge}

theorem evaluate_gauge (hg : d.gauge? settings = some g) :
    evaluate state d.obs settings d.complete d.now
      = if d.obs.inactive then (state.erase d.obs.resource, some (result .expectedInactive))
        else if !d.complete || d.now < d.obs.observedAt
            || numSeconds d.now d.obs.observedAt > settings.freshness then
          (state.erase d.obs.resource, none)
        else if settings.capacitySustain.seconds ≤ g.window then (state, none)
        else if !g.value.isFinite || g.value.lt (Reading.ofNat 0) || !g.capacity.isFinite
            || g.capacity.le (Reading.ofNat 0) then
          (state.erase d.obs.resource, some (result .unknown))
        else
          evaluatePoint state d.obs settings (g.value.percentOf g.capacity) g.warning g.error := by
  unfold Delivery.gauge? at hg
  unfold evaluate
  cases hdata : d.obs.data with
  | metric metric =>
      obtain ⟨name, value, capacity, warning, error, window⟩ := metric
      rw [hdata] at hg
      cases capacity with
      | none => cases hg
      | some capacity =>
          cases hg
          rfl
  | _ =>
      rw [hdata] at hg
      cases hg

theorem evaluate_no_gauge (hg : d.gauge? settings = none) :
    evaluate state d.obs settings d.complete d.now = (state, none) := by
  unfold Delivery.gauge? at hg
  unfold evaluate
  cases hdata : d.obs.data with
  | metric metric =>
      obtain ⟨name, value, capacity, warning, error, window⟩ := metric
      rw [hdata] at hg
      cases capacity with
      | none => rfl
      | some capacity => cases hg
  | _ => rfl

/-- The clocks of the resource after the evaluation, and the verdict. -/
inductive Move (settings : Settings) (state : Table Pressure) (d : Delivery) :
    Table Pressure × Option Evaluation → Prop
  | pass : ¬ d.Counts settings d.obs.resource → Move settings state d (state, none)
  | drop {out : Table Pressure × Option Evaluation} : out.1[d.obs.resource]? = none →
      (∀ e ∈ out.2, e.findings = []) → Move settings state d out
  | late {p : Pressure} : state[d.obs.resource]? = some p → d.obs.observedAt < p.lastSeen →
      d.Counts settings d.obs.resource →
        Move settings state d (state.insert d.obs.resource p, some (result .unknown))
  | move {g : Delivery.Gauge} {p : Pressure} : d.gauge? settings = some g →
      d.Current settings → d.Counts settings d.obs.resource →
      (∀ limit, limit.le (g.value.percentOf g.capacity) = true →
        d.High settings g.warning g.error limit) →
      p = advance (entry state d.obs g.warning g.error) d.obs.observedAt
        (g.value.percentOf g.capacity) g.warning g.error settings.freshness →
        Move settings state d (state.insert d.obs.resource p,
          some (judge d.obs settings p (g.value.percentOf g.capacity)))

theorem evaluate_move :
    Move settings state d (evaluate state d.obs settings d.complete d.now) := by
  cases hg : d.gauge? settings with
  | none =>
      rw [evaluate_no_gauge hg]
      refine .pass fun h => ?_
      have hsome := h.1.2
      rw [hg] at hsome
      cases hsome
  | some g =>
      have herased : (state.erase d.obs.resource)[d.obs.resource]? = none :=
        Std.ExtTreeMap.getElem?_erase_self
      have habout : d.About settings d.obs.resource := ⟨rfl, by rw [hg]; rfl⟩
      rw [evaluate_gauge hg]
      split
      · refine .drop herased fun e he => ?_
        rw [← Option.mem_some_iff.mp he]
        rfl
      rename_i hactive
      split
      · exact .drop herased (by rintro e ⟨⟩)
      rename_i hcurrent
      have hcurrent : d.Current settings := by
        simp only [Observation.inactive, Bool.or_eq_true, Bool.not_eq_true', decide_eq_true_eq,
          not_or, Bool.not_eq_false, not_lt] at hactive hcurrent
        exact ⟨not_not.mp hactive, hcurrent.1.1, hcurrent.1.2, hcurrent.2⟩
      split
      · rename_i hwindow
        exact .pass fun h => h.2 ⟨hcurrent, g, hg, hwindow⟩
      rename_i hwindow
      have hcounts : d.Counts settings d.obs.resource := by
        refine ⟨habout, fun h => ?_⟩
        obtain ⟨_, g', hg', hle⟩ := h
        rw [hg, Option.mem_some_iff] at hg'
        exact hwindow (hg' ▸ hle)
      split
      · refine .drop herased fun e he => ?_
        rw [← Option.mem_some_iff.mp he]
        rfl
      rename_i hvalid
      simp only [Bool.or_eq_true, Bool.not_eq_true', not_or, Bool.not_eq_false] at hvalid
      unfold evaluatePoint
      split
      · rename_i hfull
        refine .drop ?_ fun e he => ?_
        · rw [Bool.and_eq_true, Bool.not_eq_true'] at hfull
          cases hp : state[d.obs.resource]? with
          | none => rfl
          | some p =>
              have hmem := Table.mem_iff_getElem?.mpr ⟨p, hp⟩
              rw [Std.ExtTreeMap.contains_iff_mem.mpr hmem] at hfull
              cases hfull.2
        · rw [← Option.mem_some_iff.mp he]
          rfl
      dsimp only
      split
      · rename_i hlate
        have hentry : state[d.obs.resource]?
            = some (entry state d.obs g.warning g.error) := by
          unfold entry at hlate ⊢
          cases hp : state[d.obs.resource]? with
          | some p => rfl
          | none =>
              rw [hp] at hlate
              exact absurd hlate (lt_irrefl _)
        exact .late hentry hlate hcounts
      · refine .move hg hcurrent hcounts (fun limit hle => ⟨hcurrent, g, hg, ?_⟩) rfl
        exact ⟨not_le.mp hwindow, hvalid.1.1.1, hvalid.1.2, rfl, rfl, hle⟩

end Move

/-! ## The clocks -/

/-- A clock that runs has run since the first reading of a stretch. -/
def Runs (settings : Settings) (log : List Delivery) (warning error limit : Reading)
    (since : Option Time) (lastSeen : Time) : Prop :=
  ∀ t ∈ since, ∃ first rest,
    Stretch (Delivery.High settings warning error limit) (Delivery.Close settings) log
      (first :: rest)
    ∧ first.obs.observedAt = t
    ∧ ∀ last ∈ (first :: rest).getLast?, last.obs.observedAt = lastSeen

theorem Runs.next {settings : Settings} {log : List Delivery} {warning error limit : Reading}
    {since : Option Time} {lastSeen : Time} {d : Delivery} {above reset : Bool}
    (hold : reset = false → Runs settings log warning error limit since lastSeen
      ∧ numSeconds d.obs.observedAt lastSeen ≤ settings.freshness)
    (hhigh : above = true → d.High settings warning error limit) :
    Runs settings (log ++ [d]) warning error limit
      (sustain above (if reset then none else since) d.obs.observedAt) d.obs.observedAt := by
  intro t ht
  unfold sustain at ht
  split at ht
  · rename_i habove
    cases hsince : (if reset then none else since) with
    | none =>
        rw [hsince, Option.getD_none, Option.mem_some_iff] at ht
        refine ⟨d, [], .start (hhigh habove), ht, fun last hlast => ?_⟩
        rw [List.getLast?_singleton, Option.mem_some_iff] at hlast
        rw [hlast]
    | some since' =>
        rw [hsince, Option.getD_some, Option.mem_some_iff] at ht
        subst ht
        split at hsince
        · cases hsince
        · rename_i hreset
          obtain ⟨hruns, hclose⟩ := hold (by simpa using hreset)
          obtain ⟨first, rest, hstretch, hfirst, hlast⟩ := hruns since' hsince
          refine ⟨first, rest ++ [d], ?_, hfirst, fun last h => ?_⟩
          · refine hstretch.extend (hhigh habove) fun last h => ?_
            rw [Delivery.Close, hlast last h]
            exact hclose
          · rw [← List.cons_append, List.getLast?_append, List.getLast?_singleton,
              Option.some_or, Option.mem_some_iff] at h
            rw [h]
  · cases ht

/-- The clocks of a resource run over stretches of the readings they go by. -/
structure Clocked (settings : Settings) (log : List Delivery) (p : Pressure) : Prop where
  seen : ∃ d ∈ log, d.obs.observedAt = p.lastSeen
  warning : Runs settings log p.warning p.error p.warning p.warningSince p.lastSeen
  error : Runs settings log p.warning p.error p.error p.errorSince p.lastSeen

section Step

variable {settings : Settings} {log : List Delivery} {state : Table Pressure} {d : Delivery}
  {p : Pressure} {resource : String}

/-- The readings of a resource that the clocks go by. -/
def counted (settings : Settings) (resource : String) (log : List Delivery) : List Delivery :=
  log.filter fun d => d.Counts settings resource

theorem counted_append_of_counts (h : d.Counts settings resource) :
    counted settings resource (log ++ [d]) = counted settings resource log ++ [d] := by
  rw [counted, List.filter_append, List.filter_cons_of_pos (by simpa using h), List.filter_nil,
    counted]

theorem counted_append_of_not (h : ¬ d.Counts settings resource) :
    counted settings resource (log ++ [d]) = counted settings resource log := by
  rw [counted, List.filter_append, List.filter_cons_of_neg (by simpa using h), List.filter_nil,
    List.append_nil, counted]

theorem Runs.congr {w e l w' e' l' : Reading} {since : Option Time} {last : Time}
    (h : Runs settings log w e l since last) (hw : w = w') (he : e = e') (hl : l = l') :
    Runs settings log w' e' l' since last := by
  rw [← hw, ← he, ← hl]
  exact h

theorem eq_of_eq {a b : Reading} (h : a.eq b = true) : a = b := by
  cases a <;> cases b <;> simp_all [Reading.eq]

/-- With the thresholds unchanged, the clocks a reading starts from run. -/
theorem entry_runs {warning error : Reading}
    (h : ∀ p, state[d.obs.resource]? = some p → Clocked settings log p)
    (hwarning : (entry state d.obs warning error).warning.eq warning = true)
    (herror : (entry state d.obs warning error).error.eq error = true) :
    Runs settings log warning error warning (entry state d.obs warning error).warningSince
        (entry state d.obs warning error).lastSeen
      ∧ Runs settings log warning error error (entry state d.obs warning error).errorSince
        (entry state d.obs warning error).lastSeen := by
  cases hp : state[d.obs.resource]? with
  | none =>
      rw [entry, hp, Option.getD_none]
      exact ⟨by rintro t ⟨⟩, by rintro t ⟨⟩⟩
  | some p =>
      rw [entry, hp, Option.getD_some] at hwarning herror ⊢
      have hclocked := h p hp
      have hw := eq_of_eq hwarning
      have he := eq_of_eq herror
      exact ⟨hclocked.warning.congr hw he hw, hclocked.error.congr hw he he⟩

/-- The clocks after one more reading run over stretches. -/
theorem Clocked.advance {value warning error : Reading}
    (h : ∀ p, state[d.obs.resource]? = some p → Clocked settings log p)
    (hhigh : ∀ limit, limit.le value = true → d.High settings warning error limit) :
    Clocked settings (log ++ [d])
      (advance (entry state d.obs warning error) d.obs.observedAt value warning error
        settings.freshness) := by
  have hentry := @entry_runs settings log state d warning error h
  generalize entry state d.obs warning error = p at hentry
  have hold : (decide (numSeconds d.obs.observedAt p.lastSeen > settings.freshness)
      || !p.warning.eq warning || !p.error.eq error) = false →
        numSeconds d.obs.observedAt p.lastSeen ≤ settings.freshness
          ∧ p.warning.eq warning = true ∧ p.error.eq error = true := by
    intro hreset
    simp only [Bool.or_eq_false_iff, decide_eq_false_iff_not, not_lt,
      Bool.not_eq_false'] at hreset
    exact ⟨hreset.1.1, hreset.1.2, hreset.2⟩
  refine ⟨⟨d, by simp, rfl⟩, ?_, ?_⟩
  · exact Runs.next
      (fun hreset => ⟨(hentry (hold hreset).2.1 (hold hreset).2.2).1, (hold hreset).1⟩)
      (hhigh warning)
  · exact Runs.next
      (fun hreset => ⟨(hentry (hold hreset).2.1 (hold hreset).2.2).2, (hold hreset).1⟩)
      (hhigh error)

/-- Nothing is delivered before what was delivered already. -/
def Ordered (settings : Settings) (resource : String) (log : List Delivery) : Prop :=
  (counted settings resource log).Pairwise fun d d' => d.obs.observedAt ≤ d'.obs.observedAt

theorem readings_tracks (settings : Settings) (resource : String) :
    (readings settings).Tracks (fun _ => True) fun log state =>
      Ordered settings resource log → ∀ p, state[resource]? = some p →
        Clocked settings (counted settings resource log) p := by
  rintro log state d - ih hordered p hp
  by_cases hresource : d.obs.resource = resource
  · subst hresource
    have hmove := @evaluate_move settings state d
    simp only [readings] at hordered hp ⊢
    generalize evaluate state d.obs settings d.complete d.now = out at hmove hp
    cases hmove with
    | pass hpass =>
        rw [counted_append_of_not hpass]
        rw [Ordered, counted_append_of_not hpass] at hordered
        exact ih hordered p hp
    | drop hnone =>
        rw [hnone] at hp
        cases hp
    | late hp' hlate hcounts =>
        rw [Ordered, counted_append_of_counts hcounts] at hordered
        obtain ⟨hbefore, _, hle⟩ := List.pairwise_append.mp hordered
        obtain ⟨last, hlast, hseen⟩ := (ih hbefore _ hp').seen
        have := hle last hlast d (List.mem_singleton_self d)
        rw [hseen] at this
        exact absurd hlate (not_lt.mpr this)
    | move hg hcurrent hcounts hhigh hadvance =>
        rw [counted_append_of_counts hcounts]
        rw [Ordered, counted_append_of_counts hcounts] at hordered
        rw [Std.ExtTreeMap.getElem?_insert_self, Option.some.injEq] at hp
        rw [← hp, hadvance]
        exact Clocked.advance (ih (List.pairwise_append.mp hordered).1) hhigh
  · have hnot : ¬ d.Counts settings resource := fun h => hresource h.1.1
    have hp : state[resource]? = some p :=
      (evaluate_frame (Ne.symm hresource)).symm.trans hp
    simp only [readings] at hordered ⊢
    rw [counted_append_of_not hnot]
    rw [Ordered, counted_append_of_not hnot] at hordered
    exact ih hordered p hp

end Step

/-! ## Soundness -/

section Soundness

variable {settings : Settings} {state : Table Pressure} {d : Delivery} {p : Pressure}
  {f : Finding} {value : Reading}

/-- The limit a finding of the severity is about. -/
def limitOf (severity : Severity) (warning error : Reading) : Reading :=
  if severity = .error then error else warning

theorem span_of_sustained {time : Time} {clock : Option Time}
    (h : sustained settings time clock = true) :
    ∃ since, clock = some since
      ∧ since + settings.capacitySustain.seconds * nanosPerSecond ≤ time := by
  rw [sustained, Option.any_eq_true] at h
  obtain ⟨since, hsince, hle⟩ := h
  rw [decide_eq_true_eq] at hle
  exact ⟨since, hsince, (le_numSeconds settings.capacitySustain.positive).mp hle⟩

/-- A finding of the verdict rests on the clock of its severity. -/
theorem sustained_of_judge {obs : Observation}
    (h : f ∈ (judge obs settings p value).findings) :
    ∃ since, (f.severity = .error ∧ p.errorSince = some since
        ∨ f.severity = .warning ∧ p.warningSince = some since)
      ∧ since + settings.capacitySustain.seconds * nanosPerSecond ≤ obs.observedAt := by
  unfold judge at h
  split at h
  · rename_i hsustained
    obtain ⟨since, hsince, hle⟩ := span_of_sustained hsustained
    rw [fault, List.mem_singleton] at h
    exact ⟨since, .inl ⟨h ▸ rfl, hsince⟩, hle⟩
  split at h
  · rename_i hsustained
    obtain ⟨since, hsince, hle⟩ := span_of_sustained hsustained
    rw [fault, List.mem_singleton] at h
    exact ⟨since, .inr ⟨h ▸ rfl, hsince⟩, hle⟩
  · cases h

/-- An evaluation that reports a finding left the clock of its severity running
for the span. -/
theorem clock_of_finding {e : Evaluation}
    (h : (evaluate state d.obs settings d.complete d.now).2 = some e) (hf : f ∈ e.findings) :
    ∃ g p since, d.gauge? settings = some g ∧ d.Counts settings d.obs.resource
      ∧ (evaluate state d.obs settings d.complete d.now).1[d.obs.resource]? = some p
      ∧ p.warning = g.warning ∧ p.error = g.error
      ∧ (f.severity = .error ∧ p.errorSince = some since
        ∨ f.severity = .warning ∧ p.warningSince = some since)
      ∧ since + settings.capacitySustain.seconds * nanosPerSecond ≤ d.obs.observedAt := by
  have hmove := @evaluate_move settings state d
  generalize evaluate state d.obs settings d.complete d.now = out at hmove h
  cases hmove with
  | pass => cases h
  | drop _ hnone =>
      rw [hnone e h] at hf
      cases hf
  | late =>
      cases h
      cases hf
  | @move g p hg _ hcounts _ hadvance =>
      cases h
      obtain ⟨since, hclock, hle⟩ := sustained_of_judge hf
      refine ⟨g, p, since, hg, hcounts, Std.ExtTreeMap.getElem?_insert_self, ?_, ?_, hclock, hle⟩
      · rw [hadvance, advance]
      · rw [hadvance, advance]

/-- **Sustain soundness.** A finding rests on a stretch of the resource's readings
as long as the span, all of them current and at or above the limit of its
severity, with no gap beyond the freshness limit; and every reading observed
since the stretch began is as high. -/
theorem pressure_sustained (settings : Settings) (log : List Delivery) (d : Delivery)
    (e : Evaluation) (f : Finding)
    (hordered : Ordered settings d.obs.resource (log ++ [d]))
    (hrepeats : ∀ a ∈ counted settings d.obs.resource (log ++ [d]),
      ∀ b ∈ counted settings d.obs.resource (log ++ [d]),
        a.obs.observedAt = b.obs.observedAt → a.obs = b.obs)
    (h : (evaluate ((readings settings).run ∅ log).1 d.obs settings d.complete d.now).2
      = some e)
    (hf : f ∈ e.findings) :
    ∃ g ∈ d.gauge? settings, ∃ first rest,
      Stretch
        (Delivery.High settings g.warning g.error (limitOf f.severity g.warning g.error))
        (Delivery.Close settings) (counted settings d.obs.resource (log ++ [d]))
        (first :: rest)
      ∧ first.obs.observedAt + settings.capacitySustain.seconds * nanosPerSecond
        ≤ d.obs.observedAt
      ∧ ∀ o ∈ counted settings d.obs.resource (log ++ [d]),
        first.obs.observedAt ≤ o.obs.observedAt → ∃ g' ∈ o.gauge? settings,
          g'.High settings g.warning g.error (limitOf f.severity g.warning g.error) := by
  obtain ⟨g, p, since, hg, _, hp, hwarning, herror, hclock, hle⟩ := clock_of_finding h hf
  have hclocked : Clocked settings (counted settings d.obs.resource (log ++ [d])) p := by
    refine readings_tracks settings d.obs.resource log ((readings settings).run ∅ log).1 d
      trivial ?_ hordered p hp
    have hrun := (readings_tracks settings d.obs.resource).run_start ∅ log
      (fun _ _ => trivial) fun _ p hp => by simp at hp
    rw [readings_log] at hrun
    exact hrun
  have hruns : Runs settings (counted settings d.obs.resource (log ++ [d])) g.warning g.error
      (limitOf f.severity g.warning g.error) (some since) p.lastSeen := by
    rcases hclock with ⟨hseverity, hsince⟩ | ⟨hseverity, hsince⟩
    · rw [limitOf, if_pos hseverity, ← hsince]
      exact hclocked.error.congr hwarning herror herror
    · rw [limitOf, if_neg (by rw [hseverity]; decide), ← hsince]
      exact hclocked.warning.congr hwarning herror hwarning
  obtain ⟨first, rest, hstretch, hfirst, _⟩ := hruns since rfl
  refine ⟨g, hg, first, rest, hstretch, hfirst ▸ hle, fun o ho hbegan => ?_⟩
  rcases hstretch.mem_or_level hordered ho hbegan with hmem | hlevel
  · exact (hstretch.good o hmem).2
  · -- a repeat of the reading the stretch begins with
    have hfirstmem := hstretch.suffix.subset List.mem_cons_self
    have hsame := hrepeats o ho first hfirstmem hlevel
    obtain ⟨g', hg', hhigh⟩ := (hstretch.good first List.mem_cons_self).2
    refine ⟨g', ?_, hhigh⟩
    rw [Delivery.gauge?, hsame]
    exact hg'

end Soundness

/-! ## Where a clock runs on -/

namespace Trial

/-- A reading of one metric, so many milliseconds after the epoch, in percent. -/
def delivery (time value window : Nat) (complete : Bool := true) : Delivery where
  obs :=
    { resource := "app/cpu", operation := "metrics", observedAt := time * 1000000
      data := .metric
        { name := "cpu", value := .ofNat value, capacity := some (.ofNat 100)
          warning := none, error := none, windowSeconds := window } }
  complete
  now := time * 1000000

def defaults : Settings := (HealthMonitor.Sample.job .metrics).settings

/-- Pressure is sustained after 90 seconds, and readings are fresh for 30. -/
def settings : Settings :=
  { defaults with
    capacitySustain := defaults.operationTimeout
    staleAfter := some defaults.sampleInterval }

/-- From some instant a whole span ago, every reading of the resource was current
and at or above the limit, and neighbours were no further apart than the limit. -/
def Unbroken (log : List Delivery) (d : Delivery) (severity : Severity) : Prop :=
  ∃ t, t + settings.capacitySustain.seconds * nanosPerSecond ≤ d.obs.observedAt
    ∧ (∀ e ∈ log ++ [d], e.About settings d.obs.resource → t ≤ e.obs.observedAt →
      e.Current settings ∧ ∃ g ∈ d.gauge? settings, ∃ g' ∈ e.gauge? settings,
        g'.value.isFinite = true ∧ g'.warning = g.warning ∧ g'.error = g.error
        ∧ (limitOf severity g.warning g.error).le (g'.value.percentOf g'.capacity) = true)
    ∧ ∀ before a b after, log ++ [d] = before ++ a :: b :: after → t ≤ a.obs.observedAt →
      b.obs.observedAt ≤ a.obs.observedAt + settings.freshness * nanosPerSecond

/-- The last reading of the run is a finding of the severity. -/
def Reports (log : List Delivery) (d : Delivery) (severity : Severity) : Prop :=
  ((evaluate ((readings settings).run ∅ log).1 d.obs settings d.complete d.now).2.any
    fun e => e.findings.any fun f => f.severity = severity) = true

instance (log : List Delivery) (d : Delivery) (severity : Severity) :
    Decidable (Reports log d severity) :=
  inferInstanceAs (Decidable (_ = true))

end Trial

open Trial in
/-- A clock runs on across a low reading that is aggregated over the whole span,
from a repeat of a reading that was incomplete, and across gaps of less than a
second more than the limit. -/
theorem reports_broken :
    (Reports [delivery 0 95 1, delivery 30000 95 1, delivery 45000 10 90, delivery 60000 95 1]
        (delivery 90000 95 1) .error
      ∧ ¬ Unbroken
        [delivery 0 95 1, delivery 30000 95 1, delivery 45000 10 90, delivery 60000 95 1]
        (delivery 90000 95 1) .error)
    ∧ (Reports [delivery 0 95 1 false, delivery 0 95 1, delivery 30000 95 1, delivery 60000 95 1]
        (delivery 90000 95 1) .error
      ∧ ¬ Unbroken
        [delivery 0 95 1 false, delivery 0 95 1, delivery 30000 95 1, delivery 60000 95 1]
        (delivery 90000 95 1) .error)
    ∧ (Reports [delivery 0 95 1, delivery 30500 95 1, delivery 61000 95 1]
        (delivery 91500 95 1) .error
      ∧ ¬ Unbroken [delivery 0 95 1, delivery 30500 95 1, delivery 61000 95 1]
        (delivery 91500 95 1) .error) := by
  have hbegan : ∀ t time : Time, t + settings.capacitySustain.seconds * nanosPerSecond ≤ time →
      t ≤ time - settings.capacitySustain.seconds * nanosPerSecond :=
    fun t time ht => Int.le_sub_right_of_add_le ht
  refine ⟨⟨by decide +kernel, ?_⟩, ⟨by decide +kernel, ?_⟩, ⟨by decide +kernel, ?_⟩⟩
  · rintro ⟨t, ht, hall, _⟩
    obtain ⟨_, g, hg, g', hg', _, _, _, habove⟩ := hall (delivery 45000 10 90) (by simp)
      (by decide +kernel) ((hbegan t _ ht).trans (by decide +kernel))
    cases hg
    cases hg'
    revert habove
    decide +kernel
  · rintro ⟨t, ht, hall, _⟩
    obtain ⟨hcurrent, _⟩ := hall (delivery 0 95 1 false) (by simp) (by decide +kernel)
      ((hbegan t _ ht).trans (by decide +kernel))
    cases hcurrent.complete
  · rintro ⟨t, ht, _, hclose⟩
    have hgap := hclose [delivery 0 95 1] (delivery 30500 95 1) (delivery 61000 95 1)
      [delivery 91500 95 1] rfl
      ((hbegan t _ ht).trans (by decide +kernel))
    revert hgap
    decide +kernel

open Trial in
/-- Four readings over 90 seconds are a finding on a stretch. -/
theorem pressure_sustained_readings :
    ∃ f : Finding, ∃ g ∈ (delivery 90000 95 1).gauge? settings, ∃ first rest,
      Stretch
        (Delivery.High settings g.warning g.error (limitOf f.severity g.warning g.error))
        (Delivery.Close settings)
        (counted settings "app/cpu" ([delivery 0 95 1, delivery 30000 92 1, delivery 60000 92 1]
          ++ [delivery 90000 95 1]))
        (first :: rest)
      ∧ first.obs.observedAt + settings.capacitySustain.seconds * nanosPerSecond
        ≤ (delivery 90000 95 1).obs.observedAt
      ∧ ∀ o ∈ counted settings "app/cpu"
          ([delivery 0 95 1, delivery 30000 92 1, delivery 60000 92 1]
            ++ [delivery 90000 95 1]),
        first.obs.observedAt ≤ o.obs.observedAt → ∃ g' ∈ o.gauge? settings,
          g'.High settings g.warning g.error (limitOf f.severity g.warning g.error) := by
  have hreport : (evaluate ((readings settings).run ∅
      [delivery 0 95 1, delivery 30000 92 1, delivery 60000 92 1]).1
        (delivery 90000 95 1).obs settings true (delivery 90000 95 1).now).2
      = some (fault (delivery 90000 95 1).obs "metric-threshold" .error .correlated) := by
    decide +kernel
  have hordered : (counted settings "app/cpu"
      ([delivery 0 95 1, delivery 30000 92 1, delivery 60000 92 1]
        ++ [delivery 90000 95 1])).Pairwise
        fun d d' => d.obs.observedAt ≤ d'.obs.observedAt := by
    decide +kernel
  exact ⟨_, pressure_sustained settings
    [delivery 0 95 1, delivery 30000 92 1, delivery 60000 92 1]
    (delivery 90000 95 1) _ _ hordered (by decide +kernel) hreport
    (List.mem_singleton_self _)⟩

end HealthMonitor.Capacity
