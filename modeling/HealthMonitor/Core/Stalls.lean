import HealthMonitor.Core.FlowVisits
import HealthMonitor.Core.Runs
import HealthMonitor.Library.Stretch

/-!
# Stalls

What stands behind a stage that is reported unhealthy, over a run of evaluations
of one flow job on whatever is stored each time: a span of joint samples of
demand and progress with demand in every one of them and no progress after the
first.
-/

namespace HealthMonitor.Flows

/-- One evaluation: what is stored, and when. -/
structure Tick where
  snapshot : Snapshot
  now : Time
  clock : Time

/-- Evaluations one after the other. The progress table is carried along. -/
def evaluating (job : Job) : Process (Table Progress) Tick Tick where
  step progress tick :=
    ((evaluate { tick.snapshot with progress } job tick.now tick.clock).1.progress, [tick])

theorem evaluating_log (job : Job) (progress : Table Progress) (log : List Tick) :
    ((evaluating job).run progress log).2 = log := by
  induction log generalizing progress with
  | nil => rfl
  | cons tick log ih => rw [Process.run_cons, ih]; rfl

section Samples

variable (job : Job) (place : Place)

def Tick.sign (tick : Tick) : Sign := Flows.sign tick.snapshot job tick.now place

/-- The stage met no demand. -/
def Tick.Idle (tick : Tick) : Prop := ∃ time, tick.sign job place = .idle time

/-- One more tick: its sample is kept if it is newer than the last. -/
def record (samples : List Joint) (tick : Tick) : List Joint :=
  match tick.sign job place with
  | .joint sample =>
      if samples.getLast?.all (·.time < sample.time) then samples ++ [sample] else samples
  | _ => samples

/-- The joint samples of some ticks, each newer than the one before. -/
def samples (ticks : List Tick) : List Joint :=
  ticks.foldl (record job place) []

end Samples

/-- No progress from one sample to a later one: a counter that did not move, a
rate that is not positive. -/
def Still (mode : SignalMode) (first s : Joint) : Prop :=
  match mode with
  | .counter => s.value = first.value
  | .rate => s.value.le (Reading.ofNat 0) = true

/-- Neighbours: the second is later, but not by more than the freshness limit. -/
def Next (job : Job) (s s' : Joint) : Prop :=
  s.time < s'.time ∧ numSeconds s'.time s.time ≤ job.settings.freshness

/-- The last ticks of a log in which the stage always met demand, with their
samples: none of them shows progress after the first. -/
structure Standstill (job : Job) (place : Place) (log since : List Tick) (first : Joint)
    (rest : List Joint) : Prop where
  stretch : Stretch (fun tick => ¬ tick.Idle job place) (fun _ _ => True) log since
  samples : samples job place since = first :: rest
  demanded : ∀ s ∈ first :: rest, (Reading.ofNat 0).lt s.demand = true
  finite : ∀ s ∈ first :: rest, s.value.isFinite = true
  linked : (first :: rest).IsChain (Next job)
  still : ∀ s ∈ rest, Still place.2.mode first s

section Samples

variable {job : Job} {place : Place} {log since : List Tick} {tick : Tick} {sample : Joint}
  {first : Joint} {rest : List Joint}

theorem samples_append (ticks : List Tick) (tick : Tick) :
    samples job place (ticks ++ [tick]) = record job place (samples job place ticks) tick := by
  rw [samples, List.foldl_append, List.foldl_cons, List.foldl_nil, samples]

/-- No sample of the ticks is newer than the last one kept. -/
theorem samples_last {ticks : List Tick} (htick : tick ∈ ticks)
    (hsign : tick.sign job place = .joint sample) :
    ∃ last ∈ (samples job place ticks).getLast?, sample.time ≤ last.time := by
  induction ticks using List.reverseRecOn with
  | nil => cases htick
  | append_singleton ticks last ih =>
      rw [samples_append, record]
      rcases List.mem_append.mp htick with hmem | hmem
      · obtain ⟨kept, hkept, hle⟩ := ih hmem
        split
        · split
          · rename_i newer _ hnewer
            refine ⟨newer, by simp, hle.trans ?_⟩
            rw [Option.mem_def.mp hkept, Option.all_some, decide_eq_true_eq] at hnewer
            exact le_of_lt hnewer
          · exact ⟨kept, hkept, hle⟩
        · exact ⟨kept, hkept, hle⟩
      · rw [List.mem_singleton.mp hmem] at hsign
        rw [hsign]
        dsimp only
        split
        · exact ⟨sample, by simp, le_rfl⟩
        · rename_i hnot
          cases hlast : (samples job place ticks).getLast? with
          | none =>
              rw [hlast] at hnot
              exact absurd rfl hnot
          | some kept =>
              rw [hlast, Option.all_some, decide_eq_true_eq] at hnot
              exact ⟨kept, rfl, not_lt.mp hnot⟩

/-- A span that starts with this tick. -/
theorem Standstill.start (hsign : tick.sign job place = .joint sample) :
    Standstill job place (log ++ [tick]) [tick] sample [] where
  stretch := by
    refine .start ?_
    rintro ⟨time, hidle⟩
    rw [hsign] at hidle
    cases hidle
  samples := by
    rw [← List.nil_append [tick], samples_append, record, hsign]
    rfl
  demanded s hs := by
    rw [List.mem_singleton.mp hs]
    exact (joint_of_sign hsign).1
  finite s hs := by
    rw [List.mem_singleton.mp hs]
    exact (joint_of_sign hsign).2.1
  linked := List.isChain_singleton sample
  still s hs := by cases hs

/-- A tick without a newer sample. -/
theorem Standstill.pass (h : Standstill job place log since first rest)
    (hidle : ¬ tick.Idle job place)
    (hold : ∀ sample, tick.sign job place = .joint sample →
      ∀ last ∈ (first :: rest).getLast?, sample.time ≤ last.time) :
    Standstill job place (log ++ [tick]) (since ++ [tick]) first rest where
  stretch := h.stretch.extend hidle fun _ _ => trivial
  samples := by
    rw [samples_append, record, h.samples]
    split
    · rename_i sample hsign
      rw [if_neg]
      intro hnewer
      have hlast := List.getLast?_eq_getLast_of_ne_nil (List.cons_ne_nil first rest)
      rw [hlast, Option.all_some, decide_eq_true_eq] at hnewer
      exact absurd hnewer (not_lt.mpr (hold sample hsign _ hlast))
    · rfl
  demanded := h.demanded
  finite := h.finite
  linked := h.linked
  still := h.still

/-- A tick with a newer sample that shows no progress. -/
theorem Standstill.grow (h : Standstill job place log since first rest)
    (hsign : tick.sign job place = .joint sample)
    (hnext : ∀ last ∈ (first :: rest).getLast?, Next job last sample)
    (hstill : Still place.2.mode first sample) :
    Standstill job place (log ++ [tick]) (since ++ [tick]) first (rest ++ [sample]) where
  stretch := by
    refine h.stretch.extend ?_ fun _ _ => trivial
    rintro ⟨time, hidle⟩
    rw [hsign] at hidle
    cases hidle
  samples := by
    rw [samples_append, record, h.samples, hsign]
    dsimp only
    rw [if_pos, List.cons_append]
    rw [Option.all_eq_true]
    intro last hlast
    exact decide_eq_true (hnext last hlast).1
  demanded s hs := by
    rw [← List.cons_append] at hs
    rcases List.mem_append.mp hs with hs | hs
    · exact h.demanded s hs
    · rw [List.mem_singleton.mp hs]
      exact (joint_of_sign hsign).1
  finite s hs := by
    rw [← List.cons_append] at hs
    rcases List.mem_append.mp hs with hs | hs
    · exact h.finite s hs
    · rw [List.mem_singleton.mp hs]
      exact (joint_of_sign hsign).2.1
  linked := by
    rw [← List.cons_append]
    refine h.linked.append (List.isChain_singleton sample) fun last hlast s hs => ?_
    rw [List.head?_cons, Option.mem_some_iff] at hs
    exact hs ▸ hnext last hlast
  still s hs := by
    rcases List.mem_append.mp hs with hs | hs
    · exact h.still s hs
    · rw [List.mem_singleton.mp hs]
      exact hstill

end Samples

/-! ## The record of a stage -/

/-- The record goes by a standstill: it holds the time of the first sample, and
the last one. -/
def Watched (job : Job) (place : Place) (log : List Tick) (p : Progress) : Prop :=
  ∃ since first rest, Standstill job place log since first rest
    ∧ first.time = p.lastProgress
    ∧ ∀ last ∈ (first :: rest).getLast?, last.time = p.lastSeen ∧ last.value = p.value

section Watched

variable {job : Job} {place : Place} {log : List Tick} {tick : Tick} {sample : Joint}
  {p : Progress}

theorem Watched.start {established : Bool} (hsign : tick.sign job place = .joint sample) :
    Watched job place (log ++ [tick])
      { value := sample.value, lastSeen := sample.time, lastProgress := sample.time
        established } := by
  refine ⟨[tick], sample, [], .start hsign, rfl, fun last hlast => ?_⟩
  rw [List.getLast?_singleton, Option.mem_some_iff] at hlast
  exact hlast ▸ ⟨rfl, rfl⟩

theorem Watched.pass (h : Watched job place log p) (hidle : ¬ tick.Idle job place)
    (hold : ∀ sample, tick.sign job place = .joint sample → sample.time ≤ p.lastSeen) :
    Watched job place (log ++ [tick]) p := by
  obtain ⟨since, first, rest, hspan, hfirst, hlast⟩ := h
  refine ⟨since ++ [tick], first, rest, hspan.pass hidle fun sample hsign last hl => ?_,
    hfirst, hlast⟩
  rw [(hlast last hl).1]
  exact hold sample hsign

/-- The record of a tick that is part of the log already is not behind it. -/
theorem Watched.seen (h : Watched job place (log ++ [tick]) p)
    (hsign : tick.sign job place = .joint sample) : sample.time ≤ p.lastSeen := by
  obtain ⟨since, first, rest, hspan, _, hlast⟩ := h
  have hmem : tick ∈ since := by
    have hne : since ≠ [] := by
      rintro rfl
      have := hspan.samples
      cases this
    obtain ⟨older, holder⟩ := hspan.stretch.suffix
    rw [← List.dropLast_append_getLast hne, ← List.append_assoc] at holder
    have := (List.append_inj' holder rfl).2
    rw [List.cons.injEq] at this
    exact this.1 ▸ List.getLast_mem hne
  obtain ⟨last, hl, hle⟩ := samples_last hmem hsign
  rw [hspan.samples] at hl
  exact (hlast last hl).1 ▸ hle

theorem eq_of_not_lt {a b : Reading} (ha : a.isFinite = true) (hb : b.isFinite = true)
    (hab : a.lt b = false) (hba : b.lt a = false) : a = b := by
  cases a with
  | finite v =>
      cases b with
      | finite w =>
          rw [Reading.lt, decide_eq_false_iff_not] at hab hba
          rw [le_antisymm (not_lt.mp hba) (not_lt.mp hab)]
      | _ => cases hb
  | _ => cases ha

theorem not_positive {a : Reading} (ha : a.isFinite = true)
    (h : (Reading.ofNat 0).lt a = false) : a.le (Reading.ofNat 0) = true := by
  cases a with
  | finite v =>
      simp only [Reading.ofNat, Reading.lt, decide_eq_false_iff_not, not_lt, Reading.le,
        Reading.eq, Bool.or_eq_true, decide_eq_true_eq] at h ⊢
      exact h.lt_or_eq
  | _ => cases ha

/-- A newer sample starts the record again, or shows no progress. -/
theorem advance_cases (settings : Settings) (mode : SignalMode) (p : Progress) (value : Reading)
    (time : Time) :
    (∃ established, advance settings mode p value time
        = { value, lastSeen := time, lastProgress := time, established })
    ∨ (advance settings mode p value time
        = { value, lastSeen := time, lastProgress := p.lastProgress, established := true }
      ∧ numSeconds time p.lastSeen ≤ settings.freshness
      ∧ (mode = .counter → value.lt p.value = false ∧ p.value.lt value = false)
      ∧ (mode = .rate → (Reading.ofNat 0).lt value = false)) := by
  obtain ⟨moved, hcounter, hrate, he⟩ : ∃ moved : Bool,
      (mode = .counter → moved = p.value.lt value)
      ∧ (mode = .rate → moved = (Reading.ofNat 0).lt value)
      ∧ advance settings mode p value time
        = let restarts := numSeconds time p.lastSeen > settings.freshness
            || (value.lt p.value && mode == .counter)
          { value, lastSeen := time
            lastProgress := if restarts || moved then time else p.lastProgress
            established := !restarts } :=
    ⟨_, by rintro rfl; rfl, by rintro rfl; rfl, rfl⟩
  rw [he]
  dsimp only
  split
  · exact .inl ⟨_, rfl⟩
  · rename_i hgoes
    rw [Bool.not_eq_true, Bool.or_eq_false_iff, Bool.or_eq_false_iff, Bool.and_eq_false_iff,
      decide_eq_false_iff_not, not_lt] at hgoes
    obtain ⟨⟨hclose, hreset⟩, hmoved⟩ := hgoes
    refine .inr ⟨?_, hclose, fun hmode => ?_, fun hmode => ?_⟩
    · rw [decide_eq_false (not_lt.mpr hclose), Bool.false_or, Bool.and_eq_false_iff.mpr hreset,
        Bool.not_false]
    · rw [hmode] at hreset
      exact ⟨hreset.resolve_right (by decide), (hcounter hmode).symm.trans hmoved⟩
    · exact (hrate hmode).symm.trans hmoved

/-- A newer sample: the record starts again or goes on. -/
theorem Watched.advance (h : Watched job place log p)
    (hsign : tick.sign job place = .joint sample) (hnewer : p.lastSeen < sample.time) :
    Watched job place (log ++ [tick])
      (advance job.settings place.2.mode p sample.value sample.time) := by
  obtain ⟨established, he⟩ | ⟨he, hclose, hcounter, hrate⟩ :=
    advance_cases job.settings place.2.mode p sample.value sample.time
  · rw [he]
    exact .start hsign
  · rw [he]
    obtain ⟨since, first, rest, hspan, hfirst, hlast⟩ := h
    have hl := List.getLast?_eq_getLast_of_ne_nil (List.cons_ne_nil first rest)
    have hlastMem := List.getLast_mem (List.cons_ne_nil first rest)
    generalize (first :: rest).getLast (List.cons_ne_nil first rest) = last at hl hlastMem
    obtain ⟨hseen, hvalue⟩ := hlast last hl
    have hfinite := (joint_of_sign hsign).2.1
    have hpfinite := hvalue ▸ hspan.finite last hlastMem
    refine ⟨since ++ [tick], first, rest ++ [sample], hspan.grow hsign ?_ ?_, hfirst, ?_⟩
    · intro last' hl'
      rw [Next, (hlast last' hl').1]
      exact ⟨hnewer, hclose⟩
    · unfold Still
      cases hmode : place.2.mode with
      | counter =>
          obtain ⟨hdown, hup⟩ := hcounter hmode
          have hsame := eq_of_not_lt hfinite hpfinite hdown hup
          have hstill := hspan.still
          rw [hmode] at hstill
          rcases List.mem_cons.mp hlastMem with rfl | hmem
          · exact hsame.trans hvalue.symm
          · exact hsame.trans (hvalue.symm.trans (hstill last hmem))
      | rate => exact not_positive hfinite (hrate hmode)
    · intro last' hl'
      rw [← List.cons_append, List.getLast?_append, List.getLast?_singleton, Option.some_or,
        Option.mem_some_iff] at hl'
      exact hl' ▸ ⟨rfl, rfl⟩

end Watched

/-! ## Visits -/

/-- The stages that share the key of a place read the same signals the same way. -/
def Agrees (job : Job) (place : Place) : Prop :=
  ∀ other ∈ places job.target, key job.target other = key job.target place →
    other.1.demand = place.1.demand ∧ other.1.idleAfter = place.1.idleAfter
      ∧ other.2.progress = place.2.progress ∧ other.2.mode = place.2.mode

instance (job : Job) (place : Place) : Decidable (Agrees job place) :=
  inferInstanceAs (Decidable (∀ other ∈ places job.target, _))

/-- What makes a stage unhealthy: its record shows no progress for the idle time. -/
def Overdue (job : Job) (place : Place) (log : List Tick) : Prop :=
  ∃ p time, Watched job place log p ∧ time ≤ p.lastSeen
    ∧ place.1.idleAfter.seconds ≤ numSeconds time p.lastProgress

section Visits

variable {job : Job} {place other : Place} {log : List Tick} {tick : Tick}
  {progress : Table Progress} {sample : Joint}

/-- A visit with a sample. -/
theorem follow_watched (hkey : key job.target other = key job.target place)
    (hmode : other.2.mode = place.2.mode)
    (hsign : tick.sign job place = .joint sample)
    (h : ∀ p, progress[key job.target place]? = some p →
      Watched job place log p ∨ Watched job place (log ++ [tick]) p) :
    (∀ p, (follow job other.1 other.2 progress sample.value sample.time).progress[
        key job.target place]? = some p → Watched job place (log ++ [tick]) p)
    ∧ ((follow job other.1 other.2 progress sample.value sample.time).state = .unhealthy →
      ∃ p, Watched job place (log ++ [tick]) p ∧ sample.time ≤ p.lastSeen
        ∧ other.1.idleAfter.seconds ≤ numSeconds sample.time p.lastProgress) := by
  have hstage : job.target.stageKey other.1 other.2 = key job.target place := hkey
  unfold follow
  rw [hstage]
  dsimp only
  split
  · rename_i p hp
    -- the record after the visit
    have hnext : Watched job place (log ++ [tick])
          (if p.lastSeen < sample.time
            then advance job.settings other.2.mode p sample.value sample.time else p)
        ∧ sample.time ≤ (if p.lastSeen < sample.time
            then advance job.settings other.2.mode p sample.value sample.time
            else p).lastSeen := by
      split
      · rename_i hnewer
        refine ⟨?_, le_refl sample.time⟩
        rcases h p hp with hbefore | hafter
        · rw [hmode]
          exact hbefore.advance hsign hnewer
        · exact absurd hnewer (not_lt.mpr (hafter.seen hsign))
      · rename_i hold
        refine ⟨?_, not_lt.mp hold⟩
        rcases h p hp with hbefore | hafter
        · refine hbefore.pass ?_ fun s hs => ?_
          · rintro ⟨time, hidle⟩
            rw [hsign] at hidle
            cases hidle
          · rw [hsign] at hs
            cases hs
            exact not_lt.mp hold
        · exact hafter
    simp only [decide_eq_true_eq]
    generalize hrecord : (if p.lastSeen < sample.time
      then advance job.settings other.2.mode p sample.value sample.time else p) = next at *
    refine ⟨fun p' hp' => ?_, fun hstate => ?_⟩
    · split at hp'
      · rw [Std.ExtTreeMap.getElem?_insert_self, Option.some.injEq] at hp'
        exact hp' ▸ hnext.1
      · rename_i hold
        rw [if_neg hold] at hrecord
        rw [hp, Option.some.injEq, hrecord] at hp'
        exact hp' ▸ hnext.1
    · split at hstate
      · cases hstate
      · split at hstate
        · rename_i hidle
          exact ⟨next, hnext.1, hnext.2, hidle⟩
        · cases hstate
  · rename_i hp
    split
    · refine ⟨fun p hp' => ?_, fun hstate => ?_⟩
      · rw [Std.ExtTreeMap.getElem?_insert_self, Option.some.injEq] at hp'
        rw [← hp']
        exact .start hsign
      · dsimp only at hstate
        split at hstate <;> cases hstate
    · refine ⟨fun p hp' => ?_, fun hstate => ?_⟩
      · rw [hp] at hp'
        cases hp'
      · cases hstate

/-- A visit to the key of the place. -/
theorem visit_watched (hactive : job.target.expected = .active)
    (hkey : key job.target other = key job.target place)
    (hmode : other.2.mode = place.2.mode)
    (hidle : other.1.idleAfter = place.1.idleAfter)
    (hsame : sign tick.snapshot job tick.now other = tick.sign job place)
    (h : ∀ p, progress[key job.target place]? = some p →
      Watched job place log p ∨ Watched job place (log ++ [tick]) p) :
    (∀ p, (evaluateStage tick.snapshot job tick.now other.1 progress other.2).progress[
        key job.target place]? = some p → Watched job place (log ++ [tick]) p)
    ∧ ((evaluateStage tick.snapshot job tick.now other.1 progress other.2).state = .unhealthy →
      Overdue job place (log ++ [tick])) := by
  rw [evaluateStage_sign hactive, hsame]
  cases hsign : tick.sign job place with
  | idle time =>
      refine ⟨fun p hp => ?_, by rintro ⟨⟩⟩
      rw [hkey, Std.ExtTreeMap.getElem?_erase_self] at hp
      cases hp
  | missing =>
      refine ⟨fun p hp => ?_, by rintro ⟨⟩⟩
      rcases h p hp with hbefore | hafter
      · refine hbefore.pass ?_ fun s hs => ?_
        · rintro ⟨time, hidle⟩
          rw [hsign] at hidle
          cases hidle
        · rw [hsign] at hs
          cases hs
      · exact hafter
  | joint sample =>
      obtain ⟨hprogress, hstate⟩ := follow_watched hkey hmode hsign h
      dsimp only
      refine ⟨fun p hp => ?_, fun hunhealthy => ?_⟩
      · rw [checkWorkload_progress] at hp
        exact hprogress p hp
      · unfold Stage.checkWorkload at hunhealthy
        split at hunhealthy
        · obtain ⟨p, hwatched, hle, hover⟩ := hstate hunhealthy
          exact ⟨p, sample.time, hwatched, hle, hidle ▸ hover⟩
        · cases hunhealthy

/-- What the visits of one tick keep for a place. -/
structure Toured (job : Job) (place : Place) (log : List Tick) (tick : Tick)
    (visits : List (Place × Stage)) (progress : Table Progress) : Prop where
  record : ∀ p, progress[key job.target place]? = some p →
    Watched job place log p ∨ Watched job place (log ++ [tick]) p
  visited : (∃ v ∈ visits, key job.target v.1 = key job.target place) →
    ∀ p, progress[key job.target place]? = some p → Watched job place (log ++ [tick]) p
  reports : ∀ v ∈ visits, key job.target v.1 = key job.target place →
    v.2.state = .unhealthy → Overdue job place (log ++ [tick])

theorem visiting_tracks (hactive : job.target.expected = .active) (hagrees : Agrees job place) :
    (visiting tick.snapshot job tick.now).Tracks (· ∈ places job.target)
      fun visits progress => Toured job place log tick visits progress := by
  intro visits progress other hother h
  by_cases hkey : key job.target other = key job.target place
  · obtain ⟨hdemand, hidle, hread, hmode⟩ := hagrees other hother hkey
    have hsame : sign tick.snapshot job tick.now other = tick.sign job place := by
      rw [Tick.sign, sign, sign, hdemand, hread]
    obtain ⟨hwatched, hover⟩ := visit_watched hactive hkey hmode hidle hsame h.record
    refine ⟨fun p hp => .inr (hwatched p hp), fun _ => hwatched, fun v hv hvkey hstate => ?_⟩
    rcases List.mem_append.mp hv with hv | hv
    · exact h.reports v hv hvkey hstate
    · rw [List.mem_singleton.mp hv] at hstate
      exact hover hstate
  · have hframe : (evaluateStage tick.snapshot job tick.now other.1 progress
        other.2).progress[key job.target place]? = progress[key job.target place]? :=
      evaluateStage_frame (Ne.symm hkey)
    refine ⟨fun p hp => h.record p (hframe ▸ hp), fun hvisited p hp => ?_,
      fun v hv hvkey hstate => ?_⟩
    · obtain ⟨v, hv, hvkey⟩ := hvisited
      rcases List.mem_append.mp hv with hv | hv
      · exact h.visited ⟨v, hv, hvkey⟩ p (hframe ▸ hp)
      · rw [List.mem_singleton.mp hv] at hvkey
        exact absurd hvkey hkey
    · rcases List.mem_append.mp hv with hv | hv
      · exact h.reports v hv hvkey hstate
      · rw [List.mem_singleton.mp hv] at hvkey
        exact absurd hvkey hkey

end Visits

/-! ## Soundness -/

section Soundness

variable {job : Job} {place : Place} {log : List Tick} {tick : Tick}

/-- One tick, from a record that is watched. -/
theorem toured (hactive : job.target.expected = .active) (hagrees : Agrees job place)
    {progress : Table Progress}
    (h : ∀ p, progress[key job.target place]? = some p → Watched job place log p) :
    Toured job place log tick
      ((visiting tick.snapshot job tick.now).run progress (places job.target)).2
      ((visiting tick.snapshot job tick.now).run progress (places job.target)).1 := by
  refine (visiting_tracks hactive hagrees).run_start progress (places job.target)
    (fun _ => id) ⟨fun p hp => .inl (h p hp), ?_, ?_⟩
  · rintro ⟨v, hv, _⟩
    cases hv
  · intro v hv
    cases hv

theorem evaluating_tracks (hplace : place ∈ places job.target)
    (hactive : job.target.expected = .active) (hagrees : Agrees job place) :
    (evaluating job).Tracks (fun _ => True) fun log progress =>
      ∀ p, progress[key job.target place]? = some p → Watched job place log p := by
  intro log progress tick _ ih p hp
  have htoured := @toured job place log tick hactive hagrees progress ih
  simp only [evaluating, evaluate_progress, visiting_results] at hp ⊢
  refine htoured.visited ?_ p hp
  have hmem : place ∈ (((visiting tick.snapshot job tick.now).run progress
      (places job.target)).2.map Prod.fst) := by
    rw [visiting_places]
    exact hplace
  obtain ⟨v, hv, rfl⟩ := List.mem_map.mp hmem
  exact ⟨v, hv, rfl⟩

/-- A standstill as long as the idle time of the flow. -/
def Stalled (job : Job) (place : Place) (log : List Tick) : Prop :=
  ∃ since first rest, Standstill job place log since first rest
    ∧ ∃ last ∈ (first :: rest).getLast?,
      first.time + place.1.idleAfter.seconds * nanosPerSecond ≤ last.time

theorem stalled_of_overdue (h : Overdue job place log) : Stalled job place log := by
  obtain ⟨p, time, ⟨since, first, rest, hspan, hfirst, hlast⟩, hle, hover⟩ := h
  have hl := List.getLast?_eq_getLast_of_ne_nil (List.cons_ne_nil first rest)
  refine ⟨since, first, rest, hspan, _, hl, ?_⟩
  rw [(hlast _ hl).1, hfirst]
  exact ((le_numSeconds place.1.idleAfter.positive).mp hover).trans hle

/-- **Stall soundness.** As long as the stages that share the key of a stage read
the same signals, it is reported unhealthy only after a standstill that lasted
for the idle time. -/
theorem stall_supported (job : Job) (place : Place) (hplace : place ∈ places job.target)
    (hagrees : Agrees job place) (log : List Tick) (tick : Tick) (obs : Observation)
    (hobs : obs ∈ (evaluate
      { tick.snapshot with progress := ((evaluating job).run ∅ log).1 }
      job tick.now tick.clock).2.observations)
    (hresource : obs.resource = key job.target place)
    (hunhealthy : obs.data = .progress .unhealthy) :
    Stalled job place (log ++ [tick]) := by
  rw [evaluate_observations, visiting_results] at hobs
  obtain ⟨v, hv, rfl⟩ := List.mem_map.mp hobs
  have hstate : v.2.state = .unhealthy := by
    have h : Data.progress v.2.state = .progress .unhealthy := hunhealthy
    injection h
  by_cases hactive : job.target.expected = .active
  · have hwatched := (evaluating_tracks hplace hactive hagrees).run_start ∅ log
      (fun _ _ => trivial) fun p hp => by simp at hp
    rw [evaluating_log] at hwatched
    exact stalled_of_overdue ((toured hactive hagrees hwatched).reports v hv hresource hstate)
  · -- a target that is not active reports nothing else
    have hinactive : (visiting tick.snapshot job tick.now).Tracks (fun _ => True)
        fun visits _ => ∀ v ∈ visits, v.2.state = .expectedInactive := by
      intro visits progress other _ ih v hv
      rcases List.mem_append.mp hv with hv | hv
      · exact ih v hv
      · rw [List.mem_singleton.mp hv, evaluateStage_inactive hactive]
    have hall := hinactive.run_start ((evaluating job).run ∅ log).1 (places job.target)
      (fun _ _ => trivial) (by intro v hv; cases hv)
    rw [hall v hv] at hstate
    cases hstate

end Soundness

end HealthMonitor.Flows

/-! ## Two stages of one key -/

namespace HealthMonitor.Sample

/-- A reading of a metric of the target, so many seconds after the epoch. -/
def gauge (name : String) (time value : Nat) : Observation where
  resource := "app/" ++ name
  operation := "telemetry"
  observedAt := sec time
  data := .metric
    { name, value := .ofNat value, capacity := none, warning := none, error := none
      windowSeconds := 0 }

/-- The telemetry of the target is all that is stored. -/
def telemetry (time : Nat) (readings : List (String × Nat)) : Flows.Tick where
  snapshot :=
    { start with
      results := start.results.insert "app/Metrics"
        (result .metrics (sec time) [operation "telemetry" (sec time)]
          (readings.map fun e => gauge e.1 time e.2)) }
  now := sec time
  clock := sec time

def minute : Span where
  seconds := 60

/-- A stage that counts what it completes. -/
def counting (name progress : String) : FlowStage where
  name
  progress
  mode := .counter
  workload := none

def pipeline (name : String) (stage : FlowStage) : Flow where
  name
  demand := "load"
  idleAfter := minute
  stages := [stage]

/-- Two flows whose stages have one key. -/
def forked : Job :=
  { job .flows with
    target :=
      { target with
        flows := [pipeline "a" (counting "b/c" "done"), pipeline "a/b" (counting "c" "out")] } }

/-- A flow of one stage. -/
def single : Job :=
  { job .flows with target := { target with flows := [pipeline "a" (counting "b" "done")] } }

end HealthMonitor.Sample

namespace HealthMonitor.Flows

open HealthMonitor.Sample in
/-- A stage that completes work is reported unhealthy when another stage of its
key does not. -/
theorem stall_unsupported :
    ∃ place ∈ places forked.target, ∃ obs ∈ (evaluate
        { (telemetry 120 [("load", 1), ("done", 5), ("out", 2)]).snapshot with
          progress := ((evaluating forked).run ∅
            [telemetry 0 [("load", 1), ("done", 5), ("out", 1)]]).1 }
        forked (sec 120) (sec 120)).2.observations,
      obs.resource = key forked.target place ∧ obs.data = .progress .unhealthy
      ∧ ¬ Stalled forked place ([telemetry 0 [("load", 1), ("done", 5), ("out", 1)]]
        ++ [telemetry 120 [("load", 1), ("done", 5), ("out", 2)]]) := by
  refine ⟨(pipeline "a/b" (counting "c" "out"), counting "c" "out"), by decide +kernel,
    { resource := "app/flows/a/b/c", operation := "flow/a/b", observedAt := sec 120
      data := .progress .unhealthy }, by decide +kernel, by decide +kernel, rfl, ?_⟩
  rintro ⟨since, first, rest, hspan, last, hlast, hidle⟩
  have hsince := (List.mem_tails _ _).mpr hspan.stretch.suffix
  have hall : ∀ since ∈ ([telemetry 0 [("load", 1), ("done", 5), ("out", 1)]]
        ++ [telemetry 120 [("load", 1), ("done", 5), ("out", 2)]]).tails,
      samples forked (pipeline "a/b" (counting "c" "out"), counting "c" "out") since
        ∈ [[⟨.ofNat 1, .ofNat 1, sec 0⟩, ⟨.ofNat 1, .ofNat 2, sec 120⟩],
          [⟨.ofNat 1, .ofNat 2, sec 120⟩], []] := by
    decide +kernel
  have hsamples := hall since hsince
  rw [hspan.samples] at hsamples
  simp only [List.mem_cons, List.cons.injEq, List.not_mem_nil, or_false, reduceCtorEq] at hsamples
  rcases hsamples with ⟨rfl, rfl⟩ | ⟨rfl, rfl⟩
  · have hstill : Reading.ofNat 2 = Reading.ofNat 1 :=
      hspan.still _ (List.mem_singleton_self _)
    revert hstill
    decide +kernel
  · rw [List.getLast?_singleton, Option.mem_some_iff] at hlast
    rw [← hlast] at hidle
    revert hidle
    decide +kernel

open HealthMonitor.Sample in
/-- A counter that stands still for two minutes is a standstill. -/
theorem stall_supported_single :
    Stalled single (pipeline "a" (counting "b" "done"), counting "b" "done")
      ([telemetry 0 [("load", 1), ("done", 5)]] ++ [telemetry 120 [("load", 1), ("done", 5)]]) :=
  stall_supported single _ (by decide +kernel) (by decide +kernel)
    [telemetry 0 [("load", 1), ("done", 5)]] (telemetry 120 [("load", 1), ("done", 5)])
    { resource := "app/flows/a/b", operation := "flow/a", observedAt := sec 120
      data := .progress .unhealthy }
    (by decide +kernel) (by decide +kernel) rfl

end HealthMonitor.Flows
