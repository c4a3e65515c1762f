import HealthMonitor.Core.Lifecycle
import HealthMonitor.Core.Runs
import Mathlib.Data.Finset.Basic

/-!
# TransitionLog

What the transitions of a run say about the findings of the snapshot. A run is
one long list of alarm events (`run_plays`), so everything the notices of an
alarm determine, the transitions of a run determine: which findings are active,
and, as long as no stale finding is refreshed silently, which of them are stale.
-/

namespace HealthMonitor

open Alarm (Event Notice Phase Standing eventsOf live noticesOf play)
open State

variable {host : Host}

/-! ## A run is a list of alarm events -/

/-- The alarm events of a journal entry. -/
def Entry.events (host : Host) : Entry → List (String × Event Severity)
  | applied a => a.events host
  | expired before freshness now => ageEvents before.findings freshness now

/-- The tables of a snapshot are orderly. -/
def Snapshot.Orderly (s : Snapshot) : Prop := State.Orderly s.findings s.retired

def Snapshot.alarms (s : Snapshot) : String → Phase Severity := phase s.findings s.retired

theorem new_orderly (revision : String) (scope : List String) (clock : Time) :
    (State.new revision scope clock).Orderly :=
  ⟨fun id f h => by simp [State.new] at h, fun id h => by simp [State.new] at h⟩

theorem new_alarms (revision : String) (scope : List String) (clock : Time) (id : String) :
    (State.new revision scope clock).alarms id = .idle := by
  simp [Snapshot.alarms, phase, State.new]

/-- A pass keeps the tables orderly and plays the events of its entries. -/
theorem pass_plays (s : Snapshot) (action : Action) (h : s.Orderly) :
    ((passes host).step s action).1.Orderly
    ∧ Plays s.findings s.retired
        (((passes host).step s action).2.flatMap (Entry.events host))
        ((passes host).step s action).1.findings ((passes host).step s action).1.retired
        (((passes host).step s action).2.flatMap (Entry.transitions host)) := by
  cases action with
  | collect job result now clock =>
      obtain ⟨ho, hp, _⟩ :=
        @Application.refines host { before := s, job, result, now, clock } h
      refine ⟨ho, ?_⟩
      simp only [passes, List.flatMap_cons, List.flatMap_nil, List.append_nil]
      exact hp
  | evaluateFlows job now clock =>
      obtain ⟨progress, he, _, _⟩ := Flows.evaluate_snapshot s job now clock
      simp only [passes, he]
      exact ⟨h, .nil⟩
  | restoreSamples key samples => exact ⟨h, .nil⟩
  | expire freshness now =>
      obtain ⟨ho, hp, _⟩ := expire_refines h freshness now
      refine ⟨ho, ?_⟩
      simp only [passes, List.flatMap_cons, List.flatMap_nil, List.append_nil]
      exact hp

/-- A run of passes plays the events of its journal. -/
theorem passes_play (s : Snapshot) (as : List Action) (h : s.Orderly) :
    ((passes host).run s as).1.Orderly
    ∧ Plays s.findings s.retired (((passes host).run s as).2.flatMap (Entry.events host))
        ((passes host).run s as).1.findings ((passes host).run s as).1.retired
        (((passes host).run s as).2.flatMap (Entry.transitions host)) := by
  have htracks : (passes host).Tracks (fun _ => True) fun log t => t.Orderly
      ∧ Plays s.findings s.retired (log.flatMap (Entry.events host)) t.findings t.retired
        (log.flatMap (Entry.transitions host)) := by
    rintro log t action _ ⟨ho, hp⟩
    obtain ⟨ho', hp'⟩ := @pass_plays host t action ho
    simp only [List.flatMap_append]
    exact ⟨ho', hp.append hp'⟩
  exact htracks.run_start s as (fun _ _ => trivial) ⟨h, .nil⟩

theorem run_plays (s : Snapshot) (steps : List Step) (h : s.Orderly) :
    ((monitor host).run s steps).1.Orderly
    ∧ Plays s.findings s.retired ((journal host s steps).flatMap (Entry.events host))
        ((monitor host).run s steps).1.findings ((monitor host).run s steps).1.retired
        ((monitor host).run s steps).2 := by
  rw [run_eq]
  exact passes_play s _ h

/-- The state before every entry of the journal is orderly. -/
theorem journal_orderly {s : Snapshot} {steps : List Step} (h : s.Orderly) :
    ∀ e ∈ journal host s steps, e.before.Orderly := by
  have htracks : (passes host).Tracks (fun _ => True) fun log t =>
      t.Orderly ∧ ∀ e ∈ log, e.before.Orderly := by
    rintro log t action _ ⟨ho, hlog⟩
    refine ⟨(pass_plays t action ho).1, fun e he => ?_⟩
    rcases List.mem_append.mp he with he | he
    · exact hlog e he
    · cases action with
      | collect => rw [List.mem_singleton.mp he]; exact ho
      | evaluateFlows => cases he
      | restoreSamples => cases he
      | expire => rw [List.mem_singleton.mp he]; exact ho
  exact (htracks.run_start s (actions host s steps) (fun _ _ => trivial)
    ⟨h, fun e he => by cases he⟩).2

/-! ## The notices of one finding -/

/-- The transitions of one finding, as notices. -/
def noticesFor (id : String) (log : List Transition) : List Notice :=
  noticesOf id (log.map Transition.notice)

theorem noticesFor_append (id : String) (log log' : List Transition) :
    noticesFor id (log ++ log') = noticesFor id log ++ noticesFor id log' := by
  rw [noticesFor, List.map_append, Alarm.noticesOf_append]
  rfl

theorem noticesFor_cons_self (t : Transition) (log : List Transition) :
    noticesFor t.finding (t :: log) = t.kind.notice :: noticesFor t.finding log := by
  simp [noticesFor, noticesOf, Transition.notice]

theorem noticesFor_eq_map (id : String) (log : List Transition) :
    noticesFor id log = (log.filter (·.finding = id)).map fun t => t.kind.notice := by
  rw [noticesFor, noticesOf, List.filter_map, List.map_map]
  rfl

theorem mem_noticesFor {id : String} {log : List Transition} {n : Notice} :
    n ∈ noticesFor id log ↔ ∃ t ∈ log, t.finding = id ∧ t.kind.notice = n := by
  rw [noticesFor_eq_map]
  simp [and_assoc]

theorem TransitionKind.notice_injective {j k : TransitionKind} (h : j.notice = k.notice) :
    j = k := by
  cases j <;> cases k <;> first | rfl | cases h

/-- The events and the notices of one finding are a life of its alarm. -/
theorem State.Plays.live {findings findings' : Table Finding} {retired retired' : Table Transition}
    {es : List (String × Event Severity)} {log : List Transition}
    (h : Plays findings retired es findings' retired' log) (id : String) :
    live (phase findings retired id) (eventsOf id es)
      = (phase findings' retired' id, noticesFor id log) := by
  obtain ⟨hphase, hnotices⟩ := Alarm.play_eq (phase findings retired) es id
  unfold Plays at h
  rw [h] at hphase hnotices
  exact Prod.ext hphase.symm hnotices.symm

/-! ## The active findings -/

/-- How a transition changes the set of active findings. -/
def tally (active : Finset String) (t : Transition) : Finset String :=
  match t.kind with
  | .new => insert t.finding active
  | .reappeared => insert t.finding active
  | .recovered => active.erase t.finding
  | .removed => active.erase t.finding
  | .worsened => active
  | .stale => active

/-- The tally accounts for each id on its own. -/
theorem mem_tally_iff (log : List Transition) (active : Finset String) (id : String) :
    id ∈ log.foldl tally active
      ↔ (noticesFor id log).foldl Alarm.account (decide (id ∈ active)) = true := by
  induction log generalizing active with
  | nil => simp [noticesFor, noticesOf]
  | cons t log ih =>
      rw [List.foldl_cons, ih]
      by_cases ht : t.finding = id
      · subst ht
        rw [noticesFor_cons_self, List.foldl_cons]
        have : decide (t.finding ∈ tally active t)
            = Alarm.account (decide (t.finding ∈ active)) t.kind.notice := by
          unfold tally
          cases t.kind <;> simp [Alarm.account, TransitionKind.notice]
        rw [this]
      · have hcons : noticesFor id (t :: log) = noticesFor id log := by
          simp [noticesFor, noticesOf, Transition.notice, ht]
        have : (id ∈ tally active t) = (id ∈ active) := by
          unfold tally
          cases t.kind <;> simp [Ne.symm ht]
        rw [hcons]
        simp only [this]

theorem isActive_phase {findings : Table Finding} {retired : Table Transition} {id : String} :
    (phase findings retired id).isActive = findings.contains id := by
  rw [Std.ExtTreeMap.contains_eq_isSome_getElem?]
  cases h : findings[id]? with
  | none => rw [phase_of_none h]; split <;> rfl
  | some f => rw [phase_of_some h]; rfl

/-- A detection finds its alarm idle only if the id was idle before the
pass. -/
theorem new_of_detections {p : Phase Severity} {es : List (Event Severity)}
    (hes : ∀ e ∈ es, ∃ severity, e = .detect severity) (h : .new ∈ (live p es).2) :
    p = .idle := by
  rcases Alarm.new_of_live h with h | h
  · exact h
  · obtain ⟨severity, he⟩ := hes _ h
    cases he

namespace State.Application

/-- A pass reports `New` only for ids that were neither active nor retired. -/
theorem new_idle {a : Application} (ho : a.before.Orderly) {t : Transition}
    (ht : t ∈ a.transitions host) (hk : t.kind = .new) :
    t.finding ∉ a.before.findings ∧ t.finding ∉ a.before.retired := by
  obtain ⟨_, hplays, _⟩ := @scanned_plays host a ho
  rw [transitions, List.mem_append, List.mem_append] at ht
  have hmem : t ∈ (a.scanned host).transitions := by
    rcases ht with (ht | ht) | ht
    · exact ht
    · obtain ⟨⟨id, kind⟩, hr, rfl⟩ := List.mem_map.mp ht
      have hr : (id, TransitionKind.new) ∈ (a.settled host).reports := hk ▸ hr
      rw [settled] at hr
      obtain ⟨f, _, hr⟩ := mem_settle_reports.mp hr
      rcases settleFinding_report (a.settling host) id f
        (a.prepared host).1.confirmations[confirmationKey (a.settling host).job id]?
        with h | h | h <;> rw [h] at hr <;> simp at hr
    · rw [expired] at ht
      obtain ⟨e, _, rfl⟩ := List.mem_map.mp ht
      cases hk
  have hnotice : Notice.new ∈ noticesFor t.finding (a.scanned host).transitions :=
    mem_noticesFor.mpr ⟨t, hmem, rfl, by rw [hk]; rfl⟩
  have hlive := hplays.live t.finding
  have hdetect : ∀ e ∈ eventsOf t.finding ((a.detections host).map detectEvent),
      ∃ severity, e = .detect severity := by
    intro e he
    simp only [eventsOf, List.mem_map, List.mem_filter] at he
    obtain ⟨ie, ⟨⟨f, _, rfl⟩, _⟩, rfl⟩ := he
    exact ⟨f.severity, rfl⟩
  have hidle := new_of_detections hdetect (by rw [hlive]; exact hnotice)
  cases hf : a.before.findings[t.finding]? with
  | some f =>
      rw [phase_of_some hf] at hidle
      cases hidle
  | none =>
      rw [phase_of_none hf] at hidle
      split at hidle
      · cases hidle
      · rename_i hret
        refine ⟨fun h => ?_, fun h => hret (Std.ExtTreeMap.contains_iff_mem.mpr h)⟩
        obtain ⟨f, hf'⟩ := Table.mem_iff_getElem?.mp h
        rw [hf] at hf'
        cases hf'

end State.Application

/-- Folding the transitions of a run yields the active findings. A finding is
reported `New` only when it is neither active nor retired, and ends only while
it is active. -/
theorem tally_eq_findings (host : Host) (revision : String) (scope : List String)
    (clock : Time) (steps : List Step) :
    let start := State.new revision scope clock
    let run := (monitor host).run start steps
    (∀ id, id ∈ run.2.foldl tally ∅ ↔ id ∈ run.1.findings)
    ∧ (∀ id ∈ run.1.findings, id ∉ run.1.retired)
    ∧ (∀ before t after, run.2 = before ++ t :: after →
        (t.kind = .new → t.finding ∉ before.foldl tally ∅)
        ∧ (t.kind = .recovered ∨ t.kind = .removed → t.finding ∈ before.foldl tally ∅))
    ∧ (∀ e ∈ journal host start steps, ∀ t ∈ e.transitions host, t.kind = .new →
        t.finding ∉ e.before.findings ∧ t.finding ∉ e.before.retired) := by
  intro start run
  have hstart : start.Orderly := new_orderly revision scope clock
  obtain ⟨horderly, hplays⟩ := @run_plays host start steps hstart
  have hlive : ∀ id, live (.idle : Phase Severity)
      (eventsOf id ((journal host start steps).flatMap (Entry.events host)))
      = (phase run.1.findings run.1.retired id, noticesFor id run.2) := by
    intro id
    have h := hplays.live id
    rwa [show phase start.findings start.retired id = .idle from
      new_alarms revision scope clock id] at h
  have haccount : ∀ id, Alarm.Consistent false (noticesFor id run.2)
      ∧ (noticesFor id run.2).foldl Alarm.account false = run.1.findings.contains id := by
    intro id
    have h := Alarm.live_account (.idle : Phase Severity)
      (eventsOf id ((journal host start steps).flatMap (Entry.events host)))
    rw [hlive id, isActive_phase] at h
    exact h
  refine ⟨fun id => ?_, horderly.disjoint, fun before t after hlog => ?_, fun e he t ht hk => ?_⟩
  · rw [mem_tally_iff]
    simp only [Finset.notMem_empty, decide_false, (haccount id).2]
    exact Std.ExtTreeMap.contains_iff_mem
  · have hconsistent := (haccount t.finding).1
    rw [hlog, noticesFor_append, noticesFor_cons_self] at hconsistent
    have hfits := hconsistent.fits
    have htally := mem_tally_iff before ∅ t.finding
    simp only [Finset.notMem_empty, decide_false] at htally
    constructor
    · intro hk
      rw [hk] at hfits
      rw [htally, show (noticesFor t.finding before).foldl Alarm.account false = false
        from hfits]
      simp
    · intro hk
      rw [htally]
      rcases hk with hk | hk <;> rw [hk] at hfits <;> exact hfits
  · have hbefore := journal_orderly hstart e he
    cases e with
    | applied a => exact a.new_idle hbefore ht hk
    | expired before freshness now =>
        obtain ⟨d, _, rfl⟩ := List.mem_map.mp ht
        cases hk

/-! ## The stale findings -/

namespace State.Application

/-- Clearing evidence arrives for a finding that was stale before the pass, but
not enough of it to recover. -/
def ClearsStale (host : Host) (a : Application) (id : String) : Prop :=
  ∃ f, a.before.findings[id]? = some f ∧ f.stale = true
    ∧ id ∉ (a.scanned host).current
    ∧ ((a.reconciled host).1.clearFor f).isSome = true
    ∧ saturatingSucc f.clearCount < a.job.settings.recoverConfirmations

instance (host : Host) (a : Application) (id : String) : Decidable (a.ClearsStale host id) :=
  decidable_of_iff
    (∃ f ∈ a.before.findings[id]?, f.stale = true ∧ id ∉ (a.scanned host).current
      ∧ ((a.reconciled host).1.clearFor f).isSome = true
      ∧ saturatingSucc f.clearCount < a.job.settings.recoverConfirmations)
    Iff.rfl

/-- The retired entries that a pass forgets. -/
def forgotten (host : Host) (a : Application) : List String :=
  trimmed (a.retirement host).retired a.job.settings.maxFindings

theorem eventsOf_append (id : String) (es fs : List (String × Event Severity)) :
    eventsOf id (es ++ fs) = eventsOf id es ++ eventsOf id fs := by
  simp [eventsOf]

/-- The detections of an id, as events. -/
theorem eventsOf_detections (ds : List Finding) (id : String) :
    eventsOf id (ds.map detectEvent)
      = (ds.filter (·.id = id)).map fun f => .detect f.severity := by
  rw [eventsOf, List.filter_map, List.map_map]
  rfl

/-- What a pass does to one alarm: detections, or one settlement of the finding
it started with; then trimming and aging. -/
theorem eventsOf_events (a : Application) (id : String) :
    eventsOf id (a.events host)
      = ((a.detections host).filter (·.id = id)).map (fun f => .detect f.severity)
        ++ (((a.scanned host).findings[id]?).map (a.settleEvent host id)).getD []
        ++ (if id ∈ a.forgotten host then [.forget] else [])
        ++ eventsOf id
            (ageEvents (a.retirement host).findings a.job.settings.freshness a.now) := by
  rw [events, eventsOf_append, eventsOf_append, eventsOf_append, eventsOf_detections,
    eventsOf_tableEvents, eventsOf_forgetEvents]
  rfl

/-- Events without a `clear` are audible. -/
theorem audible_of_notMem {p : Phase Severity} {es : List (Event Severity)}
    (h : .clear ∉ es) : Alarm.Audible p es := by
  induction es generalizing p with
  | nil => trivial
  | cons e es ih =>
      simp only [List.mem_cons, not_or] at h
      exact ⟨fun hs => h.1 hs.2.symm, ih h.2⟩

theorem clear_notMem_age (findings : Table Finding) (freshness : Nat) (now : Time)
    (id : String) : .clear ∉ eventsOf id (ageEvents findings freshness now) := by
  rw [ageEvents, eventsOf_tableEvents]
  cases findings[id]? with
  | none => simp
  | some f =>
      simp only [Option.map_some, Option.getD_some]
      split <;> simp

/-- A pass that refreshes no stale finding is audible. -/
theorem audible {a : Application} (ho : a.before.Orderly) {id : String}
    (h : ¬ a.ClearsStale host id) :
    Alarm.Audible (a.before.alarms id) (eventsOf id (a.events host)) := by
  obtain ⟨_, hplays, _⟩ := @scanned_plays host a ho
  have hphase := congrArg Prod.fst (hplays.live id)
  rw [eventsOf_detections] at hphase
  rw [eventsOf_events, List.append_assoc, List.append_assoc, Alarm.Audible.append_iff,
    Alarm.Audible.append_iff]
  refine ⟨audible_of_notMem (by simp), ?_, audible_of_notMem ?_⟩
  · rw [show (live (a.before.alarms id) _).1
      = phase (a.scanned host).findings (a.scanned host).retired id from hphase]
    cases hf : (a.scanned host).findings[id]? with
    | none => exact audible_of_notMem (by simp)
    | some f =>
        rw [phase_of_some hf]
        simp only [Option.map_some, Option.getD_some, settleEvent, settleEvents]
        split
        · trivial
        · rename_i hcur
          have hcur : id ∉ (a.scanned host).current := by simpa using hcur
          have hbefore : a.before.findings[id]? = some f := by
            rw [← hf, (scanned_stores.untouched hcur).1, start_findings]
          split
          · rename_i hclear
            split
            · exact audible_of_notMem (by simp)
            · rename_i hcount
              refine ⟨fun hs => h ⟨f, hbefore, ?_, hcur, hclear, ?_⟩, trivial⟩
              · have hoverdue := hs.1
                cases hstale : f.stale with
                | true => rfl
                | false =>
                    rw [hstale] at hoverdue
                    cases hoverdue
              · exact Nat.lt_of_not_le hcount
          · exact audible_of_notMem (by split <;> simp)
  · rw [List.mem_append]
    rintro (hmem | hmem)
    · split at hmem <;> simp at hmem
    · exact clear_notMem_age _ _ _ _ hmem

end State.Application

/-- The entry brings too little clearing evidence to a stale finding. -/
def Entry.Refreshes (host : Host) (id : String) : Entry → Prop
  | applied a => a.ClearsStale host id
  | expired _ _ _ => False

/-- The entry trims the retired entry of the id. -/
def Entry.Forgets (host : Host) (id : String) : Entry → Prop
  | applied a => id ∈ a.forgotten host
  | expired _ _ _ => False

instance (host : Host) (id : String) : DecidablePred (Entry.Refreshes host id)
  | .applied a => inferInstanceAs (Decidable (a.ClearsStale host id))
  | .expired _ _ _ => inferInstanceAs (Decidable False)

instance (host : Host) (id : String) : DecidablePred (Entry.Forgets host id)
  | .applied a => inferInstanceAs (Decidable (id ∈ a.forgotten host))
  | .expired _ _ _ => inferInstanceAs (Decidable False)

theorem Entry.audible {e : Entry} (ho : e.before.Orderly) {id : String}
    (h : ¬ e.Refreshes host id) :
    Alarm.Audible (e.before.alarms id) (eventsOf id (e.events host)) := by
  cases e with
  | applied a => exact a.audible ho h
  | expired before freshness now =>
      exact Application.audible_of_notMem (Application.clear_notMem_age _ _ _ _)

/-- The entries of one action start in the state the action finds. -/
theorem entry_before {s : Snapshot} {action : Action} :
    ((passes host).step s action).2 = []
    ∨ ∃ e : Entry, ((passes host).step s action).2 = [e] ∧ e.before = s := by
  cases action with
  | collect => exact .inr ⟨_, rfl, rfl⟩
  | evaluateFlows => exact .inl rfl
  | restoreSamples => exact .inl rfl
  | expire => exact .inr ⟨_, rfl, rfl⟩

/-- What the passes track of the journal and the state held before every entry. -/
theorem journal_tracks {I : List Entry → Snapshot → Prop}
    (h : (passes host).Tracks (fun _ => True) I) {s : Snapshot} (hs : I [] s)
    {steps : List Step} {before after : List Entry} {e : Entry}
    (hlog : journal host s steps = before ++ e :: after) : I before e.before := by
  have htracks : (passes host).Tracks (fun _ => True) fun log t => I log t
      ∧ ∀ before e after, log = before ++ e :: after → I before e.before := by
    rintro log t action - ⟨ht, hall⟩
    refine ⟨h log t action trivial ht, fun before e after hlog => ?_⟩
    rcases @entry_before host t action with hnil | ⟨new, hnew, hbefore⟩
    · rw [hnil, List.append_nil] at hlog
      exact hall before e after hlog
    · rw [hnew] at hlog
      -- the last entry is the new one, every other one is of the log
      rcases List.eq_nil_or_concat after with rfl | ⟨rest, last, rfl⟩
      · obtain ⟨rfl, he⟩ := List.append_inj' hlog rfl
        cases he
        rw [hbefore]
        exact ht
      · rw [List.concat_eq_append, ← List.cons_append, ← List.append_assoc] at hlog
        exact hall before e rest (List.append_inj' hlog rfl).1
  exact (htracks.run_start s (actions host s steps) (fun _ _ => trivial)
    ⟨hs, fun before e after hnil => by simp at hnil⟩).2 before e after hlog

theorem journal_audible {s : Snapshot} {steps : List Step} (hs : s.Orderly) {id : String}
    (h : ∀ e ∈ journal host s steps, ¬ e.Refreshes host id) :
    Alarm.Audible (s.alarms id)
      (eventsOf id ((journal host s steps).flatMap (Entry.events host))) := by
  have htracks : (passes host).Tracks (fun _ => True) fun log t =>
      (t.Orderly ∧ Plays s.findings s.retired (log.flatMap (Entry.events host))
          t.findings t.retired (log.flatMap (Entry.transitions host)))
      ∧ ((∀ e ∈ log, ¬ e.Refreshes host id) →
          Alarm.Audible (s.alarms id) (eventsOf id (log.flatMap (Entry.events host)))) := by
    rintro log t action _ ⟨⟨ho, hp⟩, haud⟩
    obtain ⟨ho', hp'⟩ := @pass_plays host t action ho
    refine ⟨⟨ho', ?_⟩, fun hall => ?_⟩
    · simp only [List.flatMap_append]
      exact hp.append hp'
    · rw [List.flatMap_append, Application.eventsOf_append, Alarm.Audible.append_iff]
      refine ⟨haud fun e he => hall e (List.mem_append_left _ he), ?_⟩
      have hphase : (live (s.alarms id) (eventsOf id (log.flatMap (Entry.events host)))).1
          = t.alarms id := congrArg Prod.fst (hp.live id)
      rw [hphase]
      rcases @entry_before host t action with hnil | ⟨e, he, hbefore⟩
      · rw [hnil]
        trivial
      · rw [he, List.flatMap_cons, List.flatMap_nil, List.append_nil, ← hbefore]
        exact e.audible (hbefore ▸ ho) (hall e (List.mem_append_right _ (by simp [he])))
  exact (htracks.run_start s (actions host s steps) (fun _ _ => trivial)
    ⟨⟨hs, .nil⟩, fun _ => trivial⟩).2 h

/-- What stands behind the events of an entry: a `detect` is a stored
detection, a `forget` a trimmed entry. -/
theorem Entry.mem_events {e : Entry} {id : String} {ev : Event Severity}
    (h : (id, ev) ∈ e.events host) :
    (∀ severity, ev = .detect severity →
      ∃ a, e = .applied a ∧ ∃ f ∈ a.detections host, f.id = id ∧ f.severity = severity)
    ∧ (ev = .forget → ∃ a, e = .applied a ∧ id ∈ a.forgotten host) := by
  have hage : ∀ (findings : Table Finding) (freshness : Nat) (now : Time),
      (id, ev) ∈ ageEvents findings freshness now → ev = .age := by
    intro findings freshness now hmem
    obtain ⟨d, _, hd⟩ := List.mem_flatMap.mp hmem
    obtain ⟨ev', hev, heq⟩ := List.mem_map.mp hd
    cases heq
    dsimp only at hev
    split at hev
    · exact List.mem_singleton.mp hev
    · cases hev
  cases e with
  | expired before freshness now =>
      have := hage _ _ _ h
      subst this
      exact ⟨fun _ h => (by cases h), fun h => (by cases h)⟩
  | applied a =>
      simp only [Entry.events, Application.events, List.mem_append] at h
      rcases h with ((h | h) | h) | h
      · obtain ⟨f, hf, heq⟩ := List.mem_map.mp h
        cases heq
        refine ⟨fun severity hs => ⟨a, rfl, f, hf, rfl, ?_⟩, fun h => (by cases h)⟩
        cases hs
        rfl
      · obtain ⟨d, _, hd⟩ := List.mem_flatMap.mp h
        obtain ⟨ev', hev, heq⟩ := List.mem_map.mp hd
        cases heq
        unfold Application.settleEvent settleEvents at hev
        constructor
        · rintro severity rfl
          split at hev
          · cases hev
          · split at hev
            · split at hev <;> simp at hev
            · split at hev <;> simp at hev
        · rintro rfl
          split at hev
          · cases hev
          · split at hev
            · split at hev <;> simp at hev
            · split at hev <;> simp at hev
      · obtain ⟨k, hk, heq⟩ := List.mem_map.mp h
        cases heq
        exact ⟨fun _ h => (by cases h), fun _ => ⟨a, rfl, hk⟩⟩
      · have := hage _ _ _ h
        subst this
        exact ⟨fun _ h => (by cases h), fun h => (by cases h)⟩

/-- The events of one id in a list of entries, with the entries they are of. -/
theorem mem_eventsOf {log : List Entry} {id : String} {ev : Event Severity} :
    ev ∈ eventsOf id (log.flatMap (Entry.events host))
      ↔ ∃ e ∈ log, (id, ev) ∈ e.events host := by
  simp only [eventsOf, List.mem_map, List.mem_filter, List.mem_flatMap]
  constructor
  · rintro ⟨⟨k, ev'⟩, ⟨⟨e, he, hev⟩, hk⟩, rfl⟩
    have hk : k = id := by simpa using hk
    subst hk
    exact ⟨e, he, hev⟩
  · rintro ⟨e, he, hev⟩
    exact ⟨(id, ev), ⟨⟨e, he, hev⟩, by simp⟩, rfl⟩

/-- As long as no pass refreshes the finding, when it is stale, with too little
clearing evidence, it is stale exactly when its last transition says so. As long
as its retired entry is not forgotten either, it reappears between two `Stale`
transitions. -/
theorem stale_iff_last_stale (host : Host) (revision : String) (scope : List String)
    (clock : Time) (steps : List Step) (id : String)
    (h : ∀ e ∈ journal host (State.new revision scope clock) steps, ¬ e.Refreshes host id) :
    let run := (monitor host).run (State.new revision scope clock) steps
    (∀ f, run.1.findings[id]? = some f →
      (f.stale = true
        ↔ ((run.2.filter (·.finding = id)).getLast?).map Transition.kind = some .stale))
    ∧ ((∀ e ∈ journal host (State.new revision scope clock) steps, ¬ e.Forgets host id) →
        ∀ before t middle u after, run.2 = before ++ t :: (middle ++ u :: after) →
          t.finding = id → t.kind = .stale → u.finding = id → u.kind = .stale →
            ∃ v ∈ middle, v.finding = id ∧ v.kind = .reappeared) := by
  intro run
  have hstart := new_orderly revision scope clock
  obtain ⟨_, hplays⟩ := @run_plays host _ steps hstart
  have hlive : live (.idle : Phase Severity) (eventsOf id
      ((journal host (State.new revision scope clock) steps).flatMap (Entry.events host)))
      = (phase run.1.findings run.1.retired id, noticesFor id run.2) := by
    have h := hplays.live id
    rwa [show phase (State.new revision scope clock).findings
      (State.new revision scope clock).retired id = .idle from
      new_alarms revision scope clock id] at h
  have hfollow : (noticesFor id run.2).foldlM Alarm.follow .out
      = some (phase run.1.findings run.1.retired id).standing := by
    have haudible := journal_audible hstart h
    rw [new_alarms] at haudible
    have := Alarm.live_follow haudible
    rwa [hlive] at this
  refine ⟨fun f hf => ?_, fun hkept before t middle u after hlog htid ht huid hu => ?_⟩
  · have hlast := Alarm.overdue_iff_getLast? hfollow (by decide)
    rw [phase_of_some hf, noticesFor_eq_map, List.getLast?_map] at hlast
    have hstanding : (Phase.active f.stale f.severity).standing = .overdue ↔ f.stale = true := by
      cases f.stale <;> simp [Phase.standing]
    rw [← hstanding, hlast]
    cases (run.2.filter (·.finding = id)).getLast? with
    | none => simp
    | some t =>
        simp only [Option.map_some, Option.some.injEq]
        exact ⟨fun hn => TransitionKind.notice_injective hn, fun hk => by rw [hk]; rfl⟩
  · have hcons : ∀ t : Transition, ∀ log, t.finding = id → t.kind = .stale →
        noticesFor id (t :: log) = .overdue :: noticesFor id log := by
      rintro t log rfl hk
      rw [noticesFor_cons_self, hk]
      rfl
    have hnotices : noticesFor id run.2
        = noticesFor id before
          ++ .overdue :: (noticesFor id middle ++ .overdue :: noticesFor id after) := by
      rw [hlog, noticesFor_append, hcons t _ htid ht, noticesFor_append, hcons u _ huid hu]
    have hbetween := hfollow
    rw [hnotices] at hbetween
    rcases Alarm.start_between_overdue hbetween with hmem | hmem
    · obtain ⟨v, hv, hvid, hk⟩ := mem_noticesFor.mp hmem
      exact ⟨v, hv, hvid, TransitionKind.notice_injective (k := .reappeared) hk⟩
    · -- it would be new again only if it had been forgotten
      have hforget := Alarm.new_after_notice ((congrArg Prod.snd hlive).trans hnotices)
        (List.mem_append_left _ hmem)
      obtain ⟨e, he, hev⟩ := mem_eventsOf.mp hforget
      obtain ⟨a, rfl, ha⟩ := (Entry.mem_events hev).2 rfl
      exact absurd ha (hkept _ he)

/-- A finding ages, one clearing observation refreshes it without a transition,
and it ages again. -/
def refreshingSteps : List Step :=
  [Sample.sighting .managed "app/web" "services" 0 false,
    .expire 690 (Sample.sec 700),
    Sample.sighting .managed "app/web" "services" (Sample.sec 701) true,
    .expire 690 (Sample.sec 1400)]

/-- A sighting by a job with room for one retired entry. -/
def narrowSighting (resource : String) (seconds : Nat) (healthy : Bool) : Step :=
  .apply
    { Sample.job .managed with
      settings := { (Sample.job .managed).settings with
        recoverConfirmations := 1, maxFindings := 1 } }
    (Sample.result .managed (Sample.sec seconds)
      [Sample.operation "services" (Sample.sec seconds)]
      [Sample.condition resource "services" (Sample.sec seconds) healthy])
    (Sample.sec seconds) (Sample.sec seconds)

/-- A finding ages and recovers, another one recovers, and the first ages again. -/
def trimmingSteps : List Step :=
  [narrowSighting "app/web" 0 false, .expire 690 (Sample.sec 700),
    narrowSighting "app/web" 701 true, narrowSighting "app/api" 702 false,
    narrowSighting "app/api" 703 true, narrowSighting "app/web" 704 false,
    .expire 690 (Sample.sec 1500)]

/-- A finding ages, is seen again, and ages again. -/
def reappearingSteps : List Step :=
  [Sample.sighting .managed "app/web" "services" 0 false,
    .expire 690 (Sample.sec 700),
    Sample.sighting .managed "app/web" "services" (Sample.sec 701) false,
    .expire 690 (Sample.sec 1400)]

/-- The refreshed finding is not stale although its last transition is `Stale`,
and the next expiry reports `Stale` a second time. A trimmed finding is `New`
between two `Stale` transitions. -/
theorem stale_repeats :
    let refreshed := (monitor Sample.machine).run Sample.start (refreshingSteps.take 3)
    let kinds := fun steps => (((monitor Sample.machine).run Sample.start steps).2.filter
      (·.finding = "app/web/ready")).map Transition.kind
    refreshed.1.findings["app/web/ready"]?.map Finding.stale = some false
    ∧ kinds (refreshingSteps.take 3) = [.new, .stale]
    ∧ kinds refreshingSteps = [.new, .stale, .stale]
    ∧ kinds trimmingSteps = [.new, .stale, .recovered, .new, .stale] := by
  decide +kernel

/-- A finding that ages twice has reappeared in between. -/
theorem stale_iff_last_stale_aging :
    let run := (monitor Sample.machine).run Sample.start reappearingSteps
    (∃ f, run.1.findings["app/web/ready"]? = some f ∧ f.stale = true
      ∧ ((run.2.filter (·.finding = "app/web/ready")).getLast?).map Transition.kind
        = some .stale)
    ∧ ∃ before t middle u after, run.2 = before ++ t :: (middle ++ u :: after)
      ∧ t.kind = .stale ∧ u.kind = .stale
      ∧ ∃ v ∈ middle, v.finding = "app/web/ready" ∧ v.kind = .reappeared := by
  intro run
  have hquiet : ∀ e ∈ journal Sample.machine Sample.start reappearingSteps,
      ¬ e.Refreshes Sample.machine "app/web/ready" := by
    decide +kernel
  have hkept : ∀ e ∈ journal Sample.machine Sample.start reappearingSteps,
      ¬ e.Forgets Sample.machine "app/web/ready" := by
    decide +kernel
  obtain ⟨hlast, hbetween⟩ := stale_iff_last_stale Sample.machine "" ["app"] 0 reappearingSteps
    "app/web/ready" hquiet
  have hstale : (run.1.findings["app/web/ready"]?).map Finding.stale = some true := by
    decide +kernel
  obtain ⟨f, hf, hflag⟩ := Option.map_eq_some_iff.mp hstale
  have hlog : run.2 = [run.2.get ⟨0, by decide +kernel⟩]
      ++ run.2.get ⟨1, by decide +kernel⟩ :: ([run.2.get ⟨2, by decide +kernel⟩]
        ++ run.2.get ⟨3, by decide +kernel⟩ :: []) := by
    decide +kernel
  refine ⟨⟨f, hf, hflag, (hlast f hf).mp hflag⟩, _, _, _, _, _, hlog, by decide +kernel,
    by decide +kernel, ?_⟩
  exact hbetween hkept _ _ _ _ _ hlog (by decide +kernel) (by decide +kernel)
    (by decide +kernel) (by decide +kernel)

end HealthMonitor
