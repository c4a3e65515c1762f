import HealthMonitor.Core.Expiry
import HealthMonitor.Core.Settlement
import HealthMonitor.Library.Alarm

/-!
# Lifecycle

The findings of a snapshot as a family of alarms: a stored finding is active, a
retired id is retired, every other id is idle. A pass over a result and an
expiry are each a list of alarm events; `Application.refines` and
`expire_refines` say that the tables move exactly as these events say and that
the emitted transitions are exactly the notices the events publish.
-/

namespace HealthMonitor

open Alarm (Event Notice Phase eventsOf live noticesOf play)

instance : LT Severity := ⟨fun a b => a.rank < b.rank⟩

instance : DecidableLT Severity := fun a b => inferInstanceAs (Decidable (a.rank < b.rank))

/-- The notice a transition publishes. -/
def TransitionKind.notice : TransitionKind → Notice
  | new => .new
  | worsened => .worsened
  | recovered => .recovered
  | stale => .overdue
  | removed => .removed
  | reappeared => .reappeared

def Transition.notice (t : Transition) : String × Notice := (t.finding, t.kind.notice)

namespace State

/-- The alarm of an id, as the two tables have it. -/
def phase (findings : Table Finding) (retired : Table Transition) (id : String) :
    Phase Severity :=
  match findings[id]? with
  | some finding => .active finding.stale finding.severity
  | none => if retired.contains id then .retired else .idle

/-- Findings are stored under their own id and are not retired. -/
structure Orderly (findings : Table Finding) (retired : Table Transition) : Prop where
  keyed : ∀ (id : String) (f : Finding), findings[id]? = some f → f.id = id
  disjoint : ∀ id ∈ findings, id ∉ retired

theorem phase_of_some {findings : Table Finding} {retired : Table Transition} {id : String}
    {f : Finding} (h : findings[id]? = some f) :
    phase findings retired id = .active f.stale f.severity := by
  simp [phase, h]

theorem phase_of_none {findings : Table Finding} {retired : Table Transition} {id : String}
    (h : findings[id]? = none) :
    phase findings retired id = if retired.contains id then .retired else .idle := by
  simp [phase, h]

/-- The events move the alarms from one pair of tables to another and publish
the notices of the transitions. -/
def Plays (findings : Table Finding) (retired : Table Transition)
    (es : List (String × Event Severity)) (findings' : Table Finding)
    (retired' : Table Transition) (ts : List Transition) : Prop :=
  play (phase findings retired) es
    = (phase findings' retired', ts.map Transition.notice)

theorem Plays.nil {findings : Table Finding} {retired : Table Transition} :
    Plays findings retired [] findings retired [] := rfl

theorem Plays.append {f₁ f₂ f₃ : Table Finding} {r₁ r₂ r₃ : Table Transition}
    {es es' : List (String × Event Severity)} {ts ts' : List Transition}
    (h : Plays f₁ r₁ es f₂ r₂ ts) (h' : Plays f₂ r₂ es' f₃ r₃ ts') :
    Plays f₁ r₁ (es ++ es') f₃ r₃ (ts ++ ts') := by
  unfold Plays at h h' ⊢
  rw [Alarm.play_append, h, h', List.map_append]

/-! ## Detections -/

def detectEvent (f : Finding) : String × Event Severity := (f.id, .detect f.severity)

variable {host : Host} {job : Job} {now : Time} {prior : Option Observation}
  {obs : Observation}

theorem detect_plays (scan : Scan) (finding : Finding) (hfresh : finding.stale = false) :
    ∃ ts, (detect host job now prior obs scan finding).transitions = scan.transitions ++ ts
      ∧ (∀ t ∈ ts, t.time = now)
      ∧ Plays scan.findings scan.retired
          ((if refuses job scan.findings finding.id then []
            else [recorded host job prior obs scan finding]).map detectEvent)
          (detect host job now prior obs scan finding).findings
          (detect host job now prior obs scan finding).retired ts := by
  have hid : (recorded host job prior obs scan finding).id = finding.id := rfl
  have hstale : (recorded host job prior obs scan finding).stale = false := hfresh
  unfold detect
  dsimp only
  generalize recorded host job prior obs scan finding = f at hid hstale ⊢
  split
  · exact ⟨[], by simp, by simp, rfl⟩
  · refine ⟨_, rfl, ?_, ?_⟩
    · intro t ht
      rw [Option.mem_toList, Option.map_eq_some_iff] at ht
      obtain ⟨kind, _, rfl⟩ := ht
      rfl
    · have hphase : Function.update (phase scan.findings scan.retired) f.id
          (.active false f.severity)
          = phase (scan.findings.insert f.id f) (scan.retired.erase f.id) := by
        funext id
        by_cases h : id = f.id
        · subst h
          rw [Function.update_self, phase_of_some (f := f) (by simp), hstale]
        · rw [Function.update_of_ne h]
          simp [phase, Table.getElem?_insert_ne h, Std.ExtTreeMap.contains_erase, Ne.symm h]
      simp only [Plays, List.map_cons, List.map_nil, detectEvent, play]
      have hnext : ∀ p : Phase Severity, Alarm.next p (.detect f.severity)
          = .active false f.severity := by
        intro p
        cases p <;> rfl
      rw [hnext, hphase]
      refine Prod.ext rfl ?_
      rw [List.append_nil]
      cases hprev : scan.findings[f.id]? with
      | none =>
          rw [phase_of_none hprev]
          cases scan.retired.contains f.id <;> rfl
      | some old =>
          rw [phase_of_some hprev]
          simp only [detectionKind, Alarm.emit]
          cases old.stale with
          | true => rfl
          | false =>
              have : (old.severity < f.severity) ↔ old.severity.rank < f.severity.rank :=
                Iff.rfl
              by_cases hlt : old.severity.rank < f.severity.rank
              · simp [hlt, this.mpr hlt, Transition.notice, TransitionKind.notice]
              · simp [hlt, mt this.mp hlt]

/-- A detection keeps the tables orderly. -/
theorem detect_orderly {scan : Scan} {finding : Finding}
    (h : Orderly scan.findings scan.retired) :
    Orderly (detect host job now prior obs scan finding).findings
      (detect host job now prior obs scan finding).retired := by
  unfold detect
  dsimp only
  generalize recorded host job prior obs scan finding = f
  split
  · exact h
  · refine ⟨fun id g hg => ?_, fun id hid => ?_⟩
    · rw [Std.ExtTreeMap.getElem?_insert] at hg
      split at hg
      · rename_i he
        cases hg
        simpa using he
      · exact h.keyed id g hg
    · rw [Std.ExtTreeMap.mem_insert] at hid
      rw [Std.ExtTreeMap.mem_erase]
      rintro ⟨hne, hret⟩
      rcases hid with he | hmem
      · exact hne he
      · exact h.disjoint id hmem hret

/-- What a scan does to the alarms, with the transitions it appends. -/
structure ScanPlays (now : Time) (scan after : Scan) (ds : List Finding) : Prop where
  orderly : Orderly scan.findings scan.retired → Orderly after.findings after.retired
  plays : ∃ ts, after.transitions = scan.transitions ++ ts ∧ (∀ t ∈ ts, t.time = now)
    ∧ Plays scan.findings scan.retired (ds.map detectEvent) after.findings after.retired ts

theorem ScanPlays.trans {a b c : Scan} {ds es : List Finding} (h : ScanPlays now a b ds)
    (h' : ScanPlays now b c es) : ScanPlays now a c (ds ++ es) := by
  obtain ⟨ts, ht, htime, hplays⟩ := h.plays
  obtain ⟨us, hu, hutime, hplays'⟩ := h'.plays
  refine ⟨fun ho => h'.orderly (h.orderly ho), ts ++ us, ?_, ?_, ?_⟩
  · rw [hu, ht, List.append_assoc]
  · intro t hmem
    rcases List.mem_append.mp hmem with hmem | hmem
    · exact htime t hmem
    · exact hutime t hmem
  · rw [List.map_append]
    exact hplays.append hplays'

theorem accepted_plays (e : Evaluation) (he : Evaluation.Verdict obs e) (scan : Scan) :
    ScanPlays now scan (e.findings.foldl (detect host job now prior obs) scan)
      (accepted host job now prior obs scan e.findings) := by
  cases he with
  | result => exact ⟨id, [], by simp [Policy.result], by simp, rfl⟩
  | fault rule severity confidence =>
      simp only [Policy.fault, accepted, List.append_nil, List.foldl_cons, List.foldl_nil]
      exact ⟨detect_orderly, detect_plays scan _ rfl⟩

theorem detections_plays (l : List Observation) : ∀ scan : Scan,
    ScanPlays now scan (l.foldl (scanObservation host job now) scan)
      (detections host job now scan l) := by
  induction l with
  | nil => exact fun _ => ⟨id, [], by simp, by simp, rfl⟩
  | cons obs rest ih =>
      intro scan
      have hnote : ScanPlays now scan (note host job now scan obs) [] :=
        ⟨id, [], by simp, by simp, rfl⟩
      exact (hnote.trans (accepted_plays _ evaluated_verdict _)).trans (ih _)

/-! ## Settling and retiring -/

/-- The event of one settled finding. -/
def settleEvents (s : Settling) (id : String) (finding : Finding)
    (confirmation : Option RemovalConfirmation) : List (Event Severity) :=
  if s.current.contains id then []
  else if (s.index.clearFor finding).isSome then
    if s.job.settings.recoverConfirmations ≤ saturatingSucc finding.clearCount then [.recover]
    else [.clear]
  else if (settleFinding s id finding confirmation).report.isEmpty then []
  else [.remove]

/-- The event moves the alarm of a finding to the one it leaves, and publishes
its report. -/
theorem settleEvents_live (s : Settling) (id : String) (finding : Finding)
    (confirmation : Option RemovalConfirmation) :
    live (.active finding.stale finding.severity) (settleEvents s id finding confirmation)
      = (if (settleFinding s id finding confirmation).report = [] then
            .active (settleFinding s id finding confirmation).value.stale finding.severity
          else .retired,
        (settleFinding s id finding confirmation).report.map fun e => e.2.notice) := by
  have h := settles s id finding confirmation
  unfold settleEvents
  generalize settleFinding s id finding confirmation = visit at h ⊢
  cases h with
  | detected h => simp [h]
  | cleared hid time h report hreport =>
      subst hreport
      simp only [List.contains_iff_mem, hid, if_false, h, Option.isSome_some, if_true]
      split
      · simp [Alarm.live_cons, Alarm.next, Alarm.emit, TransitionKind.notice]
      · simp [Alarm.live_cons, Alarm.next, Alarm.emit, cleared]
  | absent hid hclear h c hc report hreport =>
      subst hreport
      simp only [List.contains_iff_mem, hid, if_false, hclear, Option.isSome_none,
        Bool.false_eq_true]
      split
      · simp [Alarm.live_cons, Alarm.next, Alarm.emit, TransitionKind.notice]
      · simp
  | unknown hid hclear h => simp [hid, hclear]

theorem settleEvents_length (s : Settling) (id : String) (finding : Finding)
    (confirmation : Option RemovalConfirmation) :
    (settleEvents s id finding confirmation).length ≤ 1 := by
  unfold settleEvents
  split
  · simp
  · split
    · split <;> simp
    · split <;> simp

/-- One list of events for every entry of a table. -/
def tableEvents {α : Type} (m : Table α) (g : String → α → List (Event Severity)) :
    List (String × Event Severity) :=
  m.toList.flatMap fun e => (g e.1 e.2).map (e.1, ·)

/-- Every id has the events of its own entry. -/
theorem eventsOf_tableEvents {α : Type} (m : Table α)
    (g : String → α → List (Event Severity)) (id : String) :
    eventsOf id (tableEvents m g) = ((m[id]?).map (g id)).getD [] := by
  have hself : ∀ es : List (Event Severity), eventsOf id (es.map (id, ·)) = es := by
    intro es
    simp [eventsOf, List.filter_map, Function.comp_def]
  have hother : ∀ k, k ≠ id → ∀ es : List (Event Severity),
      eventsOf id (es.map (k, ·)) = [] := by
    intro k hk es
    simp [eventsOf, List.filter_map, Function.comp_def, hk]
  have hflat : eventsOf id (tableEvents m g)
      = m.toList.flatMap fun e => eventsOf id ((g e.1 e.2).map (e.1, ·)) := by
    simp only [eventsOf, tableEvents, List.filter_flatMap, List.map_flatMap]
  rw [hflat, Table.flatMap_toList m id _ fun e he => hother e.1 he _]
  simp only [hself]

/-- With at most one event an entry, no id has two. -/
theorem tableEvents_nodup {α : Type} (m : Table α) (g : String → α → List (Event Severity))
    (h : ∀ id v, (g id v).length ≤ 1) : ((tableEvents m g).map Prod.fst).Nodup := by
  have key : ∀ (l : List (String × α)),
      ((l.flatMap fun e => (g e.1 e.2).map (e.1, ·)).map Prod.fst).Sublist
        (l.map Prod.fst) := by
    intro l
    induction l with
    | nil => simp
    | cons e l ih =>
        rw [List.flatMap_cons, List.map_append, List.map_cons]
        have hlen := h e.1 e.2
        cases hg : g e.1 e.2 with
        | nil => exact ih.cons _
        | cons a rest =>
            rw [hg] at hlen
            have : rest = [] := by
              cases rest with
              | nil => rfl
              | cons => simp at hlen
            subst this
            exact ih.cons_cons _
  exact (Table.nodup_keys m).sublist (key _)

section Settle

variable {s : Settling} {findings : Table Finding}
  {confirmations : Table RemovalConfirmation} {retired : Table Transition}

/-- An id is among the removed ones when its own visit reports it. -/
theorem mem_removed {id : String} {f : Finding} (hf : findings[id]? = some f) :
    id ∈ (settle s findings confirmations).reports.map Prod.fst
      ↔ (settleFinding s id f confirmations[confirmationKey s.job id]?).report ≠ [] := by
  rw [List.mem_map]
  constructor
  · rintro ⟨⟨k, kind⟩, hr, rfl⟩
    obtain ⟨g, hg, hmem⟩ := mem_settle_reports.mp hr
    have : g = f := Option.some.inj (hg.symm.trans hf)
    subst this
    exact List.ne_nil_of_mem hmem
  · intro hne
    rcases settleFinding_report s id f confirmations[confirmationKey s.job id]?
      with h | h | h
    · exact absurd h hne
    · exact ⟨(id, .recovered), mem_settle_reports.mpr ⟨f, hf, by simp [h]⟩, rfl⟩
    · exact ⟨(id, .removed), mem_settle_reports.mpr ⟨f, hf, by simp [h]⟩, rfl⟩

theorem notMem_removed {id : String} (hf : findings[id]? = none) :
    id ∉ (settle s findings confirmations).reports.map Prod.fst := by
  intro h
  obtain ⟨⟨k, kind⟩, hr, rfl⟩ := List.mem_map.mp h
  obtain ⟨g, hg, _⟩ := mem_settle_reports.mp hr
  rw [hf] at hg
  cases hg

theorem findRev?_isSome_iff {l : List (String × TransitionKind)} {id : String} :
    (l.findRev? (·.1 == id)).isSome ↔ id ∈ l.map Prod.fst := by
  rw [List.findRev?_eq_find?_reverse, List.find?_isSome]
  simp

/-- Settling and retiring play one event a finding. -/
theorem settle_plays (now : Time) :
    Plays findings retired
      (tableEvents findings fun id f =>
        settleEvents s id f confirmations[confirmationKey s.job id]?)
      (retire now ⟨(settle s findings confirmations).entries,
        (settle s findings confirmations).slots, retired⟩
        (settle s findings confirmations).reports).findings
      (retire now ⟨(settle s findings confirmations).entries,
        (settle s findings confirmations).slots, retired⟩
        (settle s findings confirmations).reports).retired
      ((settle s findings confirmations).reports.map fun (finding, kind) =>
        { time := now, finding, kind }) := by
  unfold Plays
  refine Prod.ext ?_ ?_
  · funext id
    rw [Alarm.live_of_eventsOf _ _ id (eventsOf_tableEvents ..)]
    cases hf : findings[id]? with
    | none =>
        have hnot := @notMem_removed s _ confirmations _ hf
        have hrev : ((settle s findings confirmations).reports.findRev? (·.1 == id)) = none := by
          rw [← Option.not_isSome_iff_eq_none, findRev?_isSome_iff]
          exact hnot
        dsimp only
        rw [phase_of_none hf, phase_of_none]
        · simp only [Option.map_none, Option.getD_none, Alarm.live_nil,
            Std.ExtTreeMap.contains_eq_isSome_getElem?, retire_retired, hrev]
          rfl
        · rw [retire_findings, if_neg hnot, settle_entries, hf]
          rfl
    | some f =>
        rw [phase_of_some hf]
        simp only [Option.map_some, Option.getD_some]
        rw [settleEvents_live]
        by_cases hr :
            (settleFinding s id f confirmations[confirmationKey s.job id]?).report = []
        · have hnot := mt (@mem_removed s _ confirmations _ _ hf).mp
            (not_not.mpr hr)
          rw [if_pos hr, phase_of_some (f :=
            (settleFinding s id f confirmations[confirmationKey s.job id]?).value)]
          · rw [(settleFinding_same ..).severity]
          · rw [retire_findings, if_neg hnot, settle_entries, hf]
            rfl
        · have hin := (@mem_removed s _ confirmations _ _ hf).mpr hr
          rw [if_neg hr, phase_of_none]
          · rw [Std.ExtTreeMap.contains_eq_isSome_getElem?, retire_retired]
            obtain ⟨e, he⟩ := Option.isSome_iff_exists.mp (findRev?_isSome_iff.mpr hin)
            rw [he]
            rfl
          · rw [retire_findings, if_pos hin]
  · rw [Alarm.play_nodup _ _ (tableEvents_nodup _ _ fun _ _ => settleEvents_length ..)]
    rw [settle_reports, tableEvents, List.flatMap_assoc, List.map_map, List.map_flatMap]
    refine List.flatMap_congr fun e he => ?_
    have hf : findings[e.1]? = some e.2 := Table.mem_toList.mp he
    have hlive := congrArg Prod.snd (settleEvents_live s e.1 e.2
      confirmations[confirmationKey s.job e.1]?)
    rw [Alarm.live_of_length_le_one _ (settleEvents_length ..)] at hlive
    rw [List.flatMap_map]
    dsimp only
    rw [phase_of_some hf]
    have hreport := settleFinding_report s e.1 e.2 confirmations[confirmationKey s.job e.1]?
    calc (settleEvents s e.1 e.2 confirmations[confirmationKey s.job e.1]?).flatMap
          (fun ev => (Alarm.emit (.active e.2.stale e.2.severity) ev).toList.map (e.1, ·))
        = ((settleEvents s e.1 e.2 confirmations[confirmationKey s.job e.1]?).flatMap
            (fun ev => (Alarm.emit (.active e.2.stale e.2.severity) ev).toList)).map
              (e.1, ·) := by rw [List.map_flatMap]
      _ = (settleFinding s e.1 e.2 confirmations[confirmationKey s.job e.1]?).report.map
            fun r => (e.1, r.2.notice) := by rw [hlive, List.map_map]; rfl
      _ = _ := by rcases hreport with h | h | h <;> rw [h] <;> rfl

end Settle

/-! ## Trimming and aging -/

def forgetEvents (retired : Table Transition) (limit : Nat) : List (String × Event Severity) :=
  (trimmed retired limit).map (·, .forget)

/-- The events of an expiry. -/
def ageEvents (findings : Table Finding) (freshness : Nat) (now : Time) :
    List (String × Event Severity) :=
  tableEvents findings fun _ f => if aged freshness now f then [.age] else []

section Tables

variable {findings : Table Finding} {retired : Table Transition}

theorem eventsOf_forgetEvents (limit : Nat) (id : String) :
    eventsOf id (forgetEvents retired limit)
      = if id ∈ trimmed retired limit then [.forget] else [] := by
  have key : ∀ l : List String, l.Nodup →
      eventsOf id (l.map fun k => (k, (Event.forget : Event Severity)))
        = if id ∈ l then [.forget] else [] := by
    intro l
    induction l with
    | nil => intro _; rfl
    | cons k l ih =>
        intro hnd
        rw [List.nodup_cons] at hnd
        have ih := ih hnd.2
        by_cases hk : k = id
        · subst hk
          rw [if_neg hnd.1] at ih
          simpa [eventsOf] using ih
        · simpa [eventsOf, hk, Ne.symm hk] using ih
  exact key _ trimmed_nodup

/-- Trimming forgets retired alarms, silently. -/
theorem trim_plays (ho : Orderly findings retired) (limit : Nat) :
    Plays findings retired (forgetEvents retired limit) findings
      (trimRetired retired limit) [] := by
  have hphase : ∀ id ∈ trimmed retired limit, phase findings retired id = .retired := by
    intro id hid
    have hmem := mem_of_mem_trimmed hid
    have hnone : findings[id]? = none := by
      cases hf : findings[id]? with
      | none => rfl
      | some f => exact absurd hmem (ho.disjoint id (Table.mem_iff_getElem?.mpr ⟨f, hf⟩))
    rw [phase_of_none hnone, if_pos (Std.ExtTreeMap.contains_iff_mem.mpr hmem)]
  unfold Plays
  refine Prod.ext ?_ ?_
  · funext id
    rw [Alarm.live_of_eventsOf _ _ id (eventsOf_forgetEvents limit id)]
    dsimp only
    by_cases hid : id ∈ trimmed retired limit
    · have hnone : findings[id]? = none := by
        cases hf : findings[id]? with
        | none => rfl
        | some f =>
            exact absurd (mem_of_mem_trimmed hid)
              (ho.disjoint id (Table.mem_iff_getElem?.mpr ⟨f, hf⟩))
      rw [if_pos hid, hphase id hid, phase_of_none hnone,
        Std.ExtTreeMap.contains_eq_isSome_getElem?, trimRetired_getElem?, if_pos hid]
      rfl
    · rw [if_neg hid]
      cases hf : findings[id]? with
      | none =>
          rw [phase_of_none hf, phase_of_none hf, Std.ExtTreeMap.contains_eq_isSome_getElem?,
            Std.ExtTreeMap.contains_eq_isSome_getElem?, trimRetired_getElem?, if_neg hid]
          rfl
      | some f =>
          rw [phase_of_some hf, phase_of_some hf]
          rfl
  · rw [Alarm.play_nodup]
    · refine List.flatMap_eq_nil_iff.mpr ?_
      intro ie hie
      obtain ⟨id, hid, rfl⟩ := List.mem_map.mp hie
      rw [hphase id hid]
      rfl
    · rw [forgetEvents, List.map_map]
      simpa [Function.comp_def] using trimmed_nodup

/-- An expiry ages alarms, each with a transition. -/
theorem age_plays (ho : Orderly findings retired) (freshness : Nat) (now : Time) :
    Plays findings retired (ageEvents findings freshness now)
      (findings.map fun _ f => age freshness now f) retired
      ((findings.toList.filter fun e => aged freshness now e.2).map fun e =>
        { time := now, finding := e.2.id, kind := .stale }) := by
  have hlen : ∀ (id : String) (f : Finding),
      (if aged freshness now f then [Event.age] else [] : List (Event Severity)).length ≤ 1 := by
    intro id f
    split <;> simp
  unfold Plays
  refine Prod.ext ?_ ?_
  · funext id
    rw [ageEvents, Alarm.live_of_eventsOf _ _ id (eventsOf_tableEvents ..)]
    dsimp only
    have hmap : (findings.map fun _ f => age freshness now f)[id]?
        = (findings[id]?).map (age freshness now) := Std.ExtTreeMap.getElem?_map
    cases hf : findings[id]? with
    | none =>
        rw [phase_of_none hf, phase_of_none (by rw [hmap, hf]; rfl)]
        rfl
    | some f =>
        rw [phase_of_some hf, phase_of_some (f := age freshness now f) (by rw [hmap, hf]; rfl)]
        simp only [Option.map_some, Option.getD_some, age]
        split
        · rfl
        · rfl
  · rw [ageEvents, Alarm.play_nodup _ _ (tableEvents_nodup _ _ hlen), tableEvents,
      List.flatMap_assoc, List.map_map]
    have hmem : ∀ e ∈ findings.toList, phase findings retired e.1 = .active e.2.stale e.2.severity
        ∧ e.2.id = e.1 := by
      intro e he
      have hf := Table.mem_toList.mp he
      exact ⟨phase_of_some hf, ho.keyed e.1 e.2 hf⟩
    generalize findings.toList = l at hmem ⊢
    induction l with
    | nil => rfl
    | cons e l ih =>
        obtain ⟨hphase, hid⟩ := hmem e (by simp)
        have ih := ih fun d hd => hmem d (by simp [hd])
        rw [List.flatMap_cons, ih, List.filter_cons]
        cases haged : aged freshness now e.2 with
        | true =>
            have hstale : e.2.stale = false := by
              rw [aged, Bool.and_eq_true] at haged
              simpa using haged.1
            simp [hphase, hstale, Alarm.emit, hid, Transition.notice, TransitionKind.notice]
        | false => simp

end Tables

/-- An expiry refines the aging of alarms. -/
theorem expire_refines {snapshot : Snapshot} (ho : Orderly snapshot.findings snapshot.retired)
    (freshness : Nat) (now : Time) :
    Orderly (expire snapshot freshness now).1.findings (expire snapshot freshness now).1.retired
    ∧ Plays snapshot.findings snapshot.retired (ageEvents snapshot.findings freshness now)
        (expire snapshot freshness now).1.findings (expire snapshot freshness now).1.retired
        (expire snapshot freshness now).2
    ∧ ∀ t ∈ (expire snapshot freshness now).2, t.time = now := by
  refine ⟨⟨fun id f hf => ?_, fun id hid => ?_⟩, age_plays ho freshness now, ?_⟩
  · rw [expire_findings, Option.map_eq_some_iff] at hf
    obtain ⟨g, hg, rfl⟩ := hf
    have : (age freshness now g).id = g.id := by
      unfold age
      split <;> rfl
    rw [this]
    exact ho.keyed id g hg
  · obtain ⟨f, hf⟩ := Table.mem_iff_getElem?.mp hid
    rw [expire_findings, Option.map_eq_some_iff] at hf
    obtain ⟨g, hg, _⟩ := hf
    exact ho.disjoint id (Table.mem_iff_getElem?.mpr ⟨g, hg⟩)
  · intro t ht
    obtain ⟨e, _, rfl⟩ := List.mem_map.mp ht
    rfl

/-! ## A whole pass -/

namespace Application

variable (host : Host) (a : Application)

/-- The findings that the scan of a pass stores. -/
def detections : List Finding :=
  State.detections host a.job a.now (a.start host) (a.limited host).observations

def settleEvent (id : String) (finding : Finding) : List (Event Severity) :=
  settleEvents (a.settling host) id finding
    (a.prepared host).1.confirmations[confirmationKey a.job id]?

/-- The alarm events of a pass, in order. -/
def events : List (String × Event Severity) :=
  (a.detections host).map detectEvent
    ++ tableEvents (a.scanned host).findings (a.settleEvent host)
    ++ forgetEvents (a.retirement host).retired a.job.settings.maxFindings
    ++ ageEvents (a.retirement host).findings a.job.settings.freshness a.now

variable {host a}

theorem retirement_orderly (ho : Orderly (a.scanned host).findings (a.scanned host).retired) :
    Orderly (a.retirement host).findings (a.retirement host).retired := by
  unfold retirement settled
  refine ⟨fun id f hf => ?_, fun id hid hret => ?_⟩
  · rw [retire_findings] at hf
    split at hf
    · cases hf
    · rw [settle_entries, Option.map_eq_some_iff] at hf
      obtain ⟨g, hg, rfl⟩ := hf
      rw [(settleFinding_same ..).id]
      exact ho.keyed id g hg
  · obtain ⟨f, hf⟩ := Table.mem_iff_getElem?.mp hid
    rw [retire_findings] at hf
    split at hf
    · cases hf
    · rename_i hnot
      rw [settle_entries, Option.map_eq_some_iff] at hf
      obtain ⟨g, hg, _⟩ := hf
      obtain ⟨t, ht⟩ := Table.mem_iff_getElem?.mp hret
      rw [retire_retired, Option.or_eq_some_iff] at ht
      rcases ht with ht | ⟨_, ht⟩
      · have : ((settle (a.settling host) (a.scanned host).findings
            (a.prepared host).1.confirmations).reports.findRev? (·.1 == id)).isSome := by
          rw [Option.map_eq_some_iff] at ht
          obtain ⟨e, he, _⟩ := ht
          rw [he]
          rfl
        exact hnot (findRev?_isSome_iff.mp this)
      · exact ho.disjoint id (Table.mem_iff_getElem?.mpr ⟨g, hg⟩)
          (Table.mem_iff_getElem?.mpr ⟨t, ht⟩)

theorem scanned_stores : Stores (a.start host) (a.scanned host) (a.detections host) := by
  rw [scanned_eq]
  exact detections_stores ..

/-- The scan of a pass plays its detections. -/
theorem scanned_plays (ho : Orderly a.before.findings a.before.retired) :
    Orderly (a.scanned host).findings (a.scanned host).retired
    ∧ Plays a.before.findings a.before.retired ((a.detections host).map detectEvent)
        (a.scanned host).findings (a.scanned host).retired (a.scanned host).transitions
    ∧ ∀ t ∈ (a.scanned host).transitions, t.time = a.now := by
  have hscan := @detections_plays host a.job a.now (a.limited host).observations
    (a.start host)
  rw [← scanned_eq] at hscan
  obtain ⟨ts, hts, htime, hplays⟩ := hscan.plays
  have htransitions : (a.scanned host).transitions = ts := hts
  rw [start_findings, start_retired] at hplays
  rw [htransitions]
  exact ⟨hscan.orderly (by rw [start_findings, start_retired]; exact ho), hplays, htime⟩

/-- The settlement of a pass plays one event a finding. -/
theorem settlement_plays :
    Plays (a.scanned host).findings (a.scanned host).retired
      (tableEvents (a.scanned host).findings (a.settleEvent host))
      (a.retirement host).findings (a.retirement host).retired
      ((a.settled host).reports.map fun (finding, kind) =>
        { time := a.now, finding, kind }) := by
  have h := @settle_plays (a.settling host) (a.scanned host).findings
    (a.prepared host).1.confirmations (a.scanned host).retired a.now
  rw [retirement, settled]
  exact h

theorem pending_orderly (h : Orderly (a.retirement host).findings (a.retirement host).retired) :
    Orderly (a.pending host).findings (a.pending host).retired := by
  rw [pending_findings, pending_retired]
  refine ⟨h.keyed, fun id hid hmem => h.disjoint id hid ?_⟩
  obtain ⟨t, ht⟩ := Table.mem_iff_getElem?.mp hmem
  rw [trimRetired_getElem?] at ht
  split at ht
  · cases ht
  · exact Table.mem_iff_getElem?.mpr ⟨t, ht⟩

/-- A pass moves the alarms by its events and emits exactly their notices. -/
theorem refines (ho : Orderly a.before.findings a.before.retired) :
    Orderly (a.after host).findings (a.after host).retired
    ∧ Plays a.before.findings a.before.retired (a.events host)
        (a.after host).findings (a.after host).retired (a.transitions host)
    ∧ ∀ t ∈ a.transitions host, t.time = a.now := by
  obtain ⟨hscanned, hplays, htime⟩ := scanned_plays ho
  have hretire := retirement_orderly hscanned
  have hpending := pending_orderly hretire
  have htrim := trim_plays hretire a.job.settings.maxFindings
  obtain ⟨hafter, hage, hagetime⟩ := expire_refines hpending a.job.settings.freshness a.now
  rw [← after_eq] at hafter hage
  refine ⟨hafter, ?_, ?_⟩
  · rw [pending_findings, pending_retired] at hage
    have hall := ((hplays.append settlement_plays).append htrim).append hage
    rw [List.append_nil] at hall
    exact hall
  · intro t ht
    rw [transitions, List.mem_append, List.mem_append] at ht
    rcases ht with (ht | ht) | ht
    · exact htime t ht
    · obtain ⟨e, _, rfl⟩ := List.mem_map.mp ht
      rfl
    · exact hagetime t ht

end Application

end State

end HealthMonitor
