import HealthMonitor.Core.Authority
import HealthMonitor.Core.TransitionLog

/-!
# Recoveries

What stands behind a `Recovered` transition. A finding keeps a count of the
clearing observations since it was detected last, and its own time of
observation moves with each of them; the journal says which passes these were.
The count is honest as long as the detections of a finding arrive in the order
they were observed, and as long as the results that clear it vouch for the
operation they clear it under.
-/

namespace HealthMonitor

open State

variable {host : Host} {id : String}

namespace State.Application

/-- When the detections of the finding that the pass stores were observed. -/
def sightings (host : Host) (a : Application) (id : String) : List Time :=
  ((a.detections host).filter (·.id = id)).map Finding.observedAt

/-- The pass ends the finding. -/
def ends (host : Host) (a : Application) (id : String) : Bool :=
  ((a.settled host).reports.map Prod.fst).contains id

/-- The scan evaluates the observation as healthy or expected to be inactive. -/
def FindsClear (host : Host) (a : Application) (obs : Observation) : Prop :=
  ∃ before after, (a.limited host).observations = before ++ obs :: after
    ∧ (evaluated host a.job a.now
        (before.foldl (scanObservation host a.job a.now) (a.start host)) obs).2.health.clear
      = true

/-- The pass has evidence, observed at `time`, that clears the finding, in a
result that is stored with nothing but complete operations of that id. -/
def Clears (host : Host) (a : Application) (f : Finding) (time : Time) : Prop :=
  ∃ result, a.final host = some result ∧ ∃ obs ∈ result.observations,
    obs.resource = f.resource ∧ obs.operation ∈ f.evidence ∧ obs.observedAt = time
      ∧ a.FindsClear host obs ∧ result.backs obs = true
      ∧ ∀ op ∈ result.operations, op.id = obs.operation → op.coverage = .complete

/-- Whatever operation of its evidence the finding's resource is reported under
as complete, the result that is scanned vouches for it. -/
def Vouched (host : Host) (a : Application) (id : String) : Prop :=
  a.job.assessHealth = true → ∀ f ∈ a.before.findings[id]?, ∀ op ∈ f.evidence,
    op ∈ completeIds (a.limited host).operations →
      (∃ obs ∈ (a.limited host).observations, obs.resource = f.resource ∧ obs.operation = op) →
        (a.limited host).Vouches a.job.settings.freshness a.now op

instance (host : Host) (a : Application) (id : String) : Decidable (a.Vouched host id) := by
  unfold Vouched
  infer_instance

end State.Application

/-! ## The history of a finding -/

def Entry.sightings (host : Host) (id : String) : Entry → List Time
  | applied a => a.sightings host id
  | expired _ _ _ => []

def Entry.ends (host : Host) (id : String) : Entry → Bool
  | applied a => a.ends host id
  | expired _ _ _ => false

/-- The finding is detected, stored or not. -/
def Entry.Detects (host : Host) (id : String) : Entry → Prop
  | applied a => id ∈ (a.scanned host).current
  | expired _ _ _ => False

/-- What the entry scans vouches for the evidence of the finding. -/
def Entry.Vouched (host : Host) (id : String) : Entry → Prop
  | applied a => a.Vouched host id
  | expired _ _ _ => True

instance (host : Host) (id : String) : DecidablePred (Entry.Vouched host id)
  | .applied a => inferInstanceAs (Decidable (a.Vouched host id))
  | .expired _ _ _ => inferInstanceAs (Decidable True)

/-- When the detections of the finding were observed since it became active. -/
def sightings (host : Host) (id : String) (log : List Entry) : List Time :=
  log.foldl (fun times e => if e.ends host id then [] else times ++ e.sightings host id) []

theorem sightings_append (log : List Entry) (e : Entry) :
    sightings host id (log ++ [e])
      = if e.ends host id then [] else sightings host id log ++ e.sightings host id := by
  rw [sightings, List.foldl_append]
  rfl

/-- The detections of the finding since it became active arrive in the order
they were observed, at every point of the log. -/
def InOrder (host : Host) (id : String) (log : List Entry) : Prop :=
  ∀ before after, log = before ++ after → (sightings host id before).Pairwise (· ≤ ·)

theorem InOrder.le_last {log before after : List Entry} (h : InOrder host id log)
    (hlog : log = before ++ after) {time : Time} (ht : time ∈ sightings host id before) :
    ∃ last ∈ (sightings host id before).getLast?, time ≤ last := by
  obtain ⟨last, hlast⟩ := Option.isSome_iff_exists.mp
    (List.getLast?_isSome.mpr (List.ne_nil_of_mem ht))
  obtain ⟨init, hinit⟩ := List.getLast?_eq_some_iff.mp hlast
  have hsorted := h before after hlog
  refine ⟨last, hlast, ?_⟩
  rw [hinit] at hsorted ht
  rcases List.mem_append.mp ht with hin | hin
  · exact (List.pairwise_append.mp hsorted).2.2 time hin last (by simp)
  · exact le_of_eq (List.mem_singleton.mp hin)

/-- What a recovery of the finding `f` in the pass `a` rests on: the pass `d`
that detected it last, and the clearing passes since. -/
structure Recovers (host : Host) (id : String) (log : List Entry) (a : Application)
    (f : Finding) (d : Application) (older since : List Entry)
    (clears : List (Application × Time)) : Prop where
  parts : log = older ++ .applied d :: since
  active : a.before.findings[id]? = some f
  detected : d.sightings host id ≠ []
  quiet : ∀ e ∈ since ++ [.applied a], ¬ e.Detects host id
  among : (clears.map fun e => Entry.applied e.1).Sublist (since ++ [.applied a])
  enough : a.job.settings.recoverConfirmations ≤ clears.length
  rising : (clears.map Prod.snd).Pairwise (· < ·)
  later : ∀ e ∈ clears, ∀ time ∈ sightings host id log, time < e.2
  clear : ∀ e ∈ clears, e.1.Clears host f e.2

/-- What the journal knows of an active finding. -/
structure Waning (host : Host) (id : String) (log : List Entry) (f : Finding)
    (d : Application) (older since : List Entry) (clears : List (Application × Time)) :
    Prop where
  parts : log = older ++ .applied d :: since
  detected : d.sightings host id ≠ []
  quiet : ∀ e ∈ since, ¬ e.Detects host id
  among : (clears.map fun e => Entry.applied e.1).Sublist since
  count : f.clearCount ≤ clears.length
  rising : (clears.map Prod.snd).Pairwise (· < ·)
  later : ∀ e ∈ clears, ∀ time ∈ (sightings host id log).getLast?, time < e.2
  latest : ∀ e ∈ clears, e.2 ≤ f.observedAt
  last : ∀ time ∈ (sightings host id log).getLast?, time ≤ f.observedAt
  clear : ∀ e ∈ clears, e.1.Clears host f e.2

/-- Nothing that a recovery reads differs. -/
structure SameClearance (f g : Finding) : Prop where
  resource : f.resource = g.resource
  evidence : f.evidence = g.evidence
  observedAt : f.observedAt = g.observedAt
  clearCount : f.clearCount = g.clearCount

section Waning

variable {log older since : List Entry} {f g : Finding} {d a : Application}
  {clears : List (Application × Time)}

theorem Entry.sightings_of_not_detects {e : Entry} (h : ¬ e.Detects host id) :
    e.sightings host id = [] := by
  cases e with
  | expired => rfl
  | applied a =>
      rw [Entry.sightings, Application.sightings, List.map_eq_nil_iff, List.filter_eq_nil_iff]
      intro f hf hid
      refine h ?_
      have := Application.scanned_stores.current f hf
      rwa [of_decide_eq_true hid] at this

theorem Waning.congr (h : Waning host id log f d older since clears)
    (hsame : SameClearance g f) : Waning host id log g d older since clears where
  parts := h.parts
  detected := h.detected
  quiet := h.quiet
  among := h.among
  count := hsame.clearCount ▸ h.count
  rising := h.rising
  later := h.later
  latest := hsame.observedAt ▸ h.latest
  last := hsame.observedAt ▸ h.last
  clear e he := by
    obtain ⟨result, hfinal, obs, hobs, hr, hop, hrest⟩ := h.clear e he
    exact ⟨result, hfinal, obs, hobs, hr.trans hsame.resource.symm, hsame.evidence ▸ hop, hrest⟩

/-- An entry that neither detects nor ends the finding. -/
theorem Waning.pass (h : Waning host id log f d older since clears) {e : Entry}
    (hquiet : ¬ e.Detects host id) (hends : e.ends host id = false) :
    Waning host id (log ++ [e]) f d older (since ++ [e]) clears := by
  have hsame : sightings host id (log ++ [e]) = sightings host id log := by
    rw [sightings_append, hends, e.sightings_of_not_detects hquiet, List.append_nil]
    rfl
  refine ⟨by rw [h.parts]; simp, h.detected, ?_, h.among.trans (List.sublist_append_left _ _),
    h.count, h.rising, ?_, h.latest, ?_, h.clear⟩
  · intro o ho
    rcases List.mem_append.mp ho with ho | ho
    · exact h.quiet o ho
    · rw [List.mem_singleton.mp ho]
      exact hquiet
  · rw [hsame]
    exact h.later
  · rw [hsame]
    exact h.last

/-- The clearing passes with one more. -/
structure Grown (host : Host) (id : String) (log since : List Entry) (f : Finding)
    (time : Time) (clears : List (Application × Time)) : Prop where
  among : (clears.map fun e => Entry.applied e.1).Sublist since
  count : saturatingSucc f.clearCount ≤ clears.length
  rising : (clears.map Prod.snd).Pairwise (· < ·)
  later : ∀ e ∈ clears, ∀ time ∈ (sightings host id log).getLast?, time < e.2
  latest : ∀ e ∈ clears, e.2 ≤ time
  clear : ∀ e ∈ clears, e.1.Clears host f e.2

theorem Waning.grow (h : Waning host id log f d older since clears) {time : Time}
    (hclear : a.Clears host f time) (htime : f.observedAt < time) :
    Grown host id log (since ++ [.applied a]) f time (clears ++ [(a, time)]) := by
  refine ⟨?_, ?_, ?_, ?_, ?_, ?_⟩
  · rw [List.map_append]
    exact h.among.append_right _
  · have hsucc : saturatingSucc f.clearCount ≤ f.clearCount + 1 := by
      unfold saturatingSucc
      omega
    rw [List.length_append]
    exact hsucc.trans (Nat.succ_le_succ h.count)
  · rw [List.map_append, List.pairwise_append]
    refine ⟨h.rising, List.pairwise_singleton _ _, ?_⟩
    intro t ht u hu
    obtain ⟨e, he, rfl⟩ := List.mem_map.mp ht
    rw [List.map_cons, List.map_nil, List.mem_singleton] at hu
    rw [hu]
    exact lt_of_le_of_lt (h.latest e he) htime
  · intro e he t ht
    rcases List.mem_append.mp he with he | he
    · exact h.later e he t ht
    · rw [List.mem_singleton.mp he]
      exact lt_of_le_of_lt (h.last t ht) htime
  · intro e he
    rcases List.mem_append.mp he with he | he
    · exact le_of_lt (lt_of_le_of_lt (h.latest e he) htime)
    · rw [List.mem_singleton.mp he]
  · intro e he
    rcases List.mem_append.mp he with he | he
    · exact h.clear e he
    · rw [List.mem_singleton.mp he]
      exact hclear

/-- A pass that clears the finding once more, and leaves it active. -/
theorem Waning.add (h : Waning host id log f d older since clears)
    (hquiet : ¬ (Entry.applied a).Detects host id)
    (hends : (Entry.applied a).ends host id = false) {time : Time}
    (hclear : a.Clears host f time) (htime : f.observedAt < time) :
    Waning host id (log ++ [.applied a]) (cleared a.job f time) d older
      (since ++ [.applied a]) (clears ++ [(a, time)]) := by
  have hpass := h.pass hquiet hends
  have hgrown := h.grow hclear htime
  have hsame : sightings host id (log ++ [.applied a]) = sightings host id log := by
    rw [sightings_append, hends, Entry.sightings_of_not_detects hquiet, List.append_nil]
    rfl
  refine ⟨hpass.parts, hpass.detected, hpass.quiet, hgrown.among, hgrown.count, hgrown.rising,
    ?_, hgrown.latest, ?_, hgrown.clear⟩
  · rw [hsame]
    exact hgrown.later
  · exact fun t ht => le_of_lt (lt_of_le_of_lt (hpass.last t ht) htime)

end Waning

/-! ## What a pass does to the history -/

namespace State.Application

variable {a : Application}

/-- A finding that is active after a pass was settled there, and not ended. -/
theorem after_finding {g : Finding} (h : (a.after host).findings[id]? = some g) :
    a.ends host id = false ∧ ∃ f, (a.scanned host).findings[id]? = some f
      ∧ SameClearance g (settleFinding (a.settling host) id f
          (a.prepared host).1.confirmations[confirmationKey (a.settling host).job id]?).value := by
  rw [after_eq, expire_findings] at h
  obtain ⟨p, hp, rfl⟩ := Option.map_eq_some_iff.mp h
  rw [pending_findings, retirement, retire_findings] at hp
  split at hp
  · cases hp
  · rename_i hnot
    have hends : a.ends host id = false := by
      rw [ends]
      simpa using hnot
    rw [settled, settle_entries] at hp
    obtain ⟨f, hf, rfl⟩ := Option.map_eq_some_iff.mp hp
    refine ⟨hends, f, hf, ?_⟩
    unfold age
    split <;> exact ⟨rfl, rfl, rfl, rfl⟩

/-- A stored detection is the finding, as it was observed last. -/
theorem scanned_detected (h : a.sightings host id ≠ []) :
    id ∈ (a.scanned host).current
      ∧ ∃ f, (a.scanned host).findings[id]? = some f ∧ f.clearCount = 0
        ∧ (a.sightings host id).getLast? = some f.observedAt := by
  have hfilter : (a.detections host).filter (·.id = id) ≠ [] :=
    fun hnil => h (by rw [sightings, hnil]; rfl)
  obtain ⟨f, hf⟩ := Option.isSome_iff_exists.mp
    (List.getLast?_isSome.mpr hfilter)
  have hmem := List.mem_filter.mp (List.mem_of_getLast? hf)
  have hid : f.id = id := of_decide_eq_true hmem.2
  obtain ⟨_, _, hdetected⟩ := detections_detected _ _ f hmem.1
  refine ⟨hid ▸ scanned_stores.current f hmem.1, f, ?_, hdetected.clearCount, ?_⟩
  · have hrev : (a.detections host).findRev? (·.id == id) = some f := by
      rw [List.findRev?_eq_find?_reverse, ← List.getLast?_filter, ← hf]
      congr 1
    rw [scanned_stores.lookup, hrev]
    rfl
  · rw [sightings, List.getLast?_map, hf]
    rfl

theorem assessHealth_of_clear {scan : Scan} {obs : Observation}
    (h : (evaluated host a.job a.now scan obs).2.health.clear = true) :
    a.job.assessHealth = true := by
  cases hassess : a.job.assessHealth with
  | true => rfl
  | false =>
      rw [evaluated, evaluateObservation, if_neg] at h
      · cases h
      · rw [assessed, hassess]
        exact Bool.false_ne_true

/-- Clearing evidence of a pass, in the result that it leaves. -/
theorem clears_of_clearFor {f : Finding} {time : Time} (hf : a.before.findings[id]? = some f)
    (hvouched : a.Vouched host id) (h : (a.reconciled host).1.clearFor f = some time) :
    a.Clears host f time ∧ f.observedAt < time := by
  rw [Index.clearFor] at h
  obtain ⟨⟨op, at'⟩, hfilter, rfl⟩ := Option.map_eq_some_iff.mp h
  obtain ⟨hclear, hevidence⟩ := Option.filter_eq_some_iff.mp hfilter
  simp only [Bool.and_eq_true, List.contains_iff_mem, decide_eq_true_eq] at hevidence
  rw [reconciled] at hclear
  obtain ⟨hclear, hcomplete⟩ := Table.getElem?_retain_eq_some.mp hclear
  have hcomplete : op ∈ completeIds (a.stored host).operations := by
    simpa using hcomplete
  rw [scanned_eq] at hclear
  obtain ⟨before, obs, after, hl, hr, hop, htime, hhealth⟩ :=
    ((@scan_index host a.job a.now (a.start host) (a.limited host).observations rfl).clear
      _ _ _ hclear).evidence
  have hin : obs ∈ (a.limited host).observations := by
    rw [hl]
    simp
  obtain ⟨result, hfinal, hobs, hids, hall⟩ := final_complete hcomplete
    (hvouched (assessHealth_of_clear hhealth) f hf op hevidence.1 (completeIds_stored hcomplete)
      ⟨obs, hin, hr, hop⟩)
  refine ⟨⟨result, hfinal, obs, ?_, hr, hop ▸ hevidence.1, htime, ⟨before, after, hl, hhealth⟩,
    CheckResult.backs_iff.mpr (hop ▸ hids), hop ▸ hall⟩, hevidence.2⟩
  rw [hobs]
  exact hin

end State.Application

section Waning

variable {log older since : List Entry} {f g : Finding} {d a : Application}
  {clears : List (Application × Time)}

/-- A pass that detects the finding starts its history again. -/
theorem Waning.start (hdetected : a.sightings host id ≠ [])
    (hg : (a.after host).findings[id]? = some g) :
    Waning host id (log ++ [.applied a]) g a log [] [] := by
  obtain ⟨hends, f, hf, hsame⟩ := Application.after_finding hg
  obtain ⟨hcurrent, f', hf', hcount, hlast⟩ := Application.scanned_detected hdetected
  rw [hf] at hf'
  cases hf'
  have hvalue := settles (a.settling host) id f
    (a.prepared host).1.confirmations[confirmationKey (a.settling host).job id]?
  generalize settleFinding (a.settling host) id f _ = visit at hsame hvalue
  have hkeep : SameClearance g f := by
    cases hvalue with
    | detected => exact hsame
    | cleared hid => exact absurd hcurrent hid
    | absent hid => exact absurd hcurrent hid
    | unknown hid => exact absurd hcurrent hid
  have hsightings : (sightings host id (log ++ [.applied a])).getLast? = some f.observedAt := by
    have he : (Entry.applied a).ends host id = false := hends
    rw [sightings_append, he, if_neg Bool.false_ne_true, List.getLast?_append]
    show ((a.sightings host id).getLast?).or _ = _
    rw [hlast]
    rfl
  refine ⟨rfl, hdetected, by simp, List.Sublist.refl _, ?_, List.Pairwise.nil, by simp, by simp,
    ?_, by simp⟩
  · rw [hkeep.clearCount, hcount]
    exact Nat.zero_le _
  · intro time ht
    rw [hsightings, Option.mem_some_iff] at ht
    rw [hkeep.observedAt, ht]

/-- A pass over an active finding that it does not see. -/
theorem Waning.settle (h : Waning host id log f d older since clears)
    (hf : a.before.findings[id]? = some f) (hvouched : a.Vouched host id)
    (hquiet : id ∉ (a.scanned host).current) (hg : (a.after host).findings[id]? = some g) :
    ∃ clears, Waning host id (log ++ [.applied a]) g d older (since ++ [.applied a]) clears := by
  obtain ⟨hends, f', hf', hsame⟩ := Application.after_finding hg
  rw [(Application.scanned_stores.untouched hquiet).1, Application.start_findings, hf] at hf'
  cases hf'
  have hvalue := settles (a.settling host) id f
    (a.prepared host).1.confirmations[confirmationKey (a.settling host).job id]?
  generalize settleFinding (a.settling host) id f _ = visit at hsame hvalue
  cases hvalue with
  | detected hid => exact absurd hid hquiet
  | cleared _ time hclear =>
      rw [Application.settling_index] at hclear
      obtain ⟨hclears, htime⟩ := Application.clears_of_clearFor hf hvouched hclear
      exact ⟨_, (h.add hquiet hends hclears htime).congr hsame⟩
  | absent => exact ⟨clears, (h.pass (e := .applied a) hquiet hends).congr hsame⟩
  | unknown => exact ⟨clears, (h.pass (e := .applied a) hquiet hends).congr hsame⟩

end Waning

/-- The transitions that end a finding come from its settlement. -/
theorem State.Application.reported_of_ended {a : Application} {t : Transition}
    (h : t ∈ a.transitions host) (hk : t.kind = .recovered ∨ t.kind = .removed) :
    (t.finding, t.kind) ∈ (a.settled host).reports := by
  have hscan : ∀ u ∈ (a.scanned host).transitions, ¬ (u.kind = .recovered ∨ u.kind = .removed) := by
    rw [scanned_eq]
    refine scan_rule (P := fun s => ∀ u ∈ s.transitions,
      ¬ (u.kind = .recovered ∨ u.kind = .removed)) (fun _ _ _ ih => ih) ?_ (by simp [start, startScan])
    intro s obs _ prior rule severity confidence ih u hu
    unfold detect at hu
    dsimp only at hu
    split at hu
    · exact ih u hu
    · rcases List.mem_append.mp hu with hu | hu
      · exact ih u hu
      · -- a detection is new, reappears or worsens
        obtain ⟨kind, hkind, rfl⟩ := Option.map_eq_some_iff.mp (Option.mem_toList.mp hu)
        unfold detectionKind at hkind
        split at hkind
        · split at hkind <;> cases hkind <;> simp
        · split at hkind
          · cases hkind
            simp
          · split at hkind <;> cases hkind
            simp
  rw [transitions, List.mem_append, List.mem_append] at h
  rcases h with (h | h) | h
  · exact absurd hk (hscan t h)
  · obtain ⟨e, he, rfl⟩ := List.mem_map.mp h
    exact he
  · rw [expired] at h
    obtain ⟨e, _, rfl⟩ := List.mem_map.mp h
    rcases hk with hk | hk <;> cases hk

/-- The journal knows every active finding of a run whose results vouch. -/
def Chronicled (host : Host) (id : String) (log : List Entry) (s : Snapshot) : Prop :=
  (∀ e ∈ log, e.Vouched host id) → ∀ f, s.findings[id]? = some f →
    ∃ d older since clears, Waning host id log f d older since clears

theorem passes_chronicled :
    (passes host).Tracks (fun _ => True) fun log s => Chronicled host id log s := by
  rintro log s action - ih hvouched
  have hbefore : ∀ e ∈ log, e.Vouched host id :=
    fun e he => hvouched e (List.mem_append_left _ he)
  cases action with
  | collect job result now clock =>
      intro g hg
      generalize ha : ({ before := s, job, result, now, clock } : Application) = a at *
      have hg : (a.after host).findings[id]? = some g := by rw [← ha]; exact hg
      have hmem : .applied a ∈ log ++ [.applied a] := by simp
      have hnew : ((passes host).step s (.collect job result now clock)).2 = [.applied a] := by
        rw [← ha]
        rfl
      rw [hnew] at hvouched ⊢
      by_cases hcurrent : id ∈ (a.scanned host).current
      · by_cases hdetected : a.sightings host id = []
        · -- a finding that is seen and not stored was not active, and is not
          obtain ⟨_, f, hf, _⟩ := Application.after_finding hg
          rcases Application.scanned_stores.seen id hcurrent with hnil | ⟨d, hd, hid⟩ | hnot
          · cases hnil
          · rw [Application.sightings, List.map_eq_nil_iff, List.filter_eq_nil_iff] at hdetected
            exact absurd (decide_eq_true hid) (hdetected d hd)
          · have hlookup := @Stores.lookup _ _ _ id (@Application.scanned_stores host a)
            have hrev : (a.detections host).findRev? (·.id == id) = none := by
              rw [List.findRev?_eq_find?_reverse, List.find?_eq_none]
              intro d hd hid
              rw [Application.sightings, List.map_eq_nil_iff, List.filter_eq_nil_iff] at hdetected
              exact hdetected d (List.mem_reverse.mp hd) (by simpa using hid)
            rw [hrev, hf, Option.none_or] at hlookup
            exact absurd (Table.mem_iff_getElem?.mpr ⟨f, hlookup.symm⟩) hnot
        · exact ⟨a, log, [], [], Waning.start hdetected hg⟩
      · obtain ⟨_, f, hf, _⟩ := Application.after_finding hg
        rw [(Application.scanned_stores.untouched hcurrent).1, Application.start_findings] at hf
        have hs : s.findings[id]? = some f := by rw [← ha] at hf; exact hf
        obtain ⟨d, older, since, clears, h⟩ := ih hbefore f hs
        obtain ⟨clears, h⟩ := h.settle hf (hvouched _ hmem) hcurrent hg
        exact ⟨d, older, _, clears, h⟩
  | evaluateFlows job now clock =>
      intro f hf
      obtain ⟨progress, he, _, _⟩ := Flows.evaluate_snapshot s job now clock
      simp only [passes, he, List.append_nil] at hf ⊢
      exact ih hbefore f hf
  | restoreSamples key samples =>
      intro f hf
      simp only [passes, List.append_nil] at hf ⊢
      exact ih hbefore f hf
  | expire freshness now =>
      intro g hg
      simp only [passes] at hg ⊢
      rw [expire_findings] at hg
      obtain ⟨f, hf, rfl⟩ := Option.map_eq_some_iff.mp hg
      obtain ⟨d, older, since, clears, h⟩ := ih hbefore f hf
      refine ⟨d, older, _, clears, (h.pass (e := .expired s freshness now) (fun hd => hd) rfl).congr ?_⟩
      unfold age
      split <;> exact ⟨rfl, rfl, rfl, rfl⟩

/-- **Recovery soundness.** As long as the detections of a finding arrive in the
order they were observed and the results that are scanned vouch for its
evidence, every recovery of the finding rests on as many passes as its job asks
for, each of which cleared it, later than every detection and later than the one
before. -/
theorem recovered_supported (host : Host) (revision : String) (scope : List String)
    (began : Time) (steps : List Step) (id : String)
    (horder : InOrder host id (journal host (State.new revision scope began) steps))
    (hvouched : ∀ e ∈ journal host (State.new revision scope began) steps, e.Vouched host id)
    (before after : List Entry) (a : Application)
    (hlog : journal host (State.new revision scope began) steps
      = before ++ .applied a :: after)
    (t : Transition) (ht : t ∈ a.transitions host) (hid : t.finding = id)
    (hk : t.kind = .recovered) :
    ∃ f d older since clears, Recovers host id before a f d older since clears := by
  have hmem : ∀ e ∈ before ++ [Entry.applied a], e.Vouched host id := by
    intro e he
    refine hvouched e ?_
    rw [hlog, List.append_cons]
    exact List.mem_append_left _ he
  have hchronicle := journal_tracks (@passes_chronicled host id)
    (I := fun log s => Chronicled host id log s)
    (fun _ f hf => by simp [State.new] at hf) hlog
  have hreport := Application.reported_of_ended ht (.inl hk)
  rw [hid, hk, Application.settled] at hreport
  obtain ⟨f, hf, hreport⟩ := mem_settle_reports.mp hreport
  have hvalue := settles (a.settling host) id f
    (a.prepared host).1.confirmations[confirmationKey (a.settling host).job id]?
  generalize settleFinding (a.settling host) id f _ = visit at hreport hvalue
  cases hvalue with
  | detected => cases hreport
  | unknown => cases hreport
  | absent _ _ _ _ _ report hr =>
      subst hr
      split at hreport
      · rw [List.mem_singleton] at hreport
        cases hreport
      · cases hreport
  | cleared hquiet time hclear report hr =>
      subst hr
      have henough : a.job.settings.recoverConfirmations ≤ saturatingSucc f.clearCount := by
        split at hreport
        · rename_i h
          exact h
        · cases hreport
      have hquiet : id ∉ (a.scanned host).current := hquiet
      rw [(Application.scanned_stores.untouched hquiet).1, Application.start_findings] at hf
      obtain ⟨d, older, since, clears, h⟩ :=
        hchronicle (fun e he => hmem e (List.mem_append_left _ he)) f hf
      rw [Application.settling_index] at hclear
      obtain ⟨hclears, htime⟩ := Application.clears_of_clearFor hf
        (hmem (.applied a) (by simp)) hclear
      have hgrown := h.grow hclears htime
      refine ⟨f, d, older, since, clears ++ [(a, time)], h.parts, hf, h.detected, ?_,
        hgrown.among, henough.trans hgrown.count, hgrown.rising, ?_, hgrown.clear⟩
      · intro e he
        rcases List.mem_append.mp he with he | he
        · exact h.quiet e he
        · rw [List.mem_singleton.mp he]
          exact hquiet
      · -- the detection delivered last was observed last
        intro e he at' hat
        obtain ⟨last, hlast, hle⟩ := horder.le_last hlog hat
        exact lt_of_le_of_lt hle (hgrown.later e he last hlast)

/-! ## Where a recovery rests on too little -/

namespace Sample

/-- The managed services report the operation with these coverages, observed at
`seen`, and one condition. -/
def report (now seen : Nat) (ops : List Coverage) (at' : Nat) (healthy : Bool) : Step :=
  .apply (job .managed)
    (result .managed (sec now) (ops.map fun coverage => operation "services" (sec seen) coverage)
      [condition "app/web" "services" (sec at') healthy]) (sec now) (sec now)

/-- Nothing the entry leaves stored clears a finding after these times, or
nothing of it is complete. -/
def undermined (times : List Time) : Entry → Bool
  | .expired _ _ _ => true
  | .applied a =>
      ((a.final machine).toList.flatMap fun result =>
        result.observations.map fun obs => (result, obs)).all fun e =>
          times.any (e.2.observedAt ≤ ·)
            || e.1.operations.any fun op => op.id == e.2.operation && op.coverage != .complete

/-- A detection observed at 5 s is delivered after one observed at 10 s. -/
def lateSteps : List Step :=
  [report 10 10 [.complete] 10 false, report 11 5 [.complete] 5 false,
    report 12 6 [.complete] 6 true, report 13 7 [.complete] 7 true]

/-- The operation is reported twice, once as unavailable. -/
def splitSteps : List Step :=
  [report 1 1 [.complete] 1 false, report 2 2 [.complete, .unavailable] 2 true,
    report 3 3 [.complete, .unavailable] 3 true]

/-- The operation is older than its freshness limit, its observation is not. -/
def agedSteps : List Step :=
  [report 1000 1000 [.complete] 1000 false, report 1001 0 [.complete] 1001 true,
    report 1002 0 [.complete] 1002 true]

/-- A detection and two clearing observations. -/
def plainSteps : List Step :=
  [report 1 1 [.complete] 1 false, report 2 2 [.complete] 2 true,
    report 3 3 [.complete] 3 true]

end Sample

theorem not_recovers {log : List Entry} {a : Application}
    (henough : 0 < a.job.settings.recoverConfirmations)
    (h : ∀ e ∈ log ++ [.applied a],
      Sample.undermined (sightings Sample.machine id log) e = true) :
    ¬ ∃ f d older since clears,
      Recovers Sample.machine id log a f d older since clears := by
  rintro ⟨f, d, older, since, clears, hr⟩
  obtain ⟨c, hc⟩ := List.exists_mem_of_length_pos (lt_of_lt_of_le henough hr.enough)
  have hmem : Entry.applied c.1 ∈ log ++ [.applied a] := by
    have hsince := hr.among.subset (List.mem_map.mpr ⟨c, hc, rfl⟩)
    rw [hr.parts]
    rcases List.mem_append.mp hsince with hs | hs
    · simp [hs]
    · exact List.mem_append_right _ hs
  obtain ⟨result, hfinal, obs, hobs, _, _, htime, _, _, hall⟩ := hr.clear c hc
  have hunder := h _ hmem
  simp only [Sample.undermined, hfinal, Option.toList_some, List.flatMap_cons, List.flatMap_nil,
    List.append_nil, List.all_map, List.all_eq_true, Function.comp_apply, Bool.or_eq_true,
    List.any_eq_true, decide_eq_true_eq, Bool.and_eq_true, beq_iff_eq, bne_iff_ne] at hunder
  rcases hunder obs hobs with ⟨time, ht, hle⟩ | ⟨op, hop, hid, hcov⟩
  · exact absurd (hr.later c hc time ht) (by rw [← htime]; exact not_lt.mpr hle)
  · exact hcov (hall op hop hid)

namespace Sample

/-- The last pass of the run recovers the finding without the support. -/
def Unsupported (steps : List Step) (id : String) : Prop :=
  ∃ before a, journal machine start steps = before ++ [.applied a]
    ∧ (∃ t ∈ a.transitions machine, t.finding = id ∧ t.kind = .recovered)
    ∧ ¬ ∃ f d older since clears, Recovers machine id before a f d older since clears

theorem unsupported_of {steps : List Step} {check : Check} {result : CheckResult} {now : Time}
    {id : String}
    (hrecovered : ((State.apply machine ((monitor machine).run start steps).1 (job check) result
      now now).2.any fun t => t.finding == id && t.kind == .recovered) = true)
    (h : ((journal machine start (steps ++ [.apply (job check) result now now])).all
      (undermined (sightings machine id (journal machine start steps)))) = true) :
    Unsupported (steps ++ [.apply (job check) result now now]) id := by
  have hlast := @journal_apply machine ((monitor machine).run start steps).1 (job check) result
    now now rfl
  refine ⟨journal machine start steps, _, by rw [journal_append, hlast], ?_, ?_⟩
  · rw [List.any_eq_true] at hrecovered
    obtain ⟨t, ht, hk⟩ := hrecovered
    rw [Bool.and_eq_true, beq_iff_eq, beq_iff_eq] at hk
    exact ⟨t, ht, hk⟩
  · refine not_recovers (show 0 < 2 by decide) fun e he => ?_
    rw [journal_append, hlast, List.all_eq_true] at h
    exact h e he

end Sample

/-- A recovery on evidence older than a detection, on an operation that is also
unavailable, and on an operation that is stale in the stored result. -/
theorem recovers_unsupported :
    Sample.Unsupported Sample.lateSteps "app/web/ready"
    ∧ Sample.Unsupported Sample.splitSteps "app/web/ready"
    ∧ Sample.Unsupported Sample.agedSteps "app/web/ready" := by
  refine ⟨?_, ?_, ?_⟩
  · exact @Sample.unsupported_of (Sample.lateSteps.take 3) _ _ _ _ (by decide +kernel)
      (by decide +kernel)
  · exact @Sample.unsupported_of (Sample.splitSteps.take 2) _ _ _ _ (by decide +kernel)
      (by decide +kernel)
  · exact @Sample.unsupported_of (Sample.agedSteps.take 2) _ _ _ _ (by decide +kernel)
      (by decide +kernel)

/-- Two clearing observations in order recover a finding with support. -/
theorem recovered_supported_plain :
    ∃ before a, journal Sample.machine Sample.start Sample.plainSteps = before ++ [.applied a]
      ∧ ∃ f d older since clears,
        Recovers Sample.machine "app/web/ready" before a f d older since clears := by
  have hlast := @journal_append Sample.machine Sample.start (Sample.plainSteps.take 2)
    (Sample.plainSteps.drop 2)
  rw [List.take_append_drop] at hlast
  have hpass : journal Sample.machine
      ((monitor Sample.machine).run Sample.start (Sample.plainSteps.take 2)).1
      (Sample.plainSteps.drop 2) = _ := journal_apply _ _ _ _ _ rfl
  rw [hpass] at hlast
  refine ⟨_, _, hlast, ?_⟩
  refine recovered_supported Sample.machine "" ["app"] 0 Sample.plainSteps "app/web/ready" ?_ ?_
    _ [] _ hlast { time := Sample.sec 3, finding := "app/web/ready", kind := .recovered }
    (by decide +kernel) rfl rfl
  · -- every prefix of the journal has its detections in order
    have hall : ∀ before ∈ (journal Sample.machine Sample.start Sample.plainSteps).inits,
        (sightings Sample.machine "app/web/ready" before).Pairwise (· ≤ ·) := by
      decide +kernel
    exact fun before after h => hall before ((List.mem_inits before _).mpr ⟨after, h.symm⟩)
  · have hall : ∀ e ∈ journal Sample.machine Sample.start Sample.plainSteps,
        e.Vouched Sample.machine "app/web/ready" := by
      decide +kernel
    exact hall

end HealthMonitor
