import HealthMonitor.Core.Report
import HealthMonitor.Core.TransitionLog

/-!
# Comparison

The offline comparison of two snapshots against the transitions emitted between
them. `Report.diff` reads the alarms of the two snapshots and nothing else, so
it agrees with the stream exactly as far as `Alarm.compare` does.
-/

namespace HealthMonitor

open Alarm (Event Notice Phase eventsOf live noticesOf)
open State

variable {host : Host}

/-! ## What the comparison reads -/

/-- The notice a retired entry remembers. -/
def Snapshot.ending (s : Snapshot) (id : String) : Option Notice :=
  (s.retired[id]?).map fun t => t.kind.notice

/-- A table listed through `g`, read at the ids it yields. -/
theorem filter_filterMap_toList {α : Type} (m : Table α)
    (g : String × α → Option Transition) (hg : ∀ e t, g e = some t → t.finding = e.1)
    (id : String) :
    (m.toList.filterMap g).filter (·.finding = id)
      = ((m[id]?).bind fun v => g (id, v)).toList := by
  have hflat : (m.toList.filterMap g).filter (·.finding = id)
      = m.toList.flatMap fun e => ((g e).toList).filter (·.finding = id) := by
    rw [List.filterMap_eq_flatMap_toList, List.filter_flatMap]
  rw [hflat, Table.flatMap_toList m id _ ?_]
  · cases m[id]? with
    | none => rfl
    | some v =>
        simp only [Option.map_some, Option.getD_some, Option.bind_some]
        cases hv : g (id, v) with
        | none => rfl
        | some t => simp [hg _ _ hv]
  · intro e he
    cases hv : g e with
    | none => rfl
    | some t => simp [hg _ _ hv, he]

/-- The comparison about one id. -/
theorem diff_filter {old new : Snapshot}
    (hkeyed : ∀ (id : String) (r : Transition), new.retired[id]? = some r → r.finding = id)
    (id : String) :
    (Report.diff old new).filter (·.finding = id)
      = match new.findings[id]? with
        | some f => ((Report.kindOf old id f).map fun kind =>
            { time := new.capturedAt, finding := id, kind : Transition }).toList
        | none => if old.findings.contains id then (new.retired[id]?).toList else [] := by
  have hgone : (old.findings.toList.filter fun e => !new.findings.contains e.1).filterMap
      (fun e => new.retired[e.1]?)
      = old.findings.toList.filterMap fun e =>
          if new.findings.contains e.1 then none else new.retired[e.1]? := by
    rw [List.filterMap_filter]
    refine List.filterMap_congr fun e _ => ?_
    cases new.findings.contains e.1 <;> rfl
  rw [Report.diff, List.filter_append, hgone, filter_filterMap_toList, filter_filterMap_toList]
  · simp only [Std.ExtTreeMap.contains_eq_isSome_getElem?]
    cases new.findings[id]? <;> cases old.findings[id]? <;> simp
  · intro e t ht
    split at ht
    · cases ht
    · exact hkeyed e.1 t ht
  · rintro ⟨k, f⟩ t ht
    obtain ⟨kind, _, rfl⟩ := Option.map_eq_some_iff.mp ht
    rfl

/-- The comparison about one id reads its alarm before and after. -/
theorem diff_notice {old new : Snapshot}
    (hkeyed : ∀ (id : String) (r : Transition), new.retired[id]? = some r → r.finding = id)
    (id : String) :
    ((Report.diff old new).filter (·.finding = id)).map (fun t => t.kind.notice)
      = (Alarm.compare (old.alarms id) (new.alarms id) (new.ending id)).toList := by
  rw [diff_filter hkeyed]
  unfold Snapshot.alarms Snapshot.ending
  cases hnew : new.findings[id]? with
  | none =>
      rw [phase_of_none hnew]
      cases hold : old.findings[id]? with
      | none =>
          rw [phase_of_none hold, Std.ExtTreeMap.contains_eq_isSome_getElem?, hold]
          split_ifs <;> first | rfl | contradiction
      | some prior =>
          rw [phase_of_some hold, Std.ExtTreeMap.contains_eq_isSome_getElem?, hold]
          cases new.retired[id]? <;> split_ifs <;> first | rfl | contradiction
  | some f =>
      rw [phase_of_some hnew]
      unfold Report.kindOf
      cases hold : old.findings[id]? with
      | none =>
          rw [phase_of_none hold]
          cases old.retired.contains id <;> rfl
      | some prior =>
          rw [phase_of_some hold]
          have hlt : (prior.severity < f.severity) ↔ prior.severity.rank < f.severity.rank :=
            Iff.rfl
          simp only [Alarm.compare, hlt]
          split_ifs <;> rfl

/-! ## What a retired entry remembers -/

/-- The last transition about an id. -/
def lastOf (id : String) (log : List Transition) : Option Transition :=
  (log.filter (·.finding = id)).getLast?

theorem lastOf_notice (id : String) (log : List Transition) :
    (lastOf id log).map (fun t => t.kind.notice) = (noticesFor id log).getLast? := by
  rw [lastOf, noticesFor_eq_map, List.getLast?_map]

/-- Every retired entry is the last transition of its id, or as old as the
start and without any. -/
def Recalls (start retired : Table Transition) (log : List Transition) : Prop :=
  ∀ (id : String) (r : Transition), retired[id]? = some r →
    lastOf id log = some r
    ∨ start[id]? = some r ∧ log.filter (·.finding = id) = []

theorem Recalls.trans {a b c : Table Transition} {log log' : List Transition}
    (h : Recalls a b log) (h' : Recalls b c log') : Recalls a c (log ++ log') := by
  intro id r hr
  simp only [lastOf, List.filter_append]
  rcases h' id r hr with h' | ⟨hb, hnil⟩
  · left
    rw [lastOf] at h'
    rw [List.getLast?_append, h']
    rfl
  · rw [hnil, List.append_nil]
    exact h id r hb

/-- Nothing ages that is not active. -/
theorem expire_silent {snapshot : Snapshot}
    (hkeyed : ∀ (id : String) (f : Finding), snapshot.findings[id]? = some f → f.id = id)
    {id : String} (h : snapshot.findings[id]? = none) (freshness : Nat) (now : Time) :
    (expire snapshot freshness now).2.filter (·.finding = id) = [] := by
  rw [List.filter_eq_nil_iff]
  intro t ht hid
  obtain ⟨e, he, rfl⟩ := List.mem_map.mp ht
  have hmem := Table.mem_toList.mp (List.mem_filter.mp he).1
  have hk : e.1 = id := by
    rw [← hkeyed e.1 e.2 hmem]
    simpa using hid
  rw [hk, h] at hmem
  cases hmem

namespace State.Application

theorem recalls {a : Application} (ho : a.before.Orderly) :
    Recalls a.before.retired (a.after host).retired (a.transitions host) := by
  obtain ⟨hscanned, hplays, _⟩ := @scanned_plays host a ho
  have hretire := @retirement_orderly host a hscanned
  intro id r hr
  have hr : (a.retirement host).retired[id]? = some r := by
    rw [after_eq, expire_retired, pending_retired, trimRetired_getElem?] at hr
    split at hr
    · cases hr
    · exact hr
  have hout : (a.retirement host).findings[id]? = none := by
    cases hf : (a.retirement host).findings[id]? with
    | none => rfl
    | some f =>
        exact absurd (Table.mem_iff_getElem?.mpr ⟨r, hr⟩)
          (hretire.disjoint id (Table.mem_iff_getElem?.mpr ⟨f, hf⟩))
  have hexpired : (a.expired host).2.filter (·.finding = id) = [] :=
    expire_silent (by rw [pending_findings]; exact hretire.keyed)
      (by rw [pending_findings]; exact hout) _ _
  have hsettle := hr
  rw [retirement, retire_retired, Option.or_eq_some_iff] at hsettle
  have hreports : ∀ f : String × TransitionKind → Transition, (∀ e, (f e).finding = e.1) →
      ((a.settled host).reports.map f).filter (·.finding = id)
        = ((a.settled host).reports.filter (·.1 == id)).map f := by
    intro f hf
    rw [List.filter_map]
    congr 1
    refine List.filter_congr fun e _ => ?_
    rw [Function.comp_apply, hf, Bool.beq_eq_decide_eq]
  simp only [lastOf, transitions, List.filter_append, hexpired, List.append_nil]
  rw [hreports _ fun _ => rfl]
  rcases hsettle with hfound | ⟨hnone, hr⟩
  · left
    obtain ⟨e, he, rfl⟩ := Option.map_eq_some_iff.mp hfound
    have hlast : ((a.settled host).reports.filter (·.1 == id)).getLast? = some e := by
      rw [List.getLast?_filter, ← List.findRev?_eq_find?_reverse]
      exact he
    rw [List.getLast?_append, List.getLast?_map, hlast]
    rfl
  · right
    rw [Option.map_eq_none_iff, List.findRev?_eq_find?_reverse, List.find?_eq_none] at hnone
    have hnil : (a.settled host).reports.filter (·.1 == id) = [] := by
      rw [List.filter_eq_nil_iff]
      exact fun e he => hnone e (List.mem_reverse.mpr he)
    -- An id whose retired entry survives the scan was not detected.
    rw [scanned_stores.retired, start_retired, Table.getElem?_foldl_erase Finding.id] at hr
    split at hr
    · cases hr
    · rename_i hnot
      refine ⟨hr, ?_⟩
      have hlive := congrArg Prod.snd (hplays.live id)
      have hdetections : (a.detections host).filter (·.id = id) = [] := by
        rw [List.filter_eq_nil_iff]
        intro f hf hid
        exact hnot (List.mem_map.mpr ⟨f, hf, by simpa using hid⟩)
      rw [eventsOf_detections, hdetections] at hlive
      have hempty : noticesFor id (a.scanned host).transitions = [] := hlive.symm
      rw [noticesFor_eq_map, List.map_eq_nil_iff] at hempty
      rw [hempty, hnil]
      rfl

end State.Application

theorem pass_recalls (s : Snapshot) (action : Action) (ho : s.Orderly) :
    Recalls s.retired ((passes host).step s action).1.retired
      (((passes host).step s action).2.flatMap (Entry.transitions host)) := by
  have quiet : ∀ table : Table Transition, Recalls table table [] :=
    fun _ _ _ h => .inr ⟨h, rfl⟩
  cases action with
  | collect job result now clock =>
      simp only [passes, List.flatMap_cons, List.flatMap_nil, List.append_nil]
      exact Application.recalls (a := { before := s, job, result, now, clock }) ho
  | evaluateFlows job now clock =>
      obtain ⟨progress, he, _, _⟩ := Flows.evaluate_snapshot s job now clock
      simp only [passes, he]
      exact quiet _
  | restoreSamples key samples => exact quiet _
  | expire freshness now =>
      simp only [passes, List.flatMap_cons, List.flatMap_nil, List.append_nil]
      intro id r hr
      refine .inr ⟨hr, expire_silent ho.keyed ?_ freshness now⟩
      cases hf : s.findings[id]? with
      | none => rfl
      | some f =>
          exact absurd (Table.mem_iff_getElem?.mpr ⟨r, hr⟩)
            (ho.disjoint id (Table.mem_iff_getElem?.mpr ⟨f, hf⟩))

theorem run_recalls (s : Snapshot) (steps : List Step) (ho : s.Orderly) :
    Recalls s.retired ((monitor host).run s steps).1.retired
      ((monitor host).run s steps).2 := by
  have htracks : (passes host).Tracks (fun _ => True) fun log t =>
      t.Orderly ∧ Recalls s.retired t.retired (log.flatMap (Entry.transitions host)) := by
    rintro log t action _ ⟨ho, hr⟩
    refine ⟨(pass_plays t action ho).1, ?_⟩
    rw [List.flatMap_append]
    exact hr.trans (pass_recalls t action ho)
  rw [run_eq]
  exact (htracks.run_start s (actions host s steps) (fun _ _ => trivial)
    ⟨ho, fun _ _ h => .inr ⟨h, rfl⟩⟩).2

/-- Retired entries are stored under their own id. -/
theorem retired_keyed (revision : String) (scope : List String) (clock : Time)
    (steps : List Step) (id : String) (r : Transition)
    (h : ((monitor host).run (State.new revision scope clock) steps).1.retired[id]?
      = some r) : r.finding = id := by
  rcases @run_recalls host _ steps (new_orderly revision scope clock) id r h
    with hlast | ⟨hstart, _⟩
  · have := List.mem_filter.mp (List.mem_of_getLast? hlast)
    simpa using this.2
  · simp [State.new] at hstart

/-! ## The comparison and the stream -/

/-- `apply` is a run of one step. -/
theorem run_apply (s : Snapshot) (job : Job) (result : CheckResult) (now clock : Time) :
    (monitor host).run s [.apply job result now clock]
      = State.apply host s job result now clock := by
  rw [Process.run_singleton]
  rfl

/-- Every transition of `apply` is stamped with its instant, and so is the
state it leaves. -/
theorem apply_stamped (s : Snapshot) (job : Job) (result : CheckResult) (now clock : Time)
    (ho : s.Orderly) :
    (State.apply host s job result now clock).1.capturedAt = now
    ∧ ∀ t ∈ (State.apply host s job result now clock).2, t.time = now := by
  have hcollect : ∀ (s : Snapshot) (job : Job) (result : CheckResult), s.Orderly →
      (collect host s job result now clock).1.capturedAt = now
      ∧ (∀ t ∈ (collect host s job result now clock).2, t.time = now)
      ∧ (collect host s job result now clock).1.Orderly := by
    intro s job result ho
    obtain ⟨horderly, _, htime⟩ :=
      @Application.refines host { before := s, job, result, now, clock } ho
    refine ⟨?_, htime, horderly⟩
    show (Application.after host { before := s, job, result, now, clock }).capturedAt = now
    rw [Application.after_eq, expire_capturedAt, Application.pending]
  unfold State.apply
  obtain ⟨hcaptured, htime, horderly⟩ := hcollect s job result ho
  generalize collect host s job result now clock = out at hcaptured htime horderly
  obtain ⟨after, ts⟩ := out
  dsimp only at hcaptured htime horderly ⊢
  split
  · obtain ⟨progress, he, _, _⟩ := Flows.evaluate_snapshot after (flowJob job) now clock
    rw [he]
    obtain ⟨hflow, hflowtime, _⟩ := hcollect { after with progress } (flowJob job)
      (Flows.evaluate after (flowJob job) now clock).2 horderly
    refine ⟨hflow, fun t ht => ?_⟩
    rcases List.mem_append.mp ht with ht | ht
    · exact htime t ht
    · exact hflowtime t ht
  · exact ⟨hcaptured, htime⟩

/-- Two lists of transitions of one id and one instant are equal when they
publish the same notices. -/
theorem eq_of_notices {id : String} {now : Time} {l l' : List Transition}
    (h : ∀ t ∈ l, t.finding = id ∧ t.time = now) (h' : ∀ t ∈ l', t.finding = id ∧ t.time = now) :
    l = l' ↔ l.map (fun t => t.kind.notice) = l'.map (fun t => t.kind.notice) := by
  refine ⟨fun he => by rw [he], fun he => ?_⟩
  induction l generalizing l' with
  | nil =>
      cases l' with
      | nil => rfl
      | cons t l' => cases he
  | cons t l ih =>
      cases l' with
      | nil => cases he
      | cons u l' =>
          rw [List.map_cons, List.map_cons, List.cons.injEq] at he
          have htu : t = u := by
            obtain ⟨hid, htime⟩ := h t (by simp)
            obtain ⟨hid', htime'⟩ := h' u (by simp)
            have hkind := TransitionKind.notice_injective he.1
            cases t
            cases u
            simp only at hid htime hid' htime' hkind
            rw [hid, htime, hid', htime', hkind]
          rw [htu, ih (fun v hv => h v (by simp [hv])) (fun v hv => h' v (by simp [hv])) he.2]

/-- Let no pass of an `apply` refresh the finding silently or forget it, and let
every detection of it have the same severity. Then the offline comparison
reports exactly its last transition if and only if the state before admits that
transition at once; in particular when there is at most one. -/
theorem diff_eq_last (host : Host) (revision : String) (scope : List String) (start : Time)
    (steps : List Step) (job : Job) (result : CheckResult) (now clock : Time) (id : String) :
    let s := ((monitor host).run (State.new revision scope start) steps).1
    let out := State.apply host s job result now clock
    let passed := journal host s [.apply job result now clock]
    (∀ a, .applied a ∈ passed → ¬ a.ClearsStale host id ∧ id ∉ a.forgotten host) →
    (∀ a b, .applied a ∈ passed → .applied b ∈ passed → ∀ f ∈ a.detections host,
      ∀ g ∈ b.detections host, f.id = id → g.id = id → f.severity = g.severity) →
    ((Report.diff s out.1).filter (·.finding = id) = (lastOf id out.2).toList
        ↔ ∀ t, lastOf id out.2 = some t → (s.alarms id).Admits t.kind.notice)
    ∧ ((out.2.filter (·.finding = id)).length ≤ 1 →
        (Report.diff s out.1).filter (·.finding = id) = out.2.filter (·.finding = id)) := by
  intro s out passed hquiet huniform
  have ho : s.Orderly := (run_plays _ steps (new_orderly revision scope start)).1
  have hout : (monitor host).run s [.apply job result now clock] = out := run_apply ..
  have hwhole : ((monitor host).run (State.new revision scope start)
      (steps ++ [.apply job result now clock])).1 = out.1 := by
    rw [Process.run_append, hout]
  have hkeyed : ∀ (id : String) (r : Transition), out.1.retired[id]? = some r →
      r.finding = id := by
    intro id r hr
    rw [← hwhole] at hr
    exact retired_keyed revision scope start _ id r hr
  obtain ⟨_, hplays⟩ := @run_plays host s [.apply job result now clock] ho
  rw [hout] at hplays
  have hlive := hplays.live id
  have hrecalls := @run_recalls host s [.apply job result now clock] ho
  rw [hout] at hrecalls
  have hrefresh : ∀ e ∈ passed, ¬ e.Refreshes host id := by
    intro e he
    cases e with
    | applied a => exact (hquiet a he).1
    | expired => exact fun h => h
  have haudible := journal_audible ho hrefresh
  have hsteady : Alarm.Steady (eventsOf id (passed.flatMap (Entry.events host))) := by
    refine ⟨fun h => ?_, fun severity h severity' h' => ?_⟩
    · obtain ⟨e, he, hev⟩ := mem_eventsOf.mp h
      obtain ⟨a, rfl, ha⟩ := (Entry.mem_events hev).2 rfl
      exact (hquiet a he).2 ha
    · obtain ⟨e, he, hev⟩ := mem_eventsOf.mp h
      obtain ⟨e', he', hev'⟩ := mem_eventsOf.mp h'
      obtain ⟨a, rfl, f, hf, hid, rfl⟩ := (Entry.mem_events hev).1 severity rfl
      obtain ⟨b, rfl, g, hg, hid', rfl⟩ := (Entry.mem_events hev').1 severity' rfl
      exact huniform a b he he' f hf g hg hid hid'
  have htold := Alarm.live_told (fun s : Severity => Nat.lt_irrefl s.rank) haudible hsteady
  have hphase : (live (s.alarms id) (eventsOf id (passed.flatMap (Entry.events host)))).1
      = out.1.alarms id := congrArg Prod.fst hlive
  have hnotices : (live (s.alarms id) (eventsOf id (passed.flatMap (Entry.events host)))).2
      = noticesFor id out.2 := congrArg Prod.snd hlive
  have hnew : (noticesFor id out.2).getLast? = some .new → s.alarms id = .idle := by
    intro hlast
    rcases Alarm.new_of_live (hnotices ▸ List.mem_of_getLast? hlast) with h | h
    · exact h
    · exact absurd h hsteady.remembered
  -- The entry of an alarm that ended is its last transition.
  have hended : ∀ n, (noticesFor id out.2).getLast? = some n → out.1.alarms id = .retired →
      out.1.ending id = some n := by
    intro n hlast hret
    cases hr : out.1.retired[id]? with
    | none =>
        unfold Snapshot.alarms phase at hret
        rw [Std.ExtTreeMap.contains_eq_isSome_getElem?, hr] at hret
        split at hret <;> cases hret
    | some r =>
        rw [Snapshot.ending, hr]
        rcases hrecalls id r hr with h | ⟨_, hnil⟩
        · rw [← lastOf_notice, h] at hlast
          exact hlast
        · rw [noticesFor_eq_map, hnil] at hlast
          cases hlast
  rw [hphase, hnotices] at htold
  have hcompare := Alarm.compare_eq_iff (fun s : Severity => Nat.lt_irrefl s.rank) htold hnew
    hended
  obtain ⟨hcaptured, htime⟩ := @apply_stamped host s job result now clock ho
  have hlast : ∀ t ∈ (lastOf id out.2).toList, t.finding = id ∧ t.time = now := by
    intro t ht
    have hmem := List.mem_filter.mp (List.mem_of_getLast? (Option.mem_toList.mp ht))
    exact ⟨by simpa using hmem.2, htime t hmem.1⟩
  have hdiff : ∀ t ∈ (Report.diff s out.1).filter (·.finding = id),
      t.finding = id ∧ t.time = now := by
    intro t ht
    have hid : t.finding = id := by simpa using (List.mem_filter.mp ht).2
    refine ⟨hid, ?_⟩
    rw [diff_filter hkeyed] at ht
    split at ht
    · obtain ⟨kind, _, rfl⟩ := Option.map_eq_some_iff.mp (Option.mem_toList.mp ht)
      exact hcaptured
    · split at ht
      · rename_i hin
        rcases hrecalls id t (Option.mem_toList.mp ht) with h | ⟨hstart, _⟩
        · exact (hlast t (Option.mem_toList.mpr h)).2
        · exact absurd (Table.mem_iff_getElem?.mpr ⟨t, hstart⟩)
            (ho.disjoint id (Std.ExtTreeMap.contains_iff_mem.mp hin))
      · cases ht
  have hmain : (Report.diff s out.1).filter (·.finding = id) = (lastOf id out.2).toList
      ↔ ∀ t, lastOf id out.2 = some t → (s.alarms id).Admits t.kind.notice := by
    have hinjective : ∀ n n' : Option Notice, n.toList = n'.toList ↔ n = n' := by
      intro n n'
      cases n <;> cases n' <;> simp
    rw [eq_of_notices hdiff hlast, diff_notice hkeyed, ← Option.toList_map, lastOf_notice,
      hinjective, hcompare, ← lastOf_notice]
    cases lastOf id out.2 <;> simp
  refine ⟨hmain, fun hlength => ?_⟩
  have hadmits : ∀ t, lastOf id out.2 = some t → (s.alarms id).Admits t.kind.notice := by
    intro t ht
    refine Alarm.admits_of_singleton haudible hsteady.remembered ?_
    rw [hnotices, noticesFor_eq_map]
    rw [lastOf] at ht
    obtain ⟨u, hu⟩ : ∃ u, out.2.filter (·.finding = id) = [u] := by
      refine List.length_eq_one_iff.mp (Nat.le_antisymm hlength ?_)
      exact List.length_pos_of_mem (List.mem_of_getLast? ht)
    rw [hu] at ht ⊢
    cases ht
    rfl
  rw [hmain.mpr hadmits, lastOf]
  rcases Nat.le_one_iff_eq_zero_or_eq_one.mp hlength with hnone | hone
  · rw [List.length_eq_zero_iff.mp hnone]
    rfl
  · obtain ⟨u, hu⟩ := List.length_eq_one_iff.mp hone
    rw [hu]
    rfl

/-! ## Where they disagree -/

namespace Sample

/-- What one `apply` emits, and what the comparison reports. -/
def compared (before : List Step) (job : Job) (result : CheckResult) (now : Time) :
    List (String × TransitionKind) × List (String × TransitionKind) :=
  let s := ((monitor machine).run start before).1
  let out := State.apply machine s job result now now
  (out.2.map fun t => (t.finding, t.kind),
    (Report.diff s out.1).map fun t => (t.finding, t.kind))

/-- A load reading with its warning at 1 and its error at 2. -/
def load (time : Time) (value : Nat) : Observation :=
  { resource := "app/web", operation := "load", observedAt := time
    data := .metric
      { name := "load", value := .ofNat value, capacity := none
        warning := some (.ofNat 1), error := some (.ofNat 2), windowSeconds := 60 } }

def loads (time : Time) (values : List Nat) : CheckResult :=
  result .metrics time [operation "load" time] (values.map (load time))

def conditions (time : Time) (healthy : Bool) : CheckResult :=
  result .managed time [operation "services" time]
    [condition "app/api" "services" time healthy, condition "app/web" "services" time healthy]

/-- A smaller limit, and one confirmation is enough. -/
def strict : Settings :=
  { (job .managed).settings with recoverConfirmations := 1, maxFindings := 1 }

end Sample

/-- The comparison misses a second transition of one step, a severity that is
lowered and raised again in one step, and a recovery that is trimmed at once;
and it reports a refresh that emitted nothing. -/
theorem diff_disagrees :
    Sample.compared [] (Sample.job .managed) (Sample.conditions 0 false)
        (Sample.sec 690 + 500000000)
      = ([("app/api/ready", .new), ("app/web/ready", .new),
            ("app/api/ready", .stale), ("app/web/ready", .stale)],
          [("app/api/ready", .new), ("app/web/ready", .new)])
    ∧ Sample.compared [.apply (Sample.job .metrics) (Sample.loads 0 [3]) 0 0]
        (Sample.job .metrics) (Sample.loads (Sample.sec 1) [1, 3]) (Sample.sec 1)
      = ([("app/web/metric-threshold", .worsened)], [])
    ∧ Sample.compared [.apply (Sample.job .managed) (Sample.conditions 0 false) 0 0]
        { Sample.job .managed with settings := Sample.strict }
        (Sample.conditions (Sample.sec 1) true) (Sample.sec 1)
      = ([("app/api/ready", .recovered), ("app/web/ready", .recovered)],
          [("app/web/ready", .recovered)])
    ∧ Sample.compared (refreshingSteps.take 2) (Sample.job .managed)
        (Sample.conditions (Sample.sec 701) true) (Sample.sec 701)
      = ([], [("app/web/ready", .reappeared)]) := by
  decide +kernel

/-- A first detection is reported the same way by both. -/
theorem diff_eq_last_detection :
    let out := State.apply Sample.machine Sample.start (Sample.job .managed)
      (Sample.conditions 0 false) 0 0
    (Report.diff Sample.start out.1).filter (·.finding = "app/web/ready")
      = out.2.filter (·.finding = "app/web/ready") := by
  have hpassed : journal Sample.machine Sample.start
      [.apply (Sample.job .managed) (Sample.conditions 0 false) 0 0]
      = [.applied { before := Sample.start, job := Sample.job .managed
                    result := Sample.conditions 0 false, now := 0, clock := 0 }] := by
    simp only [journal, actions, Process.expand, Step.actions, applyActions, Sample.job]
    simp [passes]
  have hmem : ∀ a, .applied a ∈ journal Sample.machine Sample.start
      [.apply (Sample.job .managed) (Sample.conditions 0 false) 0 0] →
      a = { before := Sample.start, job := Sample.job .managed
            result := Sample.conditions 0 false, now := 0, clock := 0 } := by
    intro a ha
    rw [hpassed, List.mem_singleton] at ha
    cases ha
    rfl
  refine (diff_eq_last Sample.machine "" ["app"] 0 [] (Sample.job .managed)
    (Sample.conditions 0 false) 0 0 "app/web/ready" ?_ ?_).2 (by decide +kernel)
  · intro a ha
    rw [hmem a ha]
    refine ⟨?_, by decide +kernel⟩
    rintro ⟨f, hf, _⟩
    simp [Sample.start, State.new] at hf
  · intro a b ha hb
    rw [hmem a ha, hmem b hb]
    decide +kernel

end HealthMonitor
