import HealthMonitor.Core.Recoveries

/-!
# Episodes

Detection times belong to a finding episode: the passes from the detection that makes a
finding active to the one that ends it. The first detection of the episode leaves its time
with the finding, or nothing when the diagnostic is refused, and no later pass of the
episode changes that.
-/

namespace HealthMonitor

open State

variable {host : Host} {id : String}

/-- When the finding was detected first, as far as it knows. -/
def Finding.since (f : Finding) : Option Time := f.diagnostic.bind Diagnostic.firstDetectedAt

namespace State

variable {job : Job} {now : Time} {prior : Option Observation} {obs : Observation} {scan : Scan}
  {finding : Finding}

theorem recorded_since_some {old : Finding} (h : scan.findings[finding.id]? = some old) :
    (recorded host job prior obs scan finding).since = old.since := by
  rw [Finding.since, recorded, admission, h, Diagnostic.admitted]
  dsimp only
  split
  · rfl
  · rfl

theorem recorded_since_none (h : scan.findings[finding.id]? = none) :
    (recorded host job prior obs scan finding).since = none
      ∨ (recorded host job prior obs scan finding).since = some obs.observedAt := by
  rw [Finding.since, recorded, admission, h, Diagnostic.admitted]
  dsimp only
  split
  · exact .inr rfl
  · exact .inl rfl

/-- What detections do to the episode of an id: one that goes on keeps its first time, and
one that starts has the time of the first of them, or none. -/
def Continues (before : Option Finding) (ds : List Finding) (after : Option Finding) : Prop :=
  match before, ds with
  | some f, _ => ∃ g, after = some g ∧ g.since = f.since
  | none, [] => after = none
  | none, d :: _ => ∃ g, after = some g ∧ (g.since = none ∨ g.since = some d.observedAt)

theorem Continues.same (f : Option Finding) : Continues f [] f := by
  cases f with
  | none => rfl
  | some f => exact ⟨f, rfl, rfl⟩

theorem Continues.trans {a b c : Option Finding} {ds es : List Finding} (h : Continues a ds b)
    (h' : Continues b es c) : Continues a (ds ++ es) c := by
  cases a with
  | some f =>
      obtain ⟨g, rfl, hg⟩ := h
      obtain ⟨k, rfl, hk⟩ := h'
      exact ⟨k, rfl, hk.trans hg⟩
  | none =>
      cases ds with
      | nil =>
          obtain rfl : b = none := h
          exact h'
      | cons d ds =>
          obtain ⟨g, rfl, hg⟩ := h
          obtain ⟨k, rfl, hk⟩ := h'
          exact ⟨k, rfl, hk ▸ hg⟩

theorem detect_continues (hobserved : finding.observedAt = obs.observedAt) :
    Continues scan.findings[id]?
      ((if refuses job scan.findings finding.id then []
        else [recorded host job prior obs scan finding]).filter (·.id = id))
      (detect host job now prior obs scan finding).findings[id]? := by
  rw [detect_stores.findings]
  by_cases hrefuses : refuses job scan.findings finding.id = true
  · rw [if_pos hrefuses]
    exact .same _
  · rw [if_neg hrefuses, List.foldl_cons, List.foldl_nil]
    have hrecorded : (recorded host job prior obs scan finding).id = finding.id := rfl
    by_cases hid : finding.id = id
    · subst hid
      have hfilter : [recorded host job prior obs scan finding].filter (·.id = finding.id)
          = [recorded host job prior obs scan finding] := by simp [hrecorded]
      rw [hfilter, hrecorded, Std.ExtTreeMap.getElem?_insert_self]
      cases hold : scan.findings[finding.id]? with
      | some old => exact ⟨_, rfl, recorded_since_some hold⟩
      | none =>
          refine ⟨_, rfl, ?_⟩
          have htime : (recorded host job prior obs scan finding).observedAt = obs.observedAt :=
            hobserved
          rw [htime]
          exact recorded_since_none hold
    · have hfilter : [recorded host job prior obs scan finding].filter (·.id = id) = [] := by
        simp [hrecorded, hid]
      have hlookup : (scan.findings.insert finding.id
          (recorded host job prior obs scan finding))[id]? = scan.findings[id]? := by
        rw [Std.ExtTreeMap.getElem?_insert, if_neg (by simpa using hid)]
      rw [hfilter, hrecorded, hlookup]
      exact .same _

variable (scan) in
theorem accepted_continues {e : Evaluation} (h : Evaluation.Verdict obs e) :
    Continues scan.findings[id]?
      ((accepted host job now prior obs scan e.findings).filter (·.id = id))
      (e.findings.foldl (detect host job now prior obs) scan).findings[id]? := by
  cases h with
  | result => exact .same _
  | fault rule severity confidence =>
      simp only [Policy.fault, accepted, List.append_nil, List.foldl_cons, List.foldl_nil]
      exact detect_continues rfl

theorem detections_continues (l : List Observation) : ∀ scan : Scan,
    Continues scan.findings[id]? ((detections host job now scan l).filter (·.id = id))
      (l.foldl (scanObservation host job now) scan).findings[id]? := by
  induction l with
  | nil => exact fun scan => .same _
  | cons obs rest ih =>
      intro scan
      rw [detections, List.filter_append]
      exact Continues.trans
        (accepted_continues (note host job now scan obs) evaluated_verdict) (ih _)

end State

/-! ## Passes -/

namespace State.Application

variable {a : Application}

theorem settled_since (s : Settling) (f : Finding) (confirmation : Option RemovalConfirmation) :
    (settleFinding s id f confirmation).value.since = f.since := by
  have hvalue := settles s id f confirmation
  generalize settleFinding s id f confirmation = visit at hvalue
  cases hvalue <;> rfl

theorem age_since (freshness : Nat) (now : Time) (f : Finding) :
    (age freshness now f).since = f.since := by
  unfold age
  split <;> rfl

/-- A pass keeps the episode of a finding that it does not end. -/
theorem after_continues (hends : a.ends host id = false) :
    Continues a.before.findings[id]? ((a.detections host).filter (·.id = id))
      (a.after host).findings[id]? := by
  have hscan : Continues a.before.findings[id]? ((a.detections host).filter (·.id = id))
      (a.scanned host).findings[id]? := by
    rw [scanned_eq, ← start_findings]
    exact detections_continues _ _
  have hnot : id ∉ (a.settled host).reports.map Prod.fst := by
    rw [ends] at hends
    simpa using hends
  have hafter : (a.after host).findings[id]?
      = ((a.scanned host).findings[id]?).map fun f =>
        age a.job.settings.freshness a.now (settleFinding (a.settling host) id f
          (a.prepared host).1.confirmations[confirmationKey (a.settling host).job id]?).value := by
    rw [after_eq, expire_findings, pending_findings, retirement, retire_findings, if_neg hnot,
      settled, settle_entries, Option.map_map]
    rfl
  rw [hafter]
  have hlast : ∀ f : Option Finding, Continues f []
      (f.map fun f => age a.job.settings.freshness a.now (settleFinding (a.settling host) id f
        (a.prepared host).1.confirmations[confirmationKey (a.settling host).job id]?).value) := by
    intro f
    cases f with
    | none => rfl
    | some f => exact ⟨_, rfl, (age_since _ _ _).trans (settled_since _ _ _)⟩
  simpa using hscan.trans (hlast _)

/-- A pass that ends a finding leaves it inactive. -/
theorem after_ended (hends : a.ends host id = true) : (a.after host).findings[id]? = none := by
  cases hg : (a.after host).findings[id]? with
  | none => rfl
  | some g => exact absurd hends (by simp [(after_finding hg).1])

end State.Application

/-! ## Runs -/

/-- The times of the episode are those of its detections, the first of which is the one that
an active finding knows, if it knows any. -/
def Dated (host : Host) (id : String) (log : List Entry) (s : Snapshot) : Prop :=
  (∀ f, s.findings[id]? = some f →
    ∃ first, (sightings host id log).head? = some first ∧ (f.since = none ∨ f.since = some first))
  ∧ (s.findings[id]? = none → sightings host id log = [])

theorem dated_congr {log : List Entry} {s t : Snapshot} (h : Dated host id log s)
    (hsame : t.findings[id]? = s.findings[id]?) : Dated host id log t :=
  ⟨fun f hf => h.1 f (hsame ▸ hf), fun hf => h.2 (hsame ▸ hf)⟩

theorem passes_dated :
    (passes host).Tracks (fun _ => True) fun log s => Dated host id log s := by
  rintro log s action - ih
  cases action with
  | collect job result now clock =>
      generalize ha : ({ before := s, job, result, now, clock } : Application) = a
      have hstep : (passes host).step s (.collect job result now clock)
          = (a.after host, [.applied a]) := by
        rw [← ha]
        rfl
      have hbefore : a.before = s := by rw [← ha]
      have hends' : Entry.ends host id (.applied a) = a.ends host id := rfl
      rw [hstep, Dated, sightings_append, hends']
      dsimp only
      by_cases hends : a.ends host id = true
      · rw [if_pos hends, Application.after_ended hends]
        exact ⟨fun f hf => (by cases hf), fun _ => rfl⟩
      · rw [if_neg hends]
        have hcontinues := Application.after_continues (by simpa using hends)
        rw [hbefore] at hcontinues
        have hsightings : Entry.sightings host id (.applied a)
            = ((a.detections host).filter (·.id = id)).map Finding.observedAt := rfl
        rw [hsightings]
        generalize (a.detections host).filter (·.id = id) = ds at hcontinues ⊢
        cases hs : s.findings[id]? with
        | some f =>
            rw [hs] at hcontinues
            obtain ⟨g, hg, hsince⟩ := hcontinues
            obtain ⟨first, hfirst, hknown⟩ := ih.1 f hs
            rw [hg]
            refine ⟨fun k hk => ⟨first, ?_, ?_⟩, fun hnone => by cases hnone⟩
            · rw [List.head?_append, hfirst]
              rfl
            · cases hk
              exact hsince ▸ hknown
        | none =>
            rw [hs] at hcontinues
            rw [ih.2 hs, List.nil_append]
            cases ds with
            | nil =>
                rw [show (a.after host).findings[id]? = none from hcontinues]
                exact ⟨fun f hf => (by cases hf), fun _ => rfl⟩
            | cons d ds =>
                obtain ⟨g, hg, hknown⟩ := hcontinues
                rw [hg]
                refine ⟨fun k hk => ⟨d.observedAt, rfl, ?_⟩, fun hnone => by cases hnone⟩
                cases hk
                exact hknown
  | evaluateFlows job now clock =>
      obtain ⟨progress, he, _, _⟩ := Flows.evaluate_snapshot s job now clock
      simp only [passes, he, List.append_nil]
      exact dated_congr ih rfl
  | restoreSamples key samples =>
      simp only [passes, List.append_nil]
      exact dated_congr ih rfl
  | expire freshness now =>
      simp only [passes]
      rw [Dated, sightings_append, if_neg (by simp [Entry.ends]), expire_findings]
      have hnone : Entry.sightings host id (.expired s freshness now) = [] := rfl
      rw [hnone, List.append_nil]
      refine ⟨fun g hg => ?_, fun hg => ih.2 (Option.map_eq_none_iff.mp hg)⟩
      obtain ⟨f, hf, rfl⟩ := Option.map_eq_some_iff.mp hg
      obtain ⟨first, hfirst, hknown⟩ := ih.1 f hf
      exact ⟨first, hfirst, (Application.age_since freshness now f).symm ▸ hknown⟩

/-- Since a finding was active, its first time has not changed, as long as no pass ended it. -/
def Steady (host : Host) (id : String) (log : List Entry) (s : Snapshot) : Prop :=
  ∀ older e since f, log = older ++ e :: since → e.before.findings[id]? = some f →
    (∀ x ∈ e :: since, x.ends host id = false) →
      ∃ g, s.findings[id]? = some g ∧ g.since = f.since

/-- One entry keeps the first time of a finding that it does not end. -/
theorem entry_steady {e : Entry} {f : Finding} (hf : e.before.findings[id]? = some f)
    (hends : e.ends host id = false) :
    ∃ g, (e.after host).findings[id]? = some g ∧ g.since = f.since := by
  cases e with
  | applied a =>
      have hcontinues := Application.after_continues hends
      rw [show a.before.findings[id]? = some f from hf] at hcontinues
      exact hcontinues
  | expired before freshness now =>
      refine ⟨age freshness now f, ?_, Application.age_since freshness now f⟩
      have hfinding : before.findings[id]? = some f := hf
      rw [Entry.after, expire_findings, hfinding]
      rfl

theorem passes_steady :
    (passes host).Tracks (fun _ => True) fun log s => Steady host id log s := by
  rintro log s action - ih
  have hcase : ((passes host).step s action).2 = []
        ∧ ((passes host).step s action).1.findings = s.findings
      ∨ ∃ e : Entry, ((passes host).step s action).2 = [e] ∧ e.before = s
        ∧ e.after host = ((passes host).step s action).1 := by
    cases action with
    | collect => exact .inr ⟨_, rfl, rfl, rfl⟩
    | evaluateFlows job now clock =>
        obtain ⟨progress, he, _, _⟩ := Flows.evaluate_snapshot s job now clock
        refine .inl ⟨rfl, ?_⟩
        simp only [passes, he]
    | restoreSamples => exact .inl ⟨rfl, rfl⟩
    | expire => exact .inr ⟨_, rfl, rfl, rfl⟩
  obtain ⟨hnil, hsame⟩ | ⟨new, hnew, hbefore, hafter⟩ := hcase
  · rw [hnil, List.append_nil, Steady, hsame]
    exact ih
  · rw [hnew, ← hafter]
    intro older e since f hlog hf hends
    -- the pass in which the finding was seen is the last one, or one before it
    rcases List.eq_nil_or_concat since with rfl | ⟨init, last, rfl⟩
    · obtain ⟨rfl, he⟩ := List.append_inj' hlog rfl
      cases he
      exact entry_steady hf (hends new (List.mem_singleton_self _))
    · rw [List.concat_eq_append, ← List.cons_append, ← List.append_assoc] at hlog
      obtain ⟨rfl, hlast⟩ := List.append_inj' hlog rfl
      cases hlast
      obtain ⟨g, hg, hsince⟩ := ih older e init f rfl hf fun x hx => hends x (by
        rcases List.mem_cons.mp hx with rfl | hx
        · exact List.mem_cons_self ..
        · exact List.mem_cons_of_mem _ (by simp [hx]))
      obtain ⟨k, hk, hsince'⟩ := entry_steady (hbefore ▸ hg) (hends new (by simp))
      exact ⟨k, hk, hsince'.trans hsince⟩

/-- **Detection times belong to one episode.** In every run, the first time that an active
finding knows is that of the detection that made it active, and it is the one that the
finding knew at any earlier pass, if no pass since ended it. -/
theorem first_detected_episode (host : Host) (revision : String) (scope : List String)
    (began : Time) (steps : List Step) (id : String) (f : Finding) :
    let start := State.new revision scope began
    ((monitor host).run start steps).1.findings[id]? = some f →
      (∀ t, f.since = some t →
          (sightings host id (journal host start steps)).head? = some t)
        ∧ ∀ older e since g, journal host start steps = older ++ e :: since →
          e.before.findings[id]? = some g →
          (∀ x ∈ e :: since, x.ends host id = false) → f.since = g.since := by
  intro start hf
  rw [run_eq] at hf
  have hdated : Dated host id (journal host start steps)
      ((passes host).run start (actions host start steps)).1 :=
    passes_dated.run_start _ _ (fun _ _ => trivial)
      ⟨fun f hf => by simp [start, State.new] at hf, fun _ => rfl⟩
  have hsteady : Steady host id (journal host start steps)
      ((passes host).run start (actions host start steps)).1 :=
    passes_steady.run_start _ _ (fun _ _ => trivial)
      fun older e since f hlog => by simp at hlog
  constructor
  · intro t ht
    obtain ⟨first, hfirst, hnone | hsome⟩ := hdated.1 f hf
    · rw [hnone] at ht
      cases ht
    · rw [hfirst, ← hsome, ht]
  · intro older e since g hlog hg hends
    obtain ⟨k, hk, hsince⟩ := hsteady older e since g hlog hg hends
    rw [hf] at hk
    cases hk
    exact hsince

/-- A finding that was cleared once is detected again. -/
def Sample.relapseSteps : List Step :=
  [report 1 1 [.complete] 1 false, report 2 2 [.complete] 2 true,
    report 3 3 [.complete] 3 false]

theorem first_detected_episode_relapse :
    (sightings Sample.machine "app/web/ready"
      (journal Sample.machine Sample.start Sample.relapseSteps)).head? = some (Sample.sec 1) := by
  have hsince : (((monitor Sample.machine).run Sample.start Sample.relapseSteps).1.findings[
      "app/web/ready"]?).bind Finding.since = some (Sample.sec 1) := by
    decide +kernel
  obtain ⟨f, hf, hknown⟩ := Option.bind_eq_some_iff.mp hsince
  exact (first_detected_episode Sample.machine "" ["app"] 0 Sample.relapseSteps "app/web/ready" f
    hf).1 (Sample.sec 1) hknown

end HealthMonitor
