import HealthMonitor.History.Accounting

/-!
# Flushing

What a successful `flush` tells. It reads three counters one after another, so that it
speaks of one instant only if no loss moves from the pending counters into a batch
between its reads: the pending counters then only grow, and what is zero when it is
read was zero when no batch was outstanding.
-/

namespace HealthMonitor.History

open Entries

variable {α : Type}

namespace State

/-! ## What only grows -/

/-- Records and losses are never forgotten. -/
structure Onward (s t : State α) : Prop where
  submitted : s.submitted <+: t.submitted
  dropped : s.dropped <+: t.dropped
  abandoned : s.abandoned <+: t.abandoned
  abandonedGaps : s.abandonedGaps <+: t.abandonedGaps

theorem Onward.refl (s : State α) : Onward s s :=
  ⟨List.prefix_rfl, List.prefix_rfl, List.prefix_rfl, List.prefix_rfl⟩

theorem Onward.trans {s t u : State α} (h : Onward s t) (h' : Onward t u) : Onward s u :=
  ⟨h.submitted.trans h'.submitted, h.dropped.trans h'.dropped,
    h.abandoned.trans h'.abandoned, h.abandonedGaps.trans h'.abandonedGaps⟩

theorem Onward.fits {s t : State α} (h : Onward s t) (ht : t.Fits) : s.Fits := by
  intro kind
  obtain ⟨l, hl⟩ := h.dropped
  have := ht kind
  rw [← hl, losses_append] at this
  omega

/-- The worker takes pending losses of a kind away. -/
def TakesKind (s : State α) (kind : Kind) (action : Action α) : Prop :=
  s.status.pending kind ≠ 0 ∧ (∃ time, action = .work (.go time)) ∧
    match kind with
    | .events => ∃ batch, s.worker = .takingEvents batch
    | .runs => ∃ batch events, s.worker = .takingRuns batch events

/-- What a step of the worker does to what `flush` reads. -/
theorem work_onward {s t : State α} {signal : Signal} (ht : s.work signal = some t) :
    Onward s t ∧ t.flush = s.flush
      ∧ ((∃ update updates batch, s.worker = .rejecting batch (update :: updates)
          ∧ t.status = s.status.apply update)
        ∨ ∀ kind, t.status.pending kind = s.status.pending kind
          ∨ t.status.pending kind = 0 ∧ (s.status.pending kind ≠ 0 →
            s.TakesKind kind (.work signal))) := by
  have hsame : ∀ {t : State α}, t.submitted = s.submitted → t.dropped = s.dropped →
      t.abandoned = s.abandoned → t.abandonedGaps = s.abandonedGaps → Onward s t := by
    intro t h h' h'' h'''
    exact ⟨h ▸ List.prefix_rfl, h' ▸ List.prefix_rfl, h'' ▸ List.prefix_rfl,
      h''' ▸ List.prefix_rfl⟩
  have hchoose : ∀ pending, (s.choose pending).status = s.status
      ∧ (s.choose pending).flush = s.flush ∧ Onward s (s.choose pending) := by
    intro pending
    unfold State.choose
    split
    · exact ⟨rfl, rfl, hsame rfl rfl rfl rfl⟩
    · exact ⟨rfl, rfl, hsame rfl rfl rfl rfl⟩
  have hself : ∀ kind, Function.update s.status.pending kind 0 kind = 0 :=
    fun kind => Function.update_self ..
  have hother : ∀ kind k, k ≠ kind →
      Function.update s.status.pending kind 0 k = s.status.pending k :=
    fun kind k hne => Function.update_of_ne hne ..
  unfold State.work at ht
  split at ht
  case h_3 => -- head
    cases ht
    split
    · obtain ⟨hstatus, hflush, honward⟩ := hchoose true
      exact ⟨honward, hflush, .inr fun kind => .inl (by rw [hstatus])⟩
    · exact ⟨hsame rfl rfl rfl rfl, rfl, .inr fun kind => .inl rfl⟩
  case h_4 =>
    cases ht
    obtain ⟨hstatus, hflush, honward⟩ := hchoose (decide (s.status.pending .runs ≠ 0))
    exact ⟨honward, hflush, .inr fun kind => .inl (by rw [hstatus])⟩
  case h_10 batch time hw => -- takingEvents
    cases ht
    refine ⟨hsame rfl rfl rfl rfl, rfl, .inr fun kind => ?_⟩
    cases kind with
    | events =>
        exact .inr ⟨hself .events, fun hne => ⟨hne, ⟨time, rfl⟩, batch, hw⟩⟩
    | runs => exact .inl (hother .events .runs (by decide))
  case h_11 batch events time hw => -- takingRuns
    cases ht
    refine ⟨hsame rfl rfl rfl rfl, rfl, .inr fun kind => ?_⟩
    cases kind with
    | events => exact .inl (hother .runs .events (by decide))
    | runs =>
        exact .inr ⟨hself .runs, fun hne => ⟨hne, ⟨time, rfl⟩, batch, events, hw⟩⟩
  case h_12 batch hw => -- writing
    split at ht <;> cases ht
    exact ⟨⟨List.prefix_rfl, List.prefix_rfl, List.prefix_append .., List.prefix_append ..⟩,
      rfl, .inr fun kind => .inl rfl⟩
  case h_15 batch hw =>
    cases ht
    exact ⟨⟨List.prefix_rfl, List.prefix_append .., List.prefix_rfl, List.prefix_rfl⟩, rfl,
      .inr fun kind => .inl rfl⟩
  case h_16 batch update updates _ hw => -- rejecting
    cases ht
    exact ⟨hsame rfl rfl rfl rfl, rfl, .inl ⟨update, updates, batch, hw, rfl⟩⟩
  case h_21 => -- draining
    split at ht <;> cases ht
    · exact ⟨⟨List.prefix_rfl, List.prefix_rfl, List.prefix_append .., List.prefix_rfl⟩, rfl,
        .inr fun kind => .inl rfl⟩
    · exact ⟨hsame rfl rfl rfl rfl, rfl, .inr fun kind => .inl rfl⟩
  case h_22 => cases ht
  all_goals
    first
      | cases ht
      | (split at ht <;> cases ht)
    exact ⟨hsame rfl rfl rfl rfl, rfl, .inr fun kind => .inl rfl⟩

/-- What a step of a submission does to what `flush` reads. -/
theorem advance_onward (s : State α) (capacity index : Nat) (admitted : Bool) :
    Onward s (s.step capacity (.advance index admitted))
      ∧ (s.step capacity (.advance index admitted)).flush = s.flush
      ∧ ((∃ x ∈ s.submissions, ∃ update updates, x.updates = update :: updates
          ∧ (s.step capacity (.advance index admitted)).status = s.status.apply update)
        ∨ (s.step capacity (.advance index admitted)).status.pending = s.status.pending) := by
  have hstill : ∀ {t : State α}, t.submitted = s.submitted → t.abandoned = s.abandoned →
      t.abandonedGaps = s.abandonedGaps → s.dropped <+: t.dropped → Onward s t := by
    intro t h h' h'' hdropped
    exact ⟨h ▸ List.prefix_rfl, hdropped, h' ▸ List.prefix_rfl, h'' ▸ List.prefix_rfl⟩
  rw [State.step]
  cases hx : s.submissions[index]? with
  | none => exact ⟨.refl s, rfl, .inr rfl⟩
  | some x =>
  dsimp only
  cases hupdates : x.updates with
  | cons update updates =>
      simp only [State.advance, hupdates]
      exact ⟨hstill rfl rfl rfl List.prefix_rfl, trivial,
        .inl ⟨x, List.mem_of_getElem? hx, update, updates, hupdates, rfl⟩⟩
  | nil =>
  cases hstage : x.stage with
  | filling =>
      cases hrest : x.rest with
      | nil =>
          simp only [State.advance, hupdates, hstage, hrest]
          exact ⟨hstill rfl rfl rfl List.prefix_rfl, trivial, .inr trivial⟩
      | cons item rest =>
          simp only [State.advance, hupdates, hstage, hrest]
          by_cases hfits : (admitted && x.batch.hasRoom item) = true
          · rw [if_pos hfits]
            exact ⟨hstill rfl rfl rfl List.prefix_rfl, rfl, .inr rfl⟩
          · rw [if_neg hfits]
            exact ⟨hstill rfl rfl rfl (List.prefix_append ..), rfl, .inr rfl⟩
  | checkingEvents =>
      simp only [State.advance, hupdates, hstage]
      exact ⟨hstill rfl rfl rfl List.prefix_rfl, trivial, .inr trivial⟩
  | checkingRuns =>
      simp only [State.advance, hupdates, hstage]
      exact ⟨hstill rfl rfl rfl List.prefix_rfl, trivial, .inr trivial⟩
  | sending =>
      by_cases hfull : (s.closed || decide (capacity ≤ s.queue.length)) = true
      · simp only [State.advance, hupdates, hstage, if_pos hfull]
        exact ⟨hstill rfl rfl rfl (List.prefix_append ..), trivial, .inr trivial⟩
      · simp only [State.advance, hupdates, hstage, if_neg hfull]
        exact ⟨hstill rfl rfl rfl List.prefix_rfl, trivial, .inr trivial⟩
  | leaving =>
      simp only [State.advance, hupdates, hstage]
      exact ⟨hstill rfl rfl rfl List.prefix_rfl, rfl, .inr rfl⟩

/-- An update still to come fits a pending counter. -/
theorem Accounted.pending_le {s : State α} (h : Accounted s) (hfits : s.Fits) {update : Update}
    (howed : ∀ f : Update → Nat, f update ≤ s.owed f) (kind : Kind) :
    s.status.pending kind ≤ (s.status.apply update).pending kind := by
  have := h.covered hfits kind
  have := howed (Update.covers kind)
  have hle : losses kind s.dropped ≤ i64Max := hfits kind
  rw [apply_covered (by omega)]
  omega

theorem le_owed_of_submission {s : State α} {x : Submission α} (hx : x ∈ s.submissions)
    {update : Update} {updates : List Update} (hupdates : x.updates = update :: updates)
    (f : Update → Nat) : f update ≤ s.owed f := by
  obtain ⟨i, hi, rfl⟩ := List.getElem_of_mem hx
  have htotal := total_eraseIdx (fun x => total f x.updates) (List.getElem?_eq_getElem hi)
  rw [hupdates, total_cons] at htotal
  unfold owed
  omega

/-- A pending counter only grows, unless the worker takes from it. -/
theorem Accounted.pending_step {s : State α} (h : Accounted s) (hfits : s.Fits)
    (capacity : Nat) (action : Action α) (kind : Kind) :
    s.status.pending kind ≤ (s.step capacity action).status.pending kind
      ∨ s.TakesKind kind action := by
  cases action with
  | submit revision runs events records => exact .inl (Nat.le_refl _)
  | advance index admitted =>
      obtain ⟨_, _, ⟨x, hx, update, updates, hupdates, hstatus⟩ | hpending⟩ :=
        advance_onward s capacity index admitted
      · rw [hstatus]
        exact .inl (h.pending_le hfits (le_owed_of_submission hx hupdates) kind)
      · rw [hpending]
        exact .inl (Nat.le_refl _)
  | work signal =>
      show _ ≤ ((s.work signal).getD s).status.pending kind ∨ _
      cases ht : s.work signal with
      | none => exact .inl (Nat.le_refl _)
      | some t =>
          obtain ⟨_, _, ⟨update, updates, batch, hw, hstatus⟩ | hkinds⟩ := work_onward ht
          · rw [Option.getD_some, hstatus]
            refine .inl (h.pending_le hfits (fun f => ?_) kind)
            simp only [owed, hw, Worker.updates, total_cons]
            omega
          · rcases hkinds kind with hpending | ⟨hzero, htakes⟩
            · rw [Option.getD_some, hpending]
              exact .inl (Nat.le_refl _)
            · by_cases hpending : s.status.pending kind = 0
              · rw [hpending]
                exact .inl (Nat.zero_le _)
              · exact .inr (htakes hpending)
  | cancel => exact .inl (Nat.le_refl _)
  | flush =>
      have hstatus : (s.step capacity .flush).status = s.status := by
        rw [State.step]
        split <;> rfl
      exact .inl (by rw [hstatus])
  | read =>
      have hstatus : s.read.status = s.status := by
        unfold State.read
        split
        · split <;> rfl
        all_goals rfl
      exact .inl (Nat.le_of_eq (congrArg (·.pending kind) hstatus.symm))
  | timeout =>
      have hstatus : s.timeout.status = s.status := by
        unfold State.timeout
        split <;> rfl
      exact .inl (Nat.le_of_eq (congrArg (·.pending kind) hstatus.symm))

/-- A step forgets nothing, and only the calls of `flush` itself change where it is. -/
theorem step_onward (s : State α) (capacity : Nat) (action : Action α) :
    Onward s (s.step capacity action)
      ∧ ((s.step capacity action).flush = s.flush
        ∨ action = .flush ∨ action = .read ∨ action = .timeout) := by
  have hflush : ∀ flush : Flush, Onward s { s with flush := flush } := fun _ =>
    ⟨List.prefix_rfl, List.prefix_rfl, List.prefix_rfl, List.prefix_rfl⟩
  cases action with
  | submit revision runs events records =>
      exact ⟨⟨List.prefix_append .., List.prefix_rfl, List.prefix_rfl, List.prefix_rfl⟩,
        .inl rfl⟩
  | advance index admitted =>
      obtain ⟨honward, hflush, _⟩ := advance_onward s capacity index admitted
      exact ⟨honward, .inl hflush⟩
  | work signal =>
      show Onward s ((s.work signal).getD s) ∧ (((s.work signal).getD s).flush = _ ∨ _)
      cases ht : s.work signal with
      | none => exact ⟨.refl s, .inl rfl⟩
      | some t =>
          obtain ⟨honward, hflush, _⟩ := work_onward ht
          exact ⟨honward, .inl hflush⟩
  | cancel =>
      exact ⟨⟨List.prefix_rfl, List.prefix_rfl, List.prefix_rfl, List.prefix_rfl⟩, .inl rfl⟩
  | flush =>
      refine ⟨?_, .inr (.inl rfl)⟩
      rw [State.step]
      cases hf : s.flush with
      | idle => exact hflush _
      | returned _ => exact hflush _
      | _ => exact .refl s
  | read =>
      refine ⟨?_, .inr (.inr (.inl rfl))⟩
      show Onward s s.read
      unfold State.read
      split
      · split
        · exact hflush _
        · exact .refl s
      · exact hflush _
      · exact hflush _
      · exact .refl s
  | timeout =>
      refine ⟨?_, .inr (.inr (.inr rfl))⟩
      show Onward s s.timeout
      unfold State.timeout
      split
      · exact hflush _
      · exact .refl s

/-! ## The reads of a call -/

/-- All three counters that `flush` reads are zero. -/
def Drained (s : State α) : Prop :=
  s.status.outstanding = 0 ∧ s.status.pending .events = 0 ∧ s.status.pending .runs = 0

/-- The worker takes losses away that `flush` has still to read, after it found no batch
outstanding. -/
def Disturbs (s : State α) (action : Action α) : Prop :=
  s.flush = .pendingEvents ∧ (s.TakesKind .events action ∨ s.TakesKind .runs action)
    ∨ s.flush = .pendingRuns ∧ s.TakesKind .runs action

/-- What the reads of a call so far say about an instant since it began. -/
def Seen (capacity : Nat) (before during : List (Action α)) (s : State α) : Prop :=
  match s.flush with
  | .pendingEvents => ∃ d d', during = d ++ d'
      ∧ (after capacity (before ++ d)).status.outstanding = 0
      ∧ ∀ kind, (after capacity (before ++ d)).status.pending kind ≤ s.status.pending kind
  | .pendingRuns => ∃ d d', during = d ++ d'
      ∧ (after capacity (before ++ d)).status.outstanding = 0
      ∧ (after capacity (before ++ d)).status.pending .events = 0
      ∧ (after capacity (before ++ d)).status.pending .runs ≤ s.status.pending .runs
  | .returned true => ∃ d d', during = d ++ d' ∧ (after capacity (before ++ d)).Drained
  | _ => True

theorem after_snoc (capacity : Nat) (actions : List (Action α)) (action : Action α) :
    after capacity (actions ++ [action]) = (after capacity actions).step capacity action := by
  rw [after, Process.run_append, Process.run_singleton]
  rfl

/-- A step that leaves the call where it is keeps what was seen. -/
theorem Seen.mono {capacity : Nat} {before during : List (Action α)} {s t : State α}
    (h : Seen capacity before during s) (action : Action α) (hflush : t.flush = s.flush)
    (hpending : ∀ kind, s.flush = .pendingEvents ∨ s.flush = .pendingRuns ∧ kind = .runs →
      s.status.pending kind ≤ t.status.pending kind) :
    Seen capacity before (during ++ [action]) t := by
  unfold Seen at h ⊢
  rw [hflush]
  cases hs : s.flush with
  | idle => trivial
  | outstanding => trivial
  | pendingEvents =>
      rw [hs] at h
      obtain ⟨d, d', rfl, hzero, hle⟩ := h
      exact ⟨d, d' ++ [action], List.append_assoc .., hzero,
        fun kind => (hle kind).trans (hpending kind (.inl hs))⟩
  | pendingRuns =>
      rw [hs] at h
      obtain ⟨d, d', rfl, hzero, hevents, hle⟩ := h
      exact ⟨d, d' ++ [action], List.append_assoc .., hzero, hevents,
        hle.trans (hpending .runs (.inr ⟨hs, rfl⟩))⟩
  | returned flushed =>
      rw [hs] at h
      cases flushed with
      | false => trivial
      | true =>
          obtain ⟨d, d', rfl, hdrained⟩ := h
          exact ⟨d, d' ++ [action], List.append_assoc .., hdrained⟩

/-- A read keeps what was seen: each counter it finds zero was zero, or smaller still,
when no batch was outstanding. -/
theorem Seen.read {capacity : Nat} {before during : List (Action α)}
    (h : Seen capacity before during (after capacity (before ++ during))) :
    Seen capacity before (during ++ [.read]) (after capacity (before ++ during)).read := by
  generalize hs : after capacity (before ++ during) = s at h
  unfold Seen at h
  unfold State.read
  cases hphase : s.flush with
  | idle =>
      rw [hphase] at h
      simp only [Seen, hphase]
  | outstanding =>
      dsimp only
      by_cases hzero : s.status.outstanding = 0
      · rw [if_pos hzero]
        exact ⟨during, [.read], rfl, by rw [hs]; exact hzero,
          fun kind => by rw [hs]⟩
      · rw [if_neg hzero]
        simp only [Seen, hphase]
  | pendingEvents =>
      rw [hphase] at h
      obtain ⟨d, d', rfl, hzero, hle⟩ := h
      by_cases hevents : s.status.pending .events = 0
      · simp only [if_pos hevents, Seen]
        have := hle .events
        exact ⟨d, d' ++ [.read], List.append_assoc .., hzero, by omega, hle .runs⟩
      · simp only [if_neg hevents, Seen]
  | pendingRuns =>
      rw [hphase] at h
      obtain ⟨d, d', rfl, hzero, hevents, hle⟩ := h
      by_cases hruns : s.status.pending .runs = 0
      · simp only [if_pos hruns, Seen]
        exact ⟨d, d' ++ [.read], List.append_assoc .., hzero, hevents, by omega⟩
      · simp only [if_neg hruns, Seen]
  | returned flushed =>
      rw [hphase] at h
      simp only [Seen, hphase]
      cases flushed with
      | false => trivial
      | true =>
          obtain ⟨d, d', rfl, hdrained⟩ := h
          exact ⟨d, d' ++ [.read], List.append_assoc .., hdrained⟩

theorem Seen.step {capacity : Nat} {before during : List (Action α)} {action : Action α}
    (h : Seen capacity before during (after capacity (before ++ during)))
    (hfits : (after capacity (before ++ during)).Fits)
    (hcalm : ¬ (after capacity (before ++ during)).Disturbs action) :
    Seen capacity before (during ++ [action])
      ((after capacity (before ++ during)).step capacity action) := by
  have haccounted : Accounted (after capacity (before ++ during)) := accounted_run capacity _
  have hstill : ((after capacity (before ++ during)).step capacity action).flush
        = (after capacity (before ++ during)).flush →
      Seen capacity before (during ++ [action])
        ((after capacity (before ++ during)).step capacity action) := by
    intro hflush
    refine h.mono action hflush fun kind hphase => ?_
    rcases haccounted.pending_step hfits capacity action kind with hle | htakes
    · exact hle
    · exfalso
      rcases hphase with hevents | ⟨hruns, rfl⟩
      · refine hcalm (.inl ⟨hevents, ?_⟩)
        cases kind
        · exact .inl htakes
        · exact .inr htakes
      · exact hcalm (.inr ⟨hruns, htakes⟩)
  rcases (step_onward (after capacity (before ++ during)) capacity action).2 with
    hflush | rfl | rfl | rfl
  · exact hstill hflush
  · -- A call that begins has seen nothing yet.
    cases hphase : (after capacity (before ++ during)).flush with
    | idle => simp only [State.step, hphase, Seen]
    | returned flushed => simp only [State.step, hphase, Seen]
    | outstanding => exact hstill (by simp only [State.step, hphase])
    | pendingEvents => exact hstill (by simp only [State.step, hphase])
    | pendingRuns => exact hstill (by simp only [State.step, hphase])
  · exact h.read
  · by_cases hphase : (after capacity (before ++ during)).flush = .outstanding
    · simp only [State.step, State.timeout, if_pos hphase, Seen]
    · exact hstill (by simp only [State.step, State.timeout, if_neg hphase])

/-! ## Calls of flush -/

theorem after_onward (capacity : Nat) (actions more : List (Action α)) :
    Onward (after capacity actions) (after capacity (actions ++ more)) := by
  induction more using List.reverseRecOn with
  | nil =>
      rw [List.append_nil]
      exact .refl _
  | append_singleton more action ih =>
      rw [← List.append_assoc, after_snoc]
      exact ih.trans (step_onward _ capacity action).1

/-- The run lemma: what the reads of an undisturbed call have seen. -/
theorem seen_run (capacity : Nat) (before during : List (Action α))
    (hcall : (after capacity before).flush = .outstanding)
    (hcalm : ∀ d action d', during = d ++ action :: d' →
      ¬ (after capacity (before ++ d)).Disturbs action)
    (hfits : (after capacity (before ++ during)).Fits) :
    Seen capacity before during (after capacity (before ++ during)) := by
  induction during using List.reverseRecOn with
  | nil =>
      rw [List.append_nil]
      simp only [Seen, hcall]
  | append_singleton during action ih =>
      have hstart : (after capacity (before ++ during)).Fits := by
        rw [← List.append_assoc] at hfits
        exact (after_onward capacity (before ++ during) [action]).fits hfits
      have hseen := ih (fun d b d' hsplit => hcalm d b (d' ++ [action]) (by
        rw [hsplit, List.append_assoc, List.cons_append])) hstart
      rw [← List.append_assoc, after_snoc]
      exact hseen.step hstart (hcalm during action [] rfl)

/-- When no batch is outstanding, every record is persisted, dropped or given up. -/
theorem settled_of_drained {capacity : Nat} {actions : List (Action α)}
    (h : (after capacity actions).Drained) :
    (after capacity actions).submitted.Perm ((after capacity actions).persisted
        ++ (after capacity actions).dropped ++ (after capacity actions).abandoned)
      ∧ ((after capacity actions).Fits → ∀ kind, losses kind (after capacity actions).dropped
        = gapLosses kind (after capacity actions).persistedGaps
          + gapLosses kind (after capacity actions).rejectedGaps
          + gapLosses kind (after capacity actions).abandonedGaps) := by
  have haccounted : Accounted (after capacity actions) := accounted_run capacity actions
  obtain ⟨hzero, hevents, hruns⟩ := h
  have houtstanding := haccounted.outstanding
  rw [hzero] at houtstanding
  have hsubmissions : (after capacity actions).submissions = [] :=
    List.length_eq_zero_iff.mp (by omega)
  have hqueue : (after capacity actions).queue = [] := List.length_eq_zero_iff.mp (by omega)
  have hbatches : (after capacity actions).worker.batches = 0 := by omega
  have hworker : (after capacity actions).worker.items = []
      ∧ (after capacity actions).worker.updates = []
      ∧ (∀ kind, (after capacity actions).worker.taken kind = 0)
      ∧ (after capacity actions).worker.gaps = [] := by
    revert hbatches
    cases (after capacity actions).worker <;> intro hbatches <;>
      first
      | exact ⟨rfl, rfl, fun _ => rfl, rfl⟩
      | cases hbatches
  obtain ⟨hitems, hupdates, htaken, hgaps⟩ := hworker
  constructor
  · classical
    refine List.perm_iff_count.mpr fun a => ?_
    have := haccounted.classes (· == a)
    rw [hsubmissions, hqueue, hitems] at this
    simp only [total_nil, List.countP_nil] at this
    simp only [List.count, List.countP_append]
    omega
  · intro hfits kind
    have hcovered := haccounted.covered hfits kind
    have hpending : (after capacity actions).status.pending kind = 0 := by
      cases kind
      · exact hevents
      · exact hruns
    rw [owed, hsubmissions, hupdates, htaken, hgaps, hpending, total_nil, total_nil,
      gapLosses_nil] at hcovered
    omega

/-- If the worker takes no losses away between the reads of a call, and has given up
nothing, a successful `flush` tells the truth: at some instant of the call nothing was
outstanding or pending, and all that was submitted before it had been persisted, or
dropped with every loss in a gap that was persisted or finally rejected. -/
theorem flush_truthful (capacity : Nat) (before during : List (Action α))
    (hcall : (after capacity before).flush = .outstanding)
    (hreturned : (after capacity (before ++ during)).flush = .returned true)
    (hcalm : ∀ d action d', during = d ++ action :: d' →
      ¬ (after capacity (before ++ d)).Disturbs action)
    (hkept : (after capacity (before ++ during)).abandoned = []
      ∧ (after capacity (before ++ during)).abandonedGaps = [])
    (hfits : (after capacity (before ++ during)).Fits) :
    ∃ d d', during = d ++ d' ∧ (after capacity (before ++ d)).Drained
      ∧ (after capacity before).submitted.Subperm
        ((after capacity (before ++ d)).persisted ++ (after capacity (before ++ d)).dropped)
      ∧ ∀ kind, losses kind (after capacity (before ++ d)).dropped
        = gapLosses kind (after capacity (before ++ d)).persistedGaps
          + gapLosses kind (after capacity (before ++ d)).rejectedGaps := by
  have hseen := seen_run capacity before during hcall hcalm hfits
  rw [Seen, hreturned] at hseen
  obtain ⟨d, d', rfl, hdrained⟩ := hseen
  refine ⟨d, d', rfl, hdrained, ?_⟩
  -- What is given up by the end was given up at the instant, and nothing was.
  have honward := after_onward capacity (before ++ d) d'
  rw [List.append_assoc] at honward
  have habandoned : (after capacity (before ++ d)).abandoned = [] :=
    List.prefix_nil.mp (hkept.1 ▸ honward.abandoned)
  have hgaps : (after capacity (before ++ d)).abandonedGaps = [] :=
    List.prefix_nil.mp (hkept.2 ▸ honward.abandonedGaps)
  obtain ⟨hperm, hcovered⟩ := settled_of_drained hdrained
  rw [habandoned, List.append_nil] at hperm
  refine ⟨?_, fun kind => ?_⟩
  · exact (after_onward capacity before d).submitted.sublist.subperm.trans hperm.subperm
  · have := hcovered (honward.fits hfits) kind
    rw [hgaps, gapLosses_nil] at this
    omega

/-! ## A call that is disturbed -/

/-- The worker takes its place; a run is submitted, taken and written, and a call of
`flush` begins. -/
def written : List (Action Nat) :=
  [.work (.go 0), .work (.go 0), .work (.go 0), .submit "r" [0] [] [], .advance 0 true,
    .advance 0 true, .advance 0 true, .work .receive, .work (.go 1), .work (.go 1),
    .work .wrote, .work (.go 2), .flush]

/-- The write of the run is rejected, the worker counts the loss and drops the batch, and
a call of `flush` begins. -/
def rejected : List (Action Nat) :=
  [.work (.go 0), .work (.go 0), .work (.go 0), .submit "r" [0] [] [], .advance 0 true,
    .advance 0 true, .advance 0 true, .work .receive, .work (.go 1), .work (.go 1),
    .work .rejected, .work (.go 2), .work (.go 2), .work (.go 2), .work (.go 2),
    .work (.go 2), .work (.go 2), .flush]

/-- Between the first and the second read the worker makes a batch for the loss and takes
the counts. -/
def disturbed : List (Action Nat) :=
  [.read, .work (.go 3), .work (.go 3), .work (.go 3), .work (.go 3), .work (.go 3), .read,
    .read]

theorem flush_truthful_written :
    ∃ d d', [Action.read, .read, .read] = d ++ d' ∧ (after 1 (written ++ d)).Drained
      ∧ (after 1 written).submitted.Subperm
        ((after 1 (written ++ d)).persisted ++ (after 1 (written ++ d)).dropped)
      ∧ ∀ kind, losses kind (after 1 (written ++ d)).dropped
        = gapLosses kind (after 1 (written ++ d)).persistedGaps
          + gapLosses kind (after 1 (written ++ d)).rejectedGaps := by
  refine flush_truthful 1 written [.read, .read, .read] rfl rfl ?_ ⟨rfl, rfl⟩
    fun kind => Nat.zero_le _
  intro d action d' hsplit hdisturbs
  have hmem : action ∈ [Action.read, .read, .read] := by
    rw [hsplit]
    simp
  obtain rfl : action = .read := by simpa using hmem
  rcases hdisturbs with ⟨_, ⟨_, ⟨_, h⟩, _⟩ | ⟨_, ⟨_, h⟩, _⟩⟩ | ⟨_, _, ⟨_, h⟩, _⟩ <;> cases h

/-- A `flush` that the worker overtakes returns true, although at every instant of the
call a loss is pending or its batch is outstanding. -/
theorem flush_untruthful :
    ¬ ∀ before during : List (Action Nat), (after 1 before).flush = .outstanding →
      (after 1 (before ++ during)).flush = .returned true →
      ∃ d d', during = d ++ d' ∧ (after 1 (before ++ d)).Drained := by
  intro h
  obtain ⟨d, d', hsplit, hdrained⟩ := h rejected disturbed (by decide) (by decide)
  have hlength : d.length ≤ disturbed.length := by
    rw [hsplit, List.length_append]
    omega
  have htake : d = disturbed.take d.length := by
    rw [hsplit, List.take_left]
  have hnever : ∀ n ≤ disturbed.length,
      ¬ ((after 1 (rejected ++ disturbed.take n)).status.outstanding = 0
        ∧ (after 1 (rejected ++ disturbed.take n)).status.pending .events = 0
        ∧ (after 1 (rejected ++ disturbed.take n)).status.pending .runs = 0) := by
    decide +kernel
  refine hnever d.length hlength ?_
  rw [← htake]
  exact hdrained

end State

end HealthMonitor.History
