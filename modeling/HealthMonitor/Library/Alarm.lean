import Mathlib.Data.List.Basic
import Mathlib.Data.List.Induction
import Mathlib.Logic.Function.Basic
import Mathlib.Order.Basic

/-!
# Alarm

The life of alarms: an alarm is idle, active or retired; events move it, and
some events publish a notice. A subscriber sees the notices only. The theorems
say what the notices determine: whether the alarm is active, whether it is
overdue, and what changed between two moments.

`Phase`, `next` and `emit` describe one alarm; `play` moves a family of alarms
that do not influence each other.
-/

namespace Alarm

variable {ι σ : Type*}

/-- What is known of one alarm. -/
inductive Phase (σ : Type*) where
  | idle
  | retired
  | active (overdue : Bool) (severity : σ)
  deriving DecidableEq

/-- What can happen to one alarm. A `clear` is good news that does not end the
alarm yet; `recover` and `remove` end it; `age` makes it overdue; `forget`
drops the memory of a retired one. -/
inductive Event (σ : Type*) where
  | detect (severity : σ)
  | clear
  | recover
  | remove
  | age
  | forget
  deriving DecidableEq

/-- What is published. -/
inductive Notice where
  | new | worsened | recovered | overdue | removed | reappeared
  deriving DecidableEq

def next : Phase σ → Event σ → Phase σ
  | _, .detect severity => .active false severity
  | .active _ severity, .clear => .active false severity
  | .active _ _, .recover => .retired
  | .active _ _, .remove => .retired
  | .active _ severity, .age => .active true severity
  | .retired, .forget => .idle
  | phase, _ => phase

variable [LT σ] [DecidableLT σ]

def emit : Phase σ → Event σ → Option Notice
  | .idle, .detect _ => some .new
  | .retired, .detect _ => some .reappeared
  | .active overdue old, .detect severity =>
      if overdue then some .reappeared
      else if old < severity then some .worsened
      else none
  | .active _ _, .recover => some .recovered
  | .active _ _, .remove => some .removed
  | .active overdue _, .age => if overdue then none else some .overdue
  | _, _ => none

/-- The phase after some events, and the notices they publish. -/
def live (phase : Phase σ) : List (Event σ) → Phase σ × List Notice
  | [] => (phase, [])
  | e :: es =>
      ((live (next phase e) es).1, (emit phase e).toList ++ (live (next phase e) es).2)

@[simp] theorem live_nil (phase : Phase σ) : live phase [] = (phase, []) := rfl

theorem live_cons (phase : Phase σ) (e : Event σ) (es : List (Event σ)) :
    live phase (e :: es)
      = ((live (next phase e) es).1, (emit phase e).toList ++ (live (next phase e) es).2) :=
  rfl

theorem live_append (phase : Phase σ) (es fs : List (Event σ)) :
    live phase (es ++ fs)
      = ((live (live phase es).1 fs).1, (live phase es).2 ++ (live (live phase es).1 fs).2) := by
  induction es generalizing phase with
  | nil => simp
  | cons e es ih => simp [live_cons, ih]

/-! ## The account of the active alarms -/

def Phase.isActive : Phase σ → Bool
  | .active _ _ => true
  | _ => false

/-- How a subscriber updates whether the alarm is active. -/
def account (active : Bool) : Notice → Bool
  | .new => true
  | .reappeared => true
  | .recovered => false
  | .removed => false
  | .worsened => active
  | .overdue => active

/-- The notice fits the account: an alarm is new only when it is not active
and ends only when it is. -/
def Fits (active : Bool) : Notice → Prop
  | .new => active = false
  | .recovered => active = true
  | .removed => active = true
  | _ => True

/-- Every notice of the list fits the account of those before it. -/
def Consistent (active : Bool) : List Notice → Prop
  | [] => True
  | n :: ns => Fits active n ∧ Consistent (account active n) ns

theorem Consistent.append {active : Bool} {ns ms : List Notice}
    (h : Consistent active ns) (h' : Consistent (ns.foldl account active) ms) :
    Consistent active (ns ++ ms) := by
  induction ns generalizing active with
  | nil => exact h'
  | cons n ns ih => exact ⟨h.1, ih h.2 h'⟩

/-- What one event publishes fits, and updates the account to the truth. -/
theorem emit_account (phase : Phase σ) (e : Event σ) :
    Consistent phase.isActive (emit phase e).toList
      ∧ (emit phase e).toList.foldl account phase.isActive = (next phase e).isActive := by
  cases phase with
  | idle => cases e <;> simp [emit, next, Consistent, Fits, account, Phase.isActive]
  | retired => cases e <;> simp [emit, next, Consistent, Fits, account, Phase.isActive]
  | active overdue old =>
      cases e with
      | detect severity =>
          simp only [emit, next, Phase.isActive]
          split
          · simp [Consistent, Fits, account]
          · split <;> simp [Consistent, Fits, account]
      | age =>
          simp only [emit, next, Phase.isActive]
          split <;> simp [Consistent, Fits, account]
      | _ => simp [emit, next, Consistent, Fits, account, Phase.isActive]

/-- The notices are consistent, and the account they yield is the truth. -/
theorem live_account (phase : Phase σ) (es : List (Event σ)) :
    Consistent phase.isActive (live phase es).2
      ∧ (live phase es).2.foldl account phase.isActive = (live phase es).1.isActive := by
  induction es generalizing phase with
  | nil => exact ⟨trivial, rfl⟩
  | cons e es ih =>
      obtain ⟨hfits, hacc⟩ := emit_account phase e
      obtain ⟨ihfits, ihacc⟩ := ih (next phase e)
      rw [live_cons]
      refine ⟨hfits.append (hacc ▸ ihfits), ?_⟩
      rw [List.foldl_append, hacc]
      exact ihacc

/-- In a consistent list every notice fits what precedes it. -/
theorem Consistent.fits {active : Bool} {ns ms : List Notice} {n : Notice}
    (h : Consistent active (ns ++ n :: ms)) : Fits (ns.foldl account active) n := by
  induction ns generalizing active with
  | nil => exact h.1
  | cons m ns ih => exact ih h.2

/-- An alarm returns to `idle` only by being forgotten. -/
theorem new_of_live {phase : Phase σ} {es : List (Event σ)} (h : .new ∈ (live phase es).2) :
    phase = .idle ∨ .forget ∈ es := by
  induction es generalizing phase with
  | nil => simp at h
  | cons e es ih =>
      rw [live_cons, List.mem_append] at h
      by_cases he : e = .forget
      · exact .inr (by simp [he])
      rcases h with h | h
      · left
        cases phase with
        | idle => rfl
        | retired => cases e <;> simp [emit] at h
        | active overdue old =>
            cases e with
            | detect severity =>
                simp only [emit] at h
                split at h
                · simp at h
                · split at h <;> simp at h
            | age => simp only [emit] at h; split at h <;> simp at h
            | _ => simp [emit] at h
      · rcases ih h with h | h
        · left
          cases phase with
          | idle => rfl
          | retired =>
              cases e with
              | forget => exact absurd rfl he
              | _ => simp [next] at h
          | active overdue old => cases e <;> simp [next] at h
        · exact .inr (by simp [h])

/-- After any notice an alarm is new again only if it was forgotten. -/
theorem new_after_notice {phase : Phase σ} {es : List (Event σ)} {ns ms : List Notice}
    {n : Notice} (h : (live phase es).2 = ns ++ n :: ms) (hn : .new ∈ ms) : .forget ∈ es := by
  induction es generalizing phase ns with
  | nil => simp at h
  | cons e es ih =>
      rw [live_cons] at h
      cases he : emit phase e with
      | none =>
          rw [he, Option.toList_none, List.nil_append] at h
          exact List.mem_cons_of_mem _ (ih h)
      | some m =>
          rw [he, Option.toList_some, List.singleton_append] at h
          cases ns with
          | cons k ns =>
              rw [List.cons_append, List.cons.injEq] at h
              exact List.mem_cons_of_mem _ (ih h.2)
          | nil =>
              rw [List.nil_append, List.cons.injEq] at h
              rw [← h.2] at hn
              rcases new_of_live hn with hidle | hmem
              · exfalso
                cases phase with
                | idle => cases e <;> simp [emit, next] at he hidle
                | retired => cases e <;> simp [emit, next] at he hidle
                | active overdue old => cases e <;> simp [next] at hidle
              · exact List.mem_cons_of_mem _ hmem

/-! ## The standing of an alarm -/

/-- What a subscriber knows of one alarm: not active, active, or overdue. -/
inductive Standing where
  | out | current | overdue
  deriving DecidableEq

def Phase.standing : Phase σ → Standing
  | .active true _ => .overdue
  | .active false _ => .current
  | _ => .out

/-- The grammar of the notices: which notice may follow in which standing, and
where it leads. -/
def follow : Standing → Notice → Option Standing
  | .out, .new => some .current
  | .out, .reappeared => some .current
  | .current, .worsened => some .current
  | .current, .overdue => some .overdue
  | .current, .recovered => some .out
  | .current, .removed => some .out
  | .overdue, .reappeared => some .current
  | .overdue, .recovered => some .out
  | .overdue, .removed => some .out
  | _, _ => none

/-- A `clear` that refreshes an overdue alarm without a notice. -/
def Silent (phase : Phase σ) (e : Event σ) : Prop :=
  phase.standing = .overdue ∧ e = .clear

/-- No event of the list refreshes the alarm silently. -/
def Audible (phase : Phase σ) : List (Event σ) → Prop
  | [] => True
  | e :: es => ¬ Silent phase e ∧ Audible (next phase e) es

theorem Audible.append_iff {phase : Phase σ} {es fs : List (Event σ)} :
    Audible phase (es ++ fs) ↔ Audible phase es ∧ Audible (live phase es).1 fs := by
  induction es generalizing phase with
  | nil => simp [Audible]
  | cons e es ih => simp [Audible, ih, live_cons, and_assoc]

theorem emit_follow {phase : Phase σ} {e : Event σ} (h : ¬ Silent phase e) :
    (emit phase e).toList.foldlM follow phase.standing = some (next phase e).standing := by
  cases phase with
  | idle => cases e <;> rfl
  | retired => cases e <;> rfl
  | active overdue old =>
      cases overdue with
      | true =>
          cases e with
          | clear => exact absurd ⟨rfl, rfl⟩ h
          | _ => rfl
      | false =>
          cases e with
          | detect severity =>
              simp only [emit, next, Bool.false_eq_true, if_false]
              split <;> rfl
          | _ => rfl

/-- Without silent refreshes the notices follow the grammar and end in the
standing of the alarm. -/
theorem live_follow {phase : Phase σ} {es : List (Event σ)} (h : Audible phase es) :
    (live phase es).2.foldlM follow phase.standing = some (live phase es).1.standing := by
  induction es generalizing phase with
  | nil => rfl
  | cons e es ih =>
      rw [live_cons, List.foldlM_append, emit_follow h.1]
      exact ih h.2

section Grammar

variable {s t : Standing} {ns ms ps : List Notice}

/-- An alarm is overdue exactly when its last notice says so. -/
theorem overdue_iff_getLast? (h : ns.foldlM follow s = some t) (hs : s ≠ .overdue) :
    t = .overdue ↔ ns.getLast? = some .overdue := by
  rcases List.eq_nil_or_concat ns with rfl | ⟨ms, n, rfl⟩
  · cases h
    simp [hs]
  · rw [List.concat_eq_append, List.foldlM_append] at h
    obtain ⟨u, _, hu⟩ := Option.bind_eq_some_iff.mp h
    have hu : follow u n = some t := by simpa using hu
    rw [List.concat_eq_append, List.getLast?_concat]
    cases u <;> cases n <;> cases hu <;> simp

/-- An alarm becomes current again through `new` or `reappeared` only. -/
theorem start_of_current (h : ns.foldlM follow s = some .current) (hs : s ≠ .current) :
    .reappeared ∈ ns ∨ .new ∈ ns := by
  induction ns generalizing s with
  | nil => cases h; exact absurd rfl hs
  | cons n ns ih =>
      rw [List.foldlM_cons] at h
      obtain ⟨u, hu, h⟩ := Option.bind_eq_some_iff.mp h
      by_cases hcur : u = .current
      · subst hcur
        cases s <;> cases n <;> cases hu <;> simp_all
      · rcases ih h hcur with hm | hm
        · exact .inl (by simp [hm])
        · exact .inr (by simp [hm])

/-- Between two `overdue` notices the alarm started again. -/
theorem start_between_overdue
    (h : (ns ++ .overdue :: (ms ++ .overdue :: ps)).foldlM follow s = some t) :
    .reappeared ∈ ms ∨ .new ∈ ms := by
  rw [List.foldlM_append] at h
  obtain ⟨u, _, h⟩ := Option.bind_eq_some_iff.mp h
  rw [List.foldlM_cons] at h
  obtain ⟨v, hv, h⟩ := Option.bind_eq_some_iff.mp h
  have hv : v = .overdue := by cases u <;> cases hv; rfl
  rw [List.foldlM_append] at h
  obtain ⟨w, hw, h⟩ := Option.bind_eq_some_iff.mp h
  rw [List.foldlM_cons] at h
  obtain ⟨x, hx, _⟩ := Option.bind_eq_some_iff.mp h
  have hcur : w = .current := by cases w <;> cases hx; rfl
  subst hv hcur
  exact start_of_current hw (by decide)

end Grammar

/-! ## Comparing two moments -/

/-- The alarm can publish the notice at once. -/
def Phase.Admits : Phase σ → Notice → Prop
  | .idle, .new => True
  | .retired, .reappeared => True
  | .active true _, .reappeared => True
  | .active false _, .overdue => True
  | .active false _, .worsened => True
  | .active _ _, .recovered => True
  | .active _ _, .removed => True
  | _, _ => False

/-- What two phases of an alarm tell without the notices between them; `ended`
is the notice a retired alarm is remembered by. -/
def compare (p q : Phase σ) (ended : Option Notice) : Option Notice :=
  match p, q with
  | .idle, .active _ _ => some .new
  | .retired, .active _ _ => some .reappeared
  | .active overdue old, .active overdue' severity =>
      if !overdue && overdue' then some .overdue
      else if overdue && !overdue' then some .reappeared
      else if old < severity then some .worsened
      else none
  | .active _ _, _ => ended
  | _, _ => none

/-- Nothing is forgotten, and every detection has the same severity. -/
structure Steady (es : List (Event σ)) : Prop where
  remembered : .forget ∉ es
  uniform : ∀ s, .detect s ∈ es → ∀ s', .detect s' ∈ es → s = s'

omit [LT σ] [DecidableLT σ] in
theorem Steady.initial {es fs : List (Event σ)} (h : Steady (es ++ fs)) : Steady es where
  remembered hmem := h.remembered (List.mem_append_left _ hmem)
  uniform s hs s' hs' :=
    h.uniform s (List.mem_append_left _ hs) s' (List.mem_append_left _ hs')

/-- What the last notice says about the phase that steady events lead to. -/
def Told (p q : Phase σ) : Option Notice → Prop
  | none => q = p
      ∨ ∃ old severity, p = .active false old ∧ q = .active false severity ∧ ¬ old < severity
  | some .new => ∃ severity, q = .active false severity
  | some .reappeared => ∃ severity, q = .active false severity
  | some .worsened => ∃ overdue old severity, p = .active overdue old
      ∧ q = .active false severity ∧ old < severity
  | some .overdue => ∃ severity, q = .active true severity
  | some .recovered => q = .retired
  | some .removed => q = .retired

/-- The severity of an active alarm is the one it had, or was detected. -/
theorem live_severity {p : Phase σ} {es : List (Event σ)} {overdue : Bool} {severity : σ}
    (h : (live p es).1 = .active overdue severity) :
    (∃ before, p = .active before severity) ∨ .detect severity ∈ es := by
  induction es generalizing p with
  | nil => exact .inl ⟨overdue, h⟩
  | cons e es ih =>
      rcases ih h with ⟨before, hnext⟩ | hmem
      · cases e with
        | detect s =>
            have hs : next p (.detect s) = .active false s := by cases p <;> rfl
            rw [hs] at hnext
            cases hnext
            exact .inr (by simp)
        | _ =>
            left
            cases p with
            | idle => cases hnext
            | retired => cases hnext
            | active overdue' old => cases hnext <;> exact ⟨_, rfl⟩
      · exact .inr (by simp [hmem])

/-- An event that publishes nothing leaves the phase alone, or lowers the
severity. -/
theorem next_of_silent {p : Phase σ} {e : Event σ} (hemit : emit p e = none)
    (haudible : ¬ Silent p e) (hforget : e ≠ .forget) :
    next p e = p ∨ ∃ old severity, p = .active false old ∧ e = .detect severity
      ∧ ¬ old < severity := by
  cases p with
  | idle =>
      cases e with
      | detect => cases hemit
      | _ => exact .inl rfl
  | retired =>
      cases e with
      | detect => cases hemit
      | forget => exact absurd rfl hforget
      | _ => exact .inl rfl
  | active overdue old =>
      cases e with
      | detect severity =>
          cases overdue with
          | true => cases hemit
          | false =>
              refine .inr ⟨old, severity, rfl, rfl, fun hlt => ?_⟩
              simp [emit, hlt] at hemit
      | clear =>
          cases overdue with
          | true => exact absurd ⟨rfl, rfl⟩ haudible
          | false => exact .inl rfl
      | age =>
          cases overdue with
          | true => exact .inl rfl
          | false => cases hemit
      | recover => cases hemit
      | remove => cases hemit
      | forget => exact absurd rfl hforget

/-- Steady, audible events tell their phase by their last notice. -/
theorem live_told (hirr : ∀ s : σ, ¬ s < s) {p : Phase σ} {es : List (Event σ)}
    (haudible : Audible p es) (hsteady : Steady es) :
    Told p (live p es).1 (live p es).2.getLast? := by
  induction es using List.reverseRecOn with
  | nil => exact .inl rfl
  | append_singleton es e ih =>
      rw [Audible.append_iff] at haudible
      have ih := ih haudible.1 hsteady.initial
      rw [live_append]
      simp only [live_cons, live_nil, List.append_nil]
      have hsevere : ∀ overdue severity, (live p es).1 = .active overdue severity →
          (∃ before, p = .active before severity) ∨ .detect severity ∈ es :=
        fun _ _ => live_severity
      generalize live p es = out at ih hsevere haudible ⊢
      obtain ⟨q, ns⟩ := out
      dsimp only at ih hsevere haudible ⊢
      have hdetected : ∀ old severity, .detect old ∈ es → e = .detect severity →
          old = severity := by
        intro old severity hold he
        exact hsteady.uniform _ (List.mem_append_left _ hold) _ (by simp [he])
      cases hemit : emit q e with
      | none =>
          rw [Option.toList_none, List.append_nil]
          have hforget : e ≠ .forget := fun he => hsteady.remembered (by simp [he])
          rcases next_of_silent hemit haudible.2.1 hforget
            with hnext | ⟨old, severity, rfl, rfl, hle⟩
          · rw [hnext]
            exact ih
          · -- A detection that is no worse: the alarm was already current.
            have hnext : next (.active false old) (.detect severity) = .active false severity :=
              rfl
            rw [hnext]
            have hknown := hsevere false old rfl
            cases hlast : ns.getLast? with
            | none =>
                rw [hlast] at ih
                right
                rcases ih with hp | ⟨first, middle, hp, hq, hle'⟩
                · exact ⟨old, severity, hp.symm, rfl, hle⟩
                · cases hq
                  rcases hknown with ⟨before, hbefore⟩ | hmem
                  · rw [hp] at hbefore
                    cases hbefore
                    exact ⟨old, severity, hp, rfl, hle⟩
                  · rw [← hdetected old severity hmem rfl]
                    exact ⟨first, old, hp, rfl, hle'⟩
            | some n =>
                rw [hlast] at ih
                cases n with
                | new => exact ⟨severity, rfl⟩
                | reappeared => exact ⟨severity, rfl⟩
                | worsened =>
                    obtain ⟨overdue, first, middle, hp, hq, hlt⟩ := ih
                    cases hq
                    rcases hknown with ⟨before, hbefore⟩ | hmem
                    · rw [hp] at hbefore
                      cases hbefore
                      exact absurd hlt (hirr _)
                    · rw [← hdetected old severity hmem rfl]
                      exact ⟨overdue, first, old, hp, rfl, hlt⟩
                | overdue => obtain ⟨_, hq⟩ := ih; cases hq
                | recovered => cases ih
                | removed => cases ih
      | some n =>
          rw [Option.toList_some, List.getLast?_concat]
          cases q with
          | idle =>
              cases e with
              | detect severity => cases hemit; exact ⟨severity, rfl⟩
              | _ => cases hemit
          | retired =>
              cases e with
              | detect severity => cases hemit; exact ⟨severity, rfl⟩
              | _ => cases hemit
          | active overdue old =>
              cases e with
              | detect severity =>
                  simp only [emit] at hemit
                  split at hemit
                  · cases hemit
                    exact ⟨severity, rfl⟩
                  · split at hemit
                    · rename_i hlt
                      cases hemit
                      rcases hsevere overdue old rfl with ⟨before, hp⟩ | hmem
                      · exact ⟨before, old, severity, hp, rfl, hlt⟩
                      · rw [hdetected old severity hmem rfl] at hlt
                        exact absurd hlt (hirr _)
                    · cases hemit
              | clear => cases hemit
              | recover => cases hemit; rfl
              | remove => cases hemit; rfl
              | age =>
                  simp only [emit] at hemit
                  split at hemit
                  · cases hemit
                  · cases hemit
                    exact ⟨old, rfl⟩
              | forget => cases hemit

/-- Comparing two moments yields the last notice between them exactly when the
alarm could have published that notice at once. -/
theorem compare_eq_iff (hirr : ∀ s : σ, ¬ s < s) {p q : Phase σ} {last : Option Notice}
    (htold : Told p q last) (hnew : last = some .new → p = .idle) {ended : Option Notice}
    (hended : ∀ n, last = some n → q = .retired → ended = some n) :
    compare p q ended = last ↔ ∀ n, last = some n → p.Admits n := by
  cases last with
  | none =>
      simp only [reduceCtorEq, false_imp_iff, implies_true, iff_true]
      rcases htold with rfl | ⟨old, severity, rfl, rfl, hle⟩
      · cases q with
        | idle => rfl
        | retired => rfl
        | active overdue severity => cases overdue <;> simp [compare, hirr]
      · simp [compare, hle]
  | some n =>
      simp only [Option.some.injEq, forall_eq']
      cases n with
      | new =>
          obtain ⟨severity, rfl⟩ := htold
          rw [hnew rfl]
          simp [compare, Phase.Admits]
      | reappeared =>
          obtain ⟨severity, rfl⟩ := htold
          cases p with
          | idle => simp [compare, Phase.Admits]
          | retired => simp [compare, Phase.Admits]
          | active overdue old =>
              cases overdue with
              | true => simp [compare, Phase.Admits]
              | false =>
                  simp only [compare, Phase.Admits]
                  split_ifs <;> simp at *
      | worsened =>
          obtain ⟨overdue, old, severity, rfl, rfl, hlt⟩ := htold
          cases overdue <;> simp [compare, Phase.Admits, hlt]
      | overdue =>
          obtain ⟨severity, rfl⟩ := htold
          cases p with
          | idle => simp [compare, Phase.Admits]
          | retired => simp [compare, Phase.Admits]
          | active overdue old =>
              cases overdue with
              | true =>
                  simp only [compare, Phase.Admits]
                  split_ifs <;> simp at *
              | false => simp [compare, Phase.Admits]
      | recovered =>
          have hq : q = .retired := htold
          subst hq
          cases p with
          | active overdue old => simp [compare, Phase.Admits, hended _ rfl rfl]
          | _ => simp [compare, Phase.Admits]
      | removed =>
          have hq : q = .retired := htold
          subst hq
          cases p with
          | active overdue old => simp [compare, Phase.Admits, hended _ rfl rfl]
          | _ => simp [compare, Phase.Admits]

/-- What an alarm publishes it admits. -/
theorem admits_of_emit {p : Phase σ} {e : Event σ} {n : Notice} (h : emit p e = some n) :
    p.Admits n := by
  cases p with
  | idle => cases e <;> cases h; trivial
  | retired => cases e <;> cases h; trivial
  | active overdue old =>
      cases e with
      | detect severity =>
          simp only [emit] at h
          split at h
          · rename_i hover
            cases h
            rw [hover]
            trivial
          · rename_i hover
            split at h
            · cases h
              rw [Bool.not_eq_true] at hover
              rw [hover]
              trivial
            · cases h
      | clear => cases h
      | recover => cases h; cases overdue <;> trivial
      | remove => cases h; cases overdue <;> trivial
      | age => cases overdue <;> cases h; trivial
      | forget => cases h

/-- A single notice is one that the alarm admitted when the events began. -/
theorem admits_of_singleton {p : Phase σ} {es : List (Event σ)} {n : Notice}
    (haudible : Audible p es) (hremembered : .forget ∉ es) (h : (live p es).2 = [n]) :
    p.Admits n := by
  induction es generalizing p with
  | nil => cases h
  | cons e es ih =>
      simp only [List.mem_cons, not_or] at hremembered
      rw [live_cons] at h
      cases hemit : emit p e with
      | some m =>
          rw [hemit] at h
          simp only [Option.toList_some, List.singleton_append, List.cons.injEq] at h
          exact h.1 ▸ admits_of_emit hemit
      | none =>
          rw [hemit] at h
          have ih := ih haudible.2 hremembered.2 h
          rcases next_of_silent hemit haudible.1 (Ne.symm hremembered.1)
            with hnext | ⟨old, severity, rfl, rfl, _⟩
          · rwa [hnext] at ih
          · have hnext : next (.active false old) (.detect severity)
                = .active false severity := rfl
            rw [hnext] at ih
            cases n <;> exact ih

/-! ## Families of alarms -/

variable [DecidableEq ι]

/-- The events of one alarm of a family. -/
def eventsOf (i : ι) (es : List (ι × Event σ)) : List (Event σ) :=
  (es.filter (·.1 = i)).map Prod.snd

/-- The notices about one alarm of a family. -/
def noticesOf (i : ι) (ns : List (ι × Notice)) : List Notice :=
  (ns.filter (·.1 = i)).map Prod.snd

/-- Move a family of alarms, one event at a time. -/
def play (world : ι → Phase σ) : List (ι × Event σ) → (ι → Phase σ) × List (ι × Notice)
  | [] => (world, [])
  | (i, e) :: es =>
      let rest := play (Function.update world i (next (world i) e)) es
      (rest.1, (emit (world i) e).toList.map (i, ·) ++ rest.2)

theorem noticesOf_append (i : ι) (ns ms : List (ι × Notice)) :
    noticesOf i (ns ++ ms) = noticesOf i ns ++ noticesOf i ms := by
  simp [noticesOf]

theorem noticesOf_map_self (i : ι) (ns : List Notice) :
    noticesOf i (ns.map (i, ·)) = ns := by
  induction ns with
  | nil => rfl
  | cons n ns ih => simpa [noticesOf] using ih

theorem noticesOf_map_ne {i j : ι} (h : j ≠ i) (ns : List Notice) :
    noticesOf i (ns.map (j, ·)) = [] := by
  simp [noticesOf, h]

/-- Every alarm of a family lives on its own events. -/
theorem play_eq (world : ι → Phase σ) (es : List (ι × Event σ)) (i : ι) :
    (play world es).1 i = (live (world i) (eventsOf i es)).1
      ∧ noticesOf i (play world es).2 = (live (world i) (eventsOf i es)).2 := by
  induction es generalizing world with
  | nil => exact ⟨rfl, rfl⟩
  | cons ie es ih =>
      obtain ⟨j, e⟩ := ie
      obtain ⟨hphase, hnotices⟩ := ih (Function.update world j (next (world j) e))
      simp only [play]
      rw [noticesOf_append]
      by_cases hj : j = i
      · subst hj
        have hes : eventsOf j ((j, e) :: es) = e :: eventsOf j es := by simp [eventsOf]
        rw [hes, live_cons, noticesOf_map_self, hphase, hnotices, Function.update_self]
        exact ⟨rfl, rfl⟩
      · have hes : eventsOf i ((j, e) :: es) = eventsOf i es := by simp [eventsOf, hj]
        rw [hes, noticesOf_map_ne hj, List.nil_append, hphase, hnotices,
          Function.update_of_ne (Ne.symm hj)]
        exact ⟨rfl, rfl⟩

theorem play_append (world : ι → Phase σ) (es fs : List (ι × Event σ)) :
    play world (es ++ fs)
      = ((play (play world es).1 fs).1, (play world es).2 ++ (play (play world es).1 fs).2) := by
  induction es generalizing world with
  | nil => rfl
  | cons ie es ih =>
      simp only [List.cons_append, play, ih, List.append_assoc]

/-- With at most one event for each alarm, every event finds its alarm as the
family started. -/
theorem play_nodup (world : ι → Phase σ) (es : List (ι × Event σ))
    (h : (es.map Prod.fst).Nodup) :
    (play world es).2
      = es.flatMap fun ie => (emit (world ie.1) ie.2).toList.map (ie.1, ·) := by
  induction es generalizing world with
  | nil => rfl
  | cons ie es ih =>
      obtain ⟨i, e⟩ := ie
      rw [List.map_cons, List.nodup_cons] at h
      rw [List.flatMap_cons]
      simp only [play]
      rw [ih _ h.2]
      congr 1
      refine List.flatMap_congr fun je hje => ?_
      have hne : je.1 ≠ i := fun he => h.1 (List.mem_map.mpr ⟨je, hje, he⟩)
      rw [Function.update_of_ne hne]

/-- At most one event publishes what it emits in the phase it finds. -/
theorem live_of_length_le_one (phase : Phase σ) {es : List (Event σ)} (h : es.length ≤ 1) :
    (live phase es).2 = es.flatMap fun e => (emit phase e).toList := by
  match es, h with
  | [], _ => rfl
  | [e], _ => simp [live_cons]

theorem live_of_eventsOf (world : ι → Phase σ) (es : List (ι × Event σ)) (i : ι)
    {own : List (Event σ)} (h : eventsOf i es = own) :
    (play world es).1 i = (live (world i) own).1 := by
  rw [(play_eq world es i).1, h]

end Alarm
