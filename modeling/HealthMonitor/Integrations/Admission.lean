import HealthMonitor.Core.Budget
import HealthMonitor.Core.Runs
import HealthMonitor.Core.Scheduler
import HealthMonitor.Library.Process

/-!
# Admission

Remote operations share reloadable scope and process limits. A reservation takes a permit
of its scope, then one of the process, and gives both back when it is dropped. A reload
resizes the budgets of the scopes it keeps, makes new ones for the others, and forgets the
rest: contexts and reservations keep the budgets they were made with.

Everything that is not a single access to shared memory is split into steps, and the
actions interleave them. Each task remembers the limits that were in force since it asked.
-/

namespace HealthMonitor.Integrations

open Entries

/-- A budget is named by its place in `Limits.budgets`. -/
structure Context where
  scope : String
  budget : Nat
  deriving DecidableEq, Repr

/-- Where a call of `acquire` is, or what became of its reservation. In `returning` the
permit of the scope is about to be dropped. -/
inductive Phase where
  | scoping (turn : Turn)
  | globalizing (turn : Turn)
  | granted
  | returning
  | done
  deriving DecidableEq, Repr

structure Task where
  context : Context
  phase : Phase
  scopeLimits : List Nat
  globalLimits : List Nat
  deriving DecidableEq, Repr

/-- A call of `reload`, after it has resized the global budget. -/
inductive Reload where
  | awaiting (jobs : List Job)
  | writing (jobs : List Job) (next : Table Nat)
  | over

structure Limits where
  global : Budget
  budgets : List Budget
  scopes : Table Nat
  reloads : List Reload
  contexts : List Context
  tasks : List Task

/-- What is seen when a reservation is granted: whether its budget is the one of the
current configuration, how many reservations of the scope there are, and how many of
these are on other budgets. -/
structure Grant where
  scope : String
  current : Bool
  outstanding : Nat
  elsewhere : Nat
  scopeLimits : List Nat
  globalOutstanding : Nat
  globalLimits : List Nat
  deriving DecidableEq, Repr

inductive Action where
  | context (job : Job)
  | acquire (context : Nat)
  | advance (task : Nat) (spurious : Bool)
  | drop (task : Nat)
  | reload (jobs : List Job)
  | replace (reload : Nat)
  | abandon (reload : Nat)

/-! ## Where a task stands -/

def Phase.scopeStand : Phase → Stand
  | .scoping turn => .turning turn
  | .globalizing _ => .holding
  | .granted => .holding
  | .returning => .holding
  | .done => .out

def Phase.globalStand : Phase → Stand
  | .scoping _ => .out
  | .globalizing turn => .turning turn
  | .granted => .holding
  | .returning => .out
  | .done => .out

namespace Task

/-- What a task is to the budget of that name. -/
def scopeStand (budget : Nat) (task : Task) : Stand :=
  if task.context.budget = budget then task.phase.scopeStand else .out

def globalStand (task : Task) : Stand :=
  task.phase.globalStand

/-- Whether the task holds a reservation. -/
def reserved (task : Task) : Bool :=
  task.phase = .granted

end Task

/-! ## The limits -/

namespace Limits

def concurrency (jobs : List Job) : Nat :=
  (jobs.head?.map fun job => job.settings.concurrency).getD 1

/-- `Limits::new` makes a budget for every job; the last one of a scope stays. -/
def new (jobs : List Job) : Limits where
  global := .new (concurrency jobs)
  budgets := jobs.map fun job => .new job.settings.scopeConcurrency
  scopes :=
    jobs.zipIdx.foldl (fun scopes entry => scopes.insert (Scheduler.scope entry.1) entry.2) ∅
  reloads := []
  contexts := []
  tasks := []

/-- Whether a reload holds the lock of the scopes. -/
def locked (s : Limits) : Bool :=
  s.reloads.any fun reload => match reload with
    | .writing _ _ => true
    | _ => false

def resizeGlobal (s : Limits) (limit : Nat) : Limits :=
  { s with
    global := s.global.resize limit
    tasks := s.tasks.map fun task => { task with globalLimits := task.globalLimits ++ [limit] } }

def resizeScope (s : Limits) (budget limit : Nat) : Limits :=
  { s with
    budgets := s.budgets.modify budget (·.resize limit)
    tasks := s.tasks.map fun task =>
      if task.context.budget = budget then
        { task with scopeLimits := task.scopeLimits ++ [limit] }
      else task }

/-- `Limits::context`; an unknown scope has none. -/
def context (s : Limits) (job : Job) : Limits :=
  if s.locked then s
  else
    match s.scopes[Scheduler.scope job]? with
    | none => s
    | some budget =>
        { s with contexts := s.contexts ++ [{ scope := Scheduler.scope job, budget }] }

/-- `acquire` is called in a context. -/
def acquire (s : Limits) (context : Nat) : Limits :=
  match s.contexts[context]? with
  | none => s
  | some context =>
      match s.budgets[context.budget]? with
      | none => s
      | some budget =>
          { s with
            tasks := s.tasks ++
              [{ context
                 phase := .scoping .queued
                 scopeLimits := [budget.limit]
                 globalLimits := [s.global.limit] }] }

/-- Tasks with a reservation of a scope. -/
def outstanding (s : Limits) (scope : String) : Nat :=
  s.tasks.countP fun task => task.reserved && task.context.scope = scope

def elsewhere (s : Limits) (context : Context) : Nat :=
  s.tasks.countP fun task =>
    task.reserved && task.context.scope = context.scope && task.context.budget ≠ context.budget

def globalOutstanding (s : Limits) : Nat :=
  s.tasks.countP Task.reserved

def place (s : Limits) (i : Nat) (task : Task) (phase : Phase) : Limits :=
  { s with tasks := s.tasks.set i { task with phase } }

def withBudget (s : Limits) (budget : Nat) (b : Budget) : Limits :=
  { s with budgets := s.budgets.set budget b }

def withGlobal (s : Limits) (b : Budget) : Limits :=
  { s with global := b }

def grant (s : Limits) (task : Task) : Grant where
  scope := task.context.scope
  current := s.scopes[task.context.scope]? = some task.context.budget
  outstanding := s.outstanding task.context.scope
  elsewhere := s.elsewhere task.context
  scopeLimits := task.scopeLimits
  globalOutstanding := s.globalOutstanding
  globalLimits := task.globalLimits

/-- After a step at the budget of the scope. -/
def scopePhase : Stand → Phase
  | .turning turn => .scoping turn
  | .holding => .globalizing .queued
  | .out => .done

/-- After a step at the global budget. -/
def globalPhase : Stand → Phase
  | .turning turn => .globalizing turn
  | .holding => .granted
  | .out => .returning

/-- The next step of a task, which is polled or in the middle of a poll. -/
def advance (s : Limits) (i : Nat) (spurious : Bool) : Limits × List Grant :=
  match s.tasks[i]? with
  | none => (s, [])
  | some task =>
      match s.budgets[task.context.budget]? with
      | none => (s, [])
      | some b =>
          match task.phase with
          | .scoping turn =>
              let tried := b.attempt turn spurious
              ((s.withBudget task.context.budget tried.1).place i task (scopePhase tried.2), [])
          | .globalizing turn =>
              let tried := s.global.attempt turn spurious
              let after := (s.withGlobal tried.1).place i task (globalPhase tried.2)
              (after, if tried.2 = .holding then [after.grant task] else [])
          | .granted => (s, [])
          | .returning =>
              ((s.withBudget task.context.budget b.release).place i task .done, [])
          | .done => (s, [])

/-- The future or the reservation is dropped, the global permit before that of the scope.
A future can be dropped only where it waits. -/
def drop (s : Limits) (i : Nat) : Limits :=
  match s.tasks[i]? with
  | none => s
  | some task =>
      match s.budgets[task.context.budget]? with
      | none => s
      | some b =>
          match task.phase with
          | .scoping .queued =>
              (s.withBudget task.context.budget (b.cancel .queued)).place i task .done
          | .scoping .waiting =>
              (s.withBudget task.context.budget (b.cancel .waiting)).place i task .done
          | .globalizing .queued =>
              (s.withGlobal (s.global.cancel .queued)).place i task .returning
          | .globalizing .waiting =>
              (s.withGlobal (s.global.cancel .waiting)).place i task .returning
          | .granted => (s.withGlobal s.global.release).place i task .returning
          | _ => s

def reload (s : Limits) (jobs : List Job) : Limits :=
  let s := s.resizeGlobal (concurrency jobs)
  { s with reloads := s.reloads ++ [.awaiting jobs] }

/-- The budget a reload keeps for a scope, or makes. -/
def kept (s : Limits) (job : Job) : Limits × Nat :=
  match s.scopes[Scheduler.scope job]? with
  | some budget => (s, budget)
  | none =>
      ({ s with budgets := s.budgets ++ [.new job.settings.scopeConcurrency] }, s.budgets.length)

/-- The next step of a reload: it takes the lock, replaces the budget of a job, or
installs what it has built. -/
def replace (s : Limits) (i : Nat) : Limits :=
  match s.reloads[i]? with
  | none => s
  | some .over => s
  | some (.awaiting jobs) =>
      if s.locked then s else { s with reloads := s.reloads.set i (.writing jobs ∅) }
  | some (.writing [] next) => { s with scopes := next, reloads := s.reloads.set i .over }
  | some (.writing (job :: jobs) next) =>
      let s' := (s.kept job).1.resizeScope (s.kept job).2 job.settings.scopeConcurrency
      { s' with
        reloads :=
          s.reloads.set i (.writing jobs (next.insert (Scheduler.scope job) (s.kept job).2)) }

/-- A reload can be dropped while it waits for the lock. -/
def abandon (s : Limits) (i : Nat) : Limits :=
  match s.reloads[i]? with
  | some (.awaiting _) => { s with reloads := s.reloads.set i .over }
  | _ => s

def step (s : Limits) : Action → Limits × List Grant
  | .context job => (s.context job, [])
  | .acquire context => (s.acquire context, [])
  | .advance task spurious => s.advance task spurious
  | .drop task => (s.drop task, [])
  | .reload jobs => (s.reload jobs, [])
  | .replace reload => (s.replace reload, [])
  | .abandon reload => (s.abandon reload, [])

def process : Process Limits Action Grant := ⟨step⟩

end Limits

/-! ## What holds throughout -/

namespace Limits

/-- The permits of a budget that are held. -/
def permits (s : Limits) (budget : Nat) : Nat :=
  total Stand.permits (s.tasks.map (Task.scopeStand budget))

/-- What a task can rely on: the limits now are among those it has seen, and once it has a
permit of its scope the permits of that budget fit one of them. -/
structure Entitled (s : Limits) (task : Task) : Prop where
  globalLimit : s.global.limit ∈ task.globalLimits
  scopeLimit : ∃ b, s.budgets[task.context.budget]? = some b ∧ b.limit ∈ task.scopeLimits
  fits : task.phase.scopeStand = .holding →
    ∃ limit ∈ task.scopeLimits, s.permits task.context.budget ≤ limit

structure Admitted (s : Limits) : Prop where
  global : Lane s.global (s.tasks.map Task.globalStand)
  scope : ∀ {k b}, s.budgets[k]? = some b → Lane b (s.tasks.map (Task.scopeStand k))
  entitled : ∀ task ∈ s.tasks, s.Entitled task

section

variable {s : Limits} {i : Nat} {task : Task} {phase : Phase}

theorem globalStand_at (hi : s.tasks[i]? = some task) :
    (s.tasks.map Task.globalStand)[i]? = some task.phase.globalStand := by
  rw [List.getElem?_map, hi, Option.map_some, Task.globalStand]

theorem scopeStand_at (hi : s.tasks[i]? = some task) :
    (s.tasks.map (Task.scopeStand task.context.budget))[i]? = some task.phase.scopeStand := by
  rw [List.getElem?_map, hi, Option.map_some, Task.scopeStand, if_pos rfl]

/-- To the budgets of other scopes a task is nothing, whatever it does. -/
theorem scopeStands_ne (hi : s.tasks[i]? = some task) {k : Nat} (hk : k ≠ task.context.budget) :
    (s.tasks.set i { task with phase }).map (Task.scopeStand k)
      = s.tasks.map (Task.scopeStand k) := by
  rw [List.map_set]
  refine set_same ?_
  rw [List.getElem?_map, hi, Option.map_some, Task.scopeStand, Task.scopeStand,
    if_neg hk.symm, if_neg hk.symm]

theorem scopeStands_self :
    (s.tasks.set i { task with phase }).map (Task.scopeStand task.context.budget)
      = (s.tasks.map (Task.scopeStand task.context.budget)).set i phase.scopeStand := by
  rw [List.map_set, Task.scopeStand, if_pos rfl]

theorem scopeStands_same (hi : s.tasks[i]? = some task)
    (h : phase.scopeStand = task.phase.scopeStand) (k : Nat) :
    (s.tasks.set i { task with phase }).map (Task.scopeStand k)
      = s.tasks.map (Task.scopeStand k) := by
  by_cases hk : k = task.context.budget
  · rw [hk, scopeStands_self, h]
    exact set_same (scopeStand_at hi)
  · exact scopeStands_ne hi hk

/-- The tasks are what they were, but for the phase of one. -/
theorem mem_placed (hi : s.tasks[i]? = some task) {other : Task}
    (h : other ∈ s.tasks.set i { task with phase }) :
    ∃ old ∈ s.tasks, old.context = other.context ∧ old.scopeLimits = other.scopeLimits
      ∧ old.globalLimits = other.globalLimits
      ∧ (other.phase = old.phase ∨ old = task ∧ other.phase = phase) := by
  rcases List.mem_or_eq_of_mem_set h with h | rfl
  · exact ⟨other, h, rfl, rfl, rfl, .inl rfl⟩
  · exact ⟨task, List.mem_of_getElem? hi, rfl, rfl, rfl, .inr ⟨rfl, rfl⟩⟩

end

namespace Admitted

variable {s : Limits} {i : Nat} {task : Task} {phase : Phase}

theorem new (jobs : List Job) : Admitted (Limits.new jobs) := by
  refine ⟨Lane.empty _, fun {k b} hb => ?_, fun task htask => by cases htask⟩
  obtain ⟨job, -, rfl⟩ := List.mem_map.mp (List.mem_of_getElem? hb)
  exact Lane.empty _

/-- A task steps at the budget of its scope. -/
theorem at_scope (h : Admitted s) (hi : s.tasks[i]? = some task) {b next : Budget}
    (hb : s.budgets[task.context.budget]? = some b) (hlimit : next.limit = b.limit)
    (hglobal : Lane s.global ((s.tasks.map Task.globalStand).set i phase.globalStand))
    (hlane : Lane next
      ((s.tasks.map (Task.scopeStand task.context.budget)).set i phase.scopeStand))
    (hfits : (phase.scopeStand = .holding → task.phase.scopeStand = .holding)
        ∧ total Stand.permits
            ((s.tasks.map (Task.scopeStand task.context.budget)).set i phase.scopeStand)
          ≤ s.permits task.context.budget
      ∨ total Stand.permits
            ((s.tasks.map (Task.scopeStand task.context.budget)).set i phase.scopeStand)
          ≤ b.limit) :
    Admitted ((s.withBudget task.context.budget next).place i task phase) := by
  obtain ⟨hlt, -⟩ := List.getElem?_eq_some_iff.mp hb
  have hset : ∀ k, k ≠ task.context.budget →
      (s.budgets.set task.context.budget next)[k]? = s.budgets[k]? :=
    fun k hk => List.getElem?_set_ne hk.symm
  have hself : (s.budgets.set task.context.budget next)[task.context.budget]? = some next :=
    List.getElem?_set_self hlt
  refine ⟨?_, fun {k c} hk => ?_, fun other hmem => ?_⟩
  · show Lane s.global ((s.tasks.set i { task with phase }).map Task.globalStand)
    rw [List.map_set]
    exact hglobal
  · show Lane c ((s.tasks.set i { task with phase }).map (Task.scopeStand k))
    by_cases heq : k = task.context.budget
    · subst heq
      rw [scopeStands_self]
      exact Option.some.inj (hself.symm.trans hk) ▸ hlane
    · rw [scopeStands_ne hi heq]
      exact h.scope ((hset k heq).symm.trans hk)
  · obtain ⟨old, hold, hcontext, hscopes, hglobals, hphase⟩ := mem_placed hi hmem
    have hentitled := h.entitled old hold
    obtain ⟨c, hc, hmem⟩ := hentitled.scopeLimit
    refine ⟨hglobals ▸ hentitled.globalLimit, ?_, fun hholds => ?_⟩
    · rw [← hcontext, ← hscopes]
      by_cases heq : old.context.budget = task.context.budget
      · rw [heq, hb, Option.some.injEq] at hc
        exact ⟨next, heq ▸ hself, hlimit ▸ hc ▸ hmem⟩
      · exact ⟨c, (hset _ heq).trans hc, hmem⟩
    · show ∃ limit ∈ other.scopeLimits,
        total Stand.permits ((s.tasks.set i { task with phase }).map
          (Task.scopeStand other.context.budget)) ≤ limit
      rw [← hcontext, ← hscopes]
      by_cases heq : old.context.budget = task.context.budget
      · rw [heq, scopeStands_self]
        rcases hfits with ⟨hkeeps, hless⟩ | hless
        · have hheld : old.phase.scopeStand = .holding := by
            rcases hphase with hsame | ⟨rfl, hsame⟩
            · exact hsame ▸ hholds
            · exact hkeeps (hsame ▸ hholds)
          obtain ⟨limit, hlimit, hle⟩ := hentitled.fits hheld
          exact ⟨limit, hlimit, hless.trans (heq ▸ hle)⟩
        · rw [heq, hb, Option.some.injEq] at hc
          exact ⟨b.limit, hc ▸ hmem, hless⟩
      · rw [scopeStands_ne hi heq]
        refine hentitled.fits ?_
        rcases hphase with hsame | ⟨rfl, -⟩
        · exact hsame ▸ hholds
        · exact absurd rfl heq

/-- A task steps at the global budget. -/
theorem at_global (h : Admitted s) (hi : s.tasks[i]? = some task) {next : Budget}
    (hlimit : next.limit = s.global.limit) (hscope : phase.scopeStand = task.phase.scopeStand)
    (hlane : Lane next ((s.tasks.map Task.globalStand).set i phase.globalStand)) :
    Admitted ((s.withGlobal next).place i task phase) := by
  refine ⟨?_, fun {k b} hb => ?_, fun other hmem => ?_⟩
  · show Lane next ((s.tasks.set i { task with phase }).map Task.globalStand)
    rw [List.map_set]
    exact hlane
  · show Lane b ((s.tasks.set i { task with phase }).map (Task.scopeStand k))
    rw [scopeStands_same hi hscope]
    exact h.scope hb
  · obtain ⟨old, hold, hcontext, hscopes, hglobals, hphase⟩ := mem_placed hi hmem
    have hentitled := h.entitled old hold
    refine ⟨?_, hcontext ▸ hscopes ▸ hentitled.scopeLimit, fun hholds => ?_⟩
    · show next.limit ∈ other.globalLimits
      rw [hlimit]
      exact hglobals ▸ hentitled.globalLimit
    · show ∃ limit ∈ other.scopeLimits,
        total Stand.permits ((s.tasks.set i { task with phase }).map
          (Task.scopeStand other.context.budget)) ≤ limit
      rw [scopeStands_same hi hscope, ← hcontext, ← hscopes]
      refine hentitled.fits ?_
      rcases hphase with hsame | ⟨rfl, hsame⟩
      · exact hsame ▸ hholds
      · rw [← hscope, ← hsame]
        exact hholds

/-- A task is nothing to the budget of its scope any more. -/
theorem leaves_scope (h : Admitted s) (hi : s.tasks[i]? = some task) {b next : Budget}
    (hb : s.budgets[task.context.budget]? = some b) (hlimit : next.limit = b.limit)
    (hglobal : task.phase.globalStand = .out)
    (hlane : Lane next ((s.tasks.map (Task.scopeStand task.context.budget)).set i .out)) :
    Admitted ((s.withBudget task.context.budget next).place i task .done) := by
  refine h.at_scope hi hb hlimit ?_ hlane (.inl ⟨fun hne => (by cases hne), ?_⟩)
  · show Lane s.global ((s.tasks.map Task.globalStand).set i .out)
    rw [set_same ((globalStand_at hi).trans (congrArg some hglobal))]
    exact h.global
  · exact Lane.permits_leave (scopeStand_at hi)

theorem advance (h : Admitted s) (i : Nat) (spurious : Bool) :
    Admitted (s.advance i spurious).1 := by
  rw [Limits.advance]
  cases hi : s.tasks[i]? with
  | none => exact h
  | some task =>
      dsimp only
      cases hb : s.budgets[task.context.budget]? with
      | none => exact h
      | some b =>
          dsimp only
          have hscope := scopeStand_at hi
          have hglobal := globalStand_at hi
          cases hphase : task.phase with
          | scoping turn =>
              rw [hphase] at hscope hglobal
              have hstand : (scopePhase (b.attempt turn spurious).2).scopeStand
                  = (b.attempt turn spurious).2 := by
                cases (b.attempt turn spurious).2 <;> rfl
              refine h.at_scope hi hb (Budget.attempt_limit b turn spurious) ?_ ?_ ?_
              · cases (b.attempt turn spurious).2 with
                | holding => exact h.global.join hglobal
                | out =>
                    rw [set_same]
                    · exact h.global
                    · exact hglobal
                | turning next =>
                    rw [set_same]
                    · exact h.global
                    · exact hglobal
              · rw [hstand]
                exact (h.scope hb).attempt hscope spurious
              · rw [hstand]
                exact ((h.scope hb).permits_attempt hscope spurious).imp_left fun hleft =>
                  ⟨fun hholds => absurd hholds hleft.1, hleft.2⟩
          | globalizing turn =>
              rw [hphase] at hglobal
              refine h.at_global hi (Budget.attempt_limit s.global turn spurious) ?_ ?_
              · rw [hphase]
                cases (s.global.attempt turn spurious).2 <;> rfl
              · have hstand : (globalPhase (s.global.attempt turn spurious).2).globalStand
                    = (s.global.attempt turn spurious).2 := by
                  cases (s.global.attempt turn spurious).2 <;> rfl
                rw [hstand]
                exact h.global.attempt hglobal spurious
          | granted => exact h
          | returning =>
              rw [hphase] at hscope
              exact h.leaves_scope hi hb rfl (by rw [hphase]; rfl)
                ((h.scope hb).release hscope)
          | done => exact h

theorem drop (h : Admitted s) (i : Nat) : Admitted (s.drop i) := by
  rw [Limits.drop]
  cases hi : s.tasks[i]? with
  | none => exact h
  | some task =>
      dsimp only
      cases hb : s.budgets[task.context.budget]? with
      | none => exact h
      | some b =>
          dsimp only
          have hscope := scopeStand_at hi
          have hglobal := globalStand_at hi
          -- a waiter of the scope leaves its lane, one of the process leaves the global lane
          have hscoping : ∀ turn, task.phase = .scoping turn → turn = .queued ∨ turn = .waiting →
              Admitted ((s.withBudget task.context.budget (b.cancel turn)).place i task .done) := by
            intro turn hphase hwaits
            rw [hphase] at hscope
            exact h.leaves_scope hi hb (b.cancel_limit turn) (by rw [hphase]; rfl)
              ((h.scope hb).cancel hscope hwaits)
          have hglobalizing : ∀ turn, task.phase = .globalizing turn →
              turn = .queued ∨ turn = .waiting →
              Admitted ((s.withGlobal (s.global.cancel turn)).place i task .returning) := by
            intro turn hphase hwaits
            rw [hphase] at hglobal
            exact h.at_global hi (s.global.cancel_limit turn) (by rw [hphase]; rfl)
              (h.global.cancel hglobal hwaits)
          cases hphase : task.phase with
          | scoping turn =>
              cases turn with
              | queued => exact hscoping .queued hphase (.inl rfl)
              | waiting => exact hscoping .waiting hphase (.inr rfl)
              | _ => exact h
          | globalizing turn =>
              cases turn with
              | queued => exact hglobalizing .queued hphase (.inl rfl)
              | waiting => exact hglobalizing .waiting hphase (.inr rfl)
              | _ => exact h
          | granted =>
              rw [hphase] at hglobal
              exact h.at_global hi rfl (by rw [hphase]; rfl) (h.global.release hglobal)
          | returning => exact h
          | done => exact h

theorem acquire (h : Admitted s) (i : Nat) : Admitted (s.acquire i) := by
  rw [Limits.acquire]
  cases hi : s.contexts[i]? with
  | none => exact h
  | some context =>
      dsimp only
      cases hb : s.budgets[context.budget]? with
      | none => exact h
      | some b =>
          dsimp only
          refine ⟨?_, fun {k c} hk => ?_, fun task hmem => ?_⟩
          · rw [List.map_append]
            exact h.global.arrive (.inl rfl)
          · rw [List.map_append]
            refine (h.scope hk).arrive ?_
            rw [Task.scopeStand]
            split
            · exact .inr rfl
            · exact .inl rfl
          · have hpermits : ∀ k, total Stand.permits ((s.tasks ++ [Task.mk context
                (.scoping .queued) [b.limit] [s.global.limit]]).map (Task.scopeStand k))
                = s.permits k := by
              intro k
              rw [List.map_append, total_append, List.map_singleton, total_cons, Task.scopeStand]
              split <;> rfl
            rcases List.mem_append.mp hmem with hold | hnew
            · have hentitled := h.entitled task hold
              refine ⟨hentitled.globalLimit, hentitled.scopeLimit, fun hholds => ?_⟩
              obtain ⟨limit, hlimit, hle⟩ := hentitled.fits hholds
              exact ⟨limit, hlimit, (Nat.le_of_eq (hpermits task.context.budget)).trans hle⟩
            · rw [List.mem_singleton] at hnew
              subst hnew
              exact ⟨List.mem_singleton_self _, ⟨b, hb, List.mem_singleton_self _⟩,
                fun hholds => by cases hholds⟩

/-- Only the budgets and the tasks matter. -/
theorem congr (h : Admitted s) {t : Limits} (hglobal : t.global = s.global)
    (hbudgets : t.budgets = s.budgets) (htasks : t.tasks = s.tasks) : Admitted t := by
  refine ⟨?_, fun {k b} hb => ?_, fun task hmem => ?_⟩
  · rw [hglobal, htasks]
    exact h.global
  · rw [htasks]
    exact h.scope (hbudgets ▸ hb)
  · have hentitled := h.entitled task (htasks ▸ hmem)
    refine ⟨hglobal ▸ hentitled.globalLimit, hbudgets ▸ hentitled.scopeLimit, fun hholds => ?_⟩
    rw [permits, htasks]
    exact hentitled.fits hholds

theorem context (h : Admitted s) (job : Job) : Admitted (s.context job) := by
  rw [Limits.context]
  split
  · exact h
  · split
    · exact h
    · exact h.congr rfl rfl rfl

theorem resizeGlobal (h : Admitted s) (limit : Nat) : Admitted (s.resizeGlobal limit) := by
  have hstands : ∀ f : Task → Stand,
      (∀ task globalLimits, f { task with globalLimits } = f task) →
      (s.resizeGlobal limit).tasks.map f = s.tasks.map f := by
    intro f hf
    rw [Limits.resizeGlobal, List.map_map]
    exact List.map_congr_left fun task _ => hf task _
  refine ⟨?_, fun {k b} hb => ?_, fun task hmem => ?_⟩
  · rw [hstands _ fun _ _ => rfl]
    exact h.global.resize limit
  · rw [hstands _ fun _ _ => rfl]
    exact h.scope hb
  · obtain ⟨old, hold, rfl⟩ := List.mem_map.mp hmem
    have hentitled := h.entitled old hold
    refine ⟨List.mem_append_right _ (List.mem_singleton_self limit), hentitled.scopeLimit,
      fun hholds => ?_⟩
    rw [permits, hstands _ fun _ _ => rfl]
    exact hentitled.fits hholds

theorem resizeScope (h : Admitted s) (k limit : Nat) : Admitted (s.resizeScope k limit) := by
  have hstands : ∀ f : Task → Stand,
      (∀ task scopeLimits, f { task with scopeLimits } = f task) →
      (s.resizeScope k limit).tasks.map f = s.tasks.map f := by
    intro f hf
    rw [Limits.resizeScope, List.map_map]
    refine List.map_congr_left fun task _ => ?_
    rw [Function.comp_apply]
    split
    · exact hf task _
    · rfl
  have hbudget : ∀ {j b}, s.budgets[j]? = some b →
      (s.resizeScope k limit).budgets[j]? = some (if j = k then b.resize limit else b) := by
    intro j b hb
    show (s.budgets.modify k (·.resize limit))[j]? = _
    rw [List.getElem?_modify, hb]
    by_cases hj : j = k
    · simp [hj]
    · simp [hj, Ne.symm hj]
  refine ⟨?_, fun {j c} hc => ?_, fun task hmem => ?_⟩
  · rw [hstands _ fun _ _ => rfl]
    exact h.global
  · rw [hstands (Task.scopeStand j) fun _ _ => rfl]
    have hj : j < s.budgets.length := by
      have := (List.getElem?_eq_some_iff.mp hc).1
      rwa [Limits.resizeScope, List.length_modify] at this
    have hb := List.getElem?_eq_getElem hj
    rw [hbudget hb, Option.some.injEq] at hc
    subst hc
    split
    · exact (h.scope hb).resize limit
    · exact h.scope hb
  · obtain ⟨old, hold, rfl⟩ := List.mem_map.mp hmem
    have hentitled := h.entitled old hold
    obtain ⟨b, hb, hlimit⟩ := hentitled.scopeLimit
    have hb' := hbudget hb
    by_cases hk : old.context.budget = k
    · rw [if_pos hk] at hb' ⊢
      refine ⟨hentitled.globalLimit, ⟨_, hb', List.mem_append_right _ (by simp [Budget.resize])⟩,
        fun hholds => ?_⟩
      obtain ⟨l, hl, hle⟩ := hentitled.fits hholds
      refine ⟨l, List.mem_append_left _ hl, ?_⟩
      rw [permits, hstands _ fun _ _ => rfl]
      exact hle
    · rw [if_neg hk] at hb' ⊢
      refine ⟨hentitled.globalLimit, ⟨b, hb', hlimit⟩, fun hholds => ?_⟩
      rw [permits, hstands _ fun _ _ => rfl]
      exact hentitled.fits hholds

/-- A new budget has no tasks. -/
theorem kept (h : Admitted s) (job : Job) : Admitted (s.kept job).1 := by
  rw [Limits.kept]
  split
  · exact h
  · refine ⟨h.global, fun {k b} hb => ?_, fun task hmem => ?_⟩
    · change (s.budgets ++ [Budget.new job.settings.scopeConcurrency])[k]? = some b at hb
      by_cases hk : k < s.budgets.length
      · exact h.scope ((List.getElem?_append_left hk).symm.trans hb)
      · have hnew : b = .new job.settings.scopeConcurrency := by
          rw [List.getElem?_append_right (Nat.not_lt.mp hk)] at hb
          exact List.mem_singleton.mp (List.mem_of_getElem? hb)
        rw [hnew]
        refine Lane.fresh _ fun stand hstand => ?_
        obtain ⟨task, htask, rfl⟩ := List.mem_map.mp hstand
        obtain ⟨c, hc, -⟩ := (h.entitled task htask).scopeLimit
        have hlt := (List.getElem?_eq_some_iff.mp hc).1
        rw [Task.scopeStand, if_neg (by omega)]
    · have hentitled := h.entitled task hmem
      obtain ⟨b, hb, hlimit⟩ := hentitled.scopeLimit
      have hlt := (List.getElem?_eq_some_iff.mp hb).1
      exact ⟨hentitled.globalLimit, ⟨b, (List.getElem?_append_left hlt).trans hb, hlimit⟩,
        hentitled.fits⟩

theorem replace (h : Admitted s) (i : Nat) : Admitted (s.replace i) := by
  rw [Limits.replace]
  split
  · exact h
  · exact h
  · split
    · exact h
    · exact h.congr rfl rfl rfl
  · exact h.congr rfl rfl rfl
  · exact ((h.kept _).resizeScope _ _).congr rfl rfl rfl

theorem abandon (h : Admitted s) (i : Nat) : Admitted (s.abandon i) := by
  rw [Limits.abandon]
  split
  · exact h.congr rfl rfl rfl
  · exact h

/-- Whatever happens next. -/
theorem step (h : Admitted s) (action : Action) : Admitted (s.step action).1 := by
  cases action with
  | context job => exact h.context job
  | acquire i => exact h.acquire i
  | advance i spurious => exact h.advance i spurious
  | drop i => exact h.drop i
  | reload jobs => exact (h.resizeGlobal _).congr rfl rfl rfl
  | replace i => exact h.replace i
  | abandon i => exact h.abandon i

end Admitted

/-! ## Grants -/

theorem le_permits {s : Limits} {k : Nat} {p : Task → Bool}
    (h : ∀ task ∈ s.tasks, p task = true → task.reserved = true ∧ task.context.budget = k) :
    s.tasks.countP p ≤ s.permits k := by
  rw [permits, total, List.map_map]
  refine countP_le_total fun task htask hp => ?_
  obtain ⟨hreserved, hbudget⟩ := h task htask hp
  have hgranted : task.phase = .granted := by simpa [Task.reserved] using hreserved
  rw [Function.comp_apply, Task.scopeStand, if_pos hbudget, hgranted]
  exact Nat.le_refl 1

theorem globalOutstanding_le (s : Limits) :
    s.globalOutstanding ≤ total Stand.permits (s.tasks.map Task.globalStand) := by
  rw [total, List.map_map]
  refine countP_le_total fun task _ hreserved => ?_
  have hgranted : task.phase = .granted := by simpa [Task.reserved] using hreserved
  rw [Function.comp_apply, Task.globalStand, hgranted]
  exact Nat.le_refl 1

/-- Reservations that are all on one budget have a permit of it each. -/
theorem outstanding_le {s : Limits} {context : Context} (h : s.elsewhere context = 0) :
    s.outstanding context.scope ≤ s.permits context.budget := by
  refine le_permits fun task htask hp => ?_
  rw [Bool.and_eq_true] at hp
  refine ⟨hp.1, ?_⟩
  have hnone := List.countP_eq_zero.mp h task htask
  rw [hp.1, hp.2] at hnone
  simpa using hnone

end Limits

/-- The reservations of the process fit a limit of the attempt, and so do those of the
scope when none of them is on another budget. -/
def Grant.Within (grant : Grant) : Prop :=
  (∃ limit ∈ grant.globalLimits, grant.globalOutstanding ≤ limit)
    ∧ (grant.elsewhere = 0 → ∃ limit ∈ grant.scopeLimits, grant.outstanding ≤ limit)

namespace Limits

/-- What is used of each budget is what the tasks have charged; a task that waits for its
scope has charged nothing to the process, and one that is done has given everything back. -/
structure Accounted (s : Limits) : Prop where
  global : s.global.used = total Stand.charge (s.tasks.map Task.globalStand)
  scope : ∀ {k b}, s.budgets[k]? = some b →
    b.used = total Stand.charge (s.tasks.map (Task.scopeStand k))
  throttled : ∀ task ∈ s.tasks, ∀ turn, task.phase = .scoping turn → task.globalStand.charge = 0
  done : ∀ task ∈ s.tasks, task.phase = .done →
    task.globalStand.charge = 0 ∧ ∀ k, (task.scopeStand k).charge = 0

theorem Admitted.accounted {s : Limits} (h : Admitted s) : s.Accounted := by
  refine ⟨h.global.used, fun hb => (h.scope hb).used, fun task _ turn hphase => ?_,
    fun task _ hphase => ⟨?_, fun k => ?_⟩⟩
  · rw [Task.globalStand, hphase]
    rfl
  · rw [Task.globalStand, hphase]
    rfl
  · rw [Task.scopeStand, hphase]
    split <;> rfl

theorem Admitted.grant_within {s : Limits} (h : Admitted s) {i : Nat} {spurious : Bool}
    {grant : Grant} (hgrant : grant ∈ (s.advance i spurious).2) : grant.Within := by
  have hafter := h.advance i spurious
  rw [Limits.advance] at hgrant hafter
  cases hi : s.tasks[i]? with
  | none => simp [hi] at hgrant
  | some task =>
      cases hb : s.budgets[task.context.budget]? with
      | none => simp [hi, hb] at hgrant
      | some b =>
          cases hphase : task.phase with
          | globalizing turn =>
              simp only [hi, hb, hphase] at hgrant hafter
              split at hgrant
              · next hholds =>
                  rw [List.mem_singleton] at hgrant
                  subst hgrant
                  rw [hholds] at hafter ⊢
                  have hglobal := globalStand_at hi
                  rw [hphase] at hglobal
                  have hfits := h.global.within_of_holding hglobal hholds
                  have hplaced : { task with phase := .granted }
                      ∈ s.tasks.set i { task with phase := .granted } :=
                    List.mem_set (List.getElem?_eq_some_iff.mp hi).1 _
                  refine ⟨⟨s.global.limit, (h.entitled task (List.mem_of_getElem? hi)).globalLimit,
                    ?_⟩, fun helse => ?_⟩
                  · exact (globalOutstanding_le _).trans (hafter.global.permits_le.trans hfits)
                  · obtain ⟨limit, hlimit, hle⟩ := (hafter.entitled _ hplaced).fits rfl
                    exact ⟨limit, hlimit, (outstanding_le helse).trans hle⟩
              · cases hgrant
          | scoping turn => simp [hi, hb, hphase] at hgrant
          | granted => simp [hi, hb, hphase] at hgrant
          | returning => simp [hi, hb, hphase] at hgrant
          | done => simp [hi, hb, hphase] at hgrant

/-- Whatever the tasks and the reloads do, in whatever order. -/
theorem reservations_within (jobs : List Job) (actions : List Action) :
    (∀ grant ∈ (process.run (.new jobs) actions).2, grant.Within)
      ∧ ∀ s ∈ process.states (.new jobs) actions, s.Accounted := by
  constructor
  · have htracks : process.Tracks (fun _ => True)
        fun grants s => Admitted s ∧ ∀ grant ∈ grants, grant.Within := by
      intro grants s action _ hs
      refine ⟨hs.1.step action, fun grant hgrant => ?_⟩
      rcases List.mem_append.mp hgrant with hold | hnew
      · exact hs.2 grant hold
      · cases action with
        | advance i spurious => exact hs.1.grant_within hnew
        | context job => cases hnew
        | acquire i => cases hnew
        | drop i => cases hnew
        | reload jobs => cases hnew
        | replace i => cases hnew
        | abandon i => cases hnew
    exact (htracks.run_start _ actions (fun _ _ => trivial)
      ⟨Admitted.new jobs, fun grant hgrant => by cases hgrant⟩).2
  · have hkeeps : process.Preserves (fun _ => True) Admitted :=
      fun s action _ hs => hs.step action
    exact fun s hs =>
      (hkeeps.states (fun _ _ => trivial) (Admitted.new jobs) s hs).accounted

/-! ## A scope that comes back -/

/-- One reservation at a time. -/
def throttled : Job :=
  { Sample.job .edge with
    settings := { (Sample.job .edge).settings with scopeConcurrency := 1 } }

/-- Nothing else is at the budgets. -/
def reserving (task : Nat) : List Action :=
  List.replicate 10 (.advance task false)

/-- A reservation is held while its scope is removed and added again. -/
def readded : List Action :=
  [.context throttled, .acquire 0] ++ reserving 0
    ++ [.reload [], .replace 0, .replace 0]
    ++ [.reload [throttled], .replace 1, .replace 1, .replace 1]
    ++ [.context throttled, .acquire 1] ++ reserving 1

/-- The scope has a new budget, on which the reservation is not charged. -/
theorem readded_exceeds :
    ∃ grant ∈ (process.run (.new [throttled]) readded).2,
      grant.current = true ∧ ∀ limit ∈ grant.scopeLimits, limit < grant.outstanding := by
  decide +kernel

end Limits

end HealthMonitor.Integrations
