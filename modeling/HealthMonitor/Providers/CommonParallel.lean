import HealthMonitor.Library.Process
import HealthMonitor.Library.Worklist
import HealthMonitor.Providers.Endpoint

/-!
# CommonParallel

Bounded dynamic inventory fan-out. Branches run side by side and complete in any order, and
what a branch is answered with is decided by the environment: a scan, a cached scan or a
cancellation.
-/

namespace HealthMonitor.Providers

open CollectionBudget

/-- Conservative fan-out also bounds temporary projected results before they are merged. -/
def width (settings : Settings) : Nat := max (min settings.scopeConcurrency settings.concurrency) 1

structure Fanout where
  initial : List Endpoint
  pending : List Endpoint
  queuedBytes : Nat
  limit : Limit
  visited : List String
  running : List Endpoint
  result : CheckResult

/-- The branch that completes, by its place among those that run, and its answer. -/
structure Completion where
  index : Nat
  fetched : Fetched

namespace Fanout

def new (job : Job) (endpoints : List Endpoint) (clock : Time) : Fanout where
  initial := endpoints
  pending := []
  queuedBytes := 0
  limit := .new job.settings false
  visited := []
  running := []
  result := base job clock

/-- The next endpoint: follow-ups go before what is left of the first endpoints. -/
def next (f : Fanout) : Option (Endpoint × Fanout) :=
  match f.pending, f.initial with
  | endpoint :: pending, _ =>
      some (endpoint, { f with pending, queuedBytes := f.queuedBytes - endpoint.bytes })
  | [], endpoint :: initial => some (endpoint, { f with initial })
  | [], [] => none

def waiting (f : Fanout) : List Endpoint := f.pending ++ f.initial

section run

variable (host : Host) (key : Endpoint → String) (job : Job)

/-- Start branches while there is room. Every round takes one endpoint out, so there are no
more rounds than endpoints that wait. -/
def fill : Nat → Fanout → Fanout
  | 0, f => f
  | rounds + 1, f =>
      if width job.settings ≤ f.running.length || f.limit.exhausted then f
      else
        match f.next with
        | none => f
        | some (endpoint, f) =>
            if f.visited.contains (key endpoint) then fill rounds f
            else
              let f := { f with visited := key endpoint :: f.visited }
              if job.settings.maxAssets < f.visited.length then
                { f with limit := f.limit.markLimited }
              else fill rounds { f with running := f.running ++ [endpoint] }

def launch (f : Fanout) : Fanout := fill key job f.waiting.length f

/-- Follow-ups wait while the queue has room, by count and by size, up to the first one
that does not fit. -/
def enqueue : List Endpoint → Fanout → Fanout × Bool
  | [], f => (f, true)
  | followup :: rest, f =>
      if job.settings.readyQueue ≤ f.pending.length
          || queueLimit job - f.queuedBytes < followup.bytes then (f, false)
      else
        enqueue rest
          { f with pending := f.pending ++ [followup], queuedBytes := f.queuedBytes + followup.bytes }

/-- The answer as it is merged: truncated when a follow-up was dropped. -/
def settled (fetched : Fetched) (whole : Bool) : CheckResult :=
  { fetched.result with operations := fetched.result.operations.map fun op =>
      { op with
        coverage := if whole then op.coverage else .truncated
        required := job.settings.required } }

def complete (fetched : Fetched) (f : Fanout) : Fanout :=
  let queued := enqueue job fetched.followups f
  let merged := queued.1.limit.merge host (fun _ => .new job.settings) queued.1.result
    (settled job fetched queued.2)
  { queued.1 with limit := merged.1, result := merged.2 }

def step (f : Fanout) (completion : Completion) : Fanout × List (Endpoint × Fetched) :=
  match f.running[completion.index]? with
  | none => (f, [])
  | some endpoint =>
      (launch key job (complete host job completion.fetched
          { f with running := f.running.eraseIdx completion.index }),
        [(endpoint, completion.fetched)])

def process : Process Fanout Completion (Endpoint × Fetched) := ⟨step host key job⟩

/-- The collection as it is before the first branch completes. -/
def start (endpoints : List Endpoint) (clock : Time) : Fanout :=
  launch key job (new job endpoints clock)

/-- What is reported when no branch runs any more. -/
def finish (f : Fanout) (clock : Time) : CheckResult :=
  let limit := if f.waiting.isEmpty then f.limit else f.limit.markLimited
  let result := limit.finish f.result job.settings.required clock
  { result with
    operations :=
      (if result.operations.isEmpty then
        [operation "not-configured" (.error .missing) 0 job.settings.required clock]
      else result.operations).mergeSort fun a b => decide (a.id ≤ b.id)
    observations := result.observations.mergeSort fun a b => decide (a.resource ≤ b.resource)
    finishedAt := clock }

end run

/-! ## The fan-out as a worklist -/

/-- Whether the result so far says that something is missing. -/
def lossy (f : Fanout) : Bool :=
  f.limit.limited || f.result.operations.any fun op => op.coverage == .truncated

def worklist (f : Fanout) : Worklist Endpoint String where
  waiting := f.waiting
  running := f.running
  seen := f.visited
  lossy := f.lossy

/-- What each answered branch led to. -/
def answers (log : List (Endpoint × Fetched)) : List (Endpoint × List Endpoint) :=
  log.map fun note => (note.1, note.2.followups)

section spec

variable {host : Host} {key : Endpoint → String} {job : Job}

theorem answers_append (log more : List (Endpoint × Fetched)) :
    answers (log ++ more) = answers log ++ answers more :=
  List.map_append

theorem answers_fst (log : List (Endpoint × Fetched)) :
    (answers log).map Prod.fst = log.map Prod.fst := by
  rw [answers, List.map_map]
  rfl

/-- One endpoint leaves the queue; nothing else that the worklist sees changes. -/
theorem next_some {f g : Fanout} {endpoint : Endpoint} (h : f.next = some (endpoint, g)) :
    f.waiting = endpoint :: g.waiting ∧ g.running = f.running ∧ g.visited = f.visited
      ∧ g.limit = f.limit ∧ g.result = f.result := by
  rw [next] at h
  split at h
  · next hpending =>
      cases h
      exact ⟨by rw [waiting, hpending]; rfl, rfl, rfl, rfl, rfl⟩
  · next hpending hinitial =>
      cases h
      refine ⟨?_, rfl, rfl, rfl, rfl⟩
      rw [waiting, waiting, hpending, hinitial]
      rfl
  · cases h

variable (key job) in
/-- What one round of filling up does. -/
theorem fill_succ (rounds : Nat) (f : Fanout) :
    fill key job (rounds + 1) f = f
      ∨ ∃ endpoint g, f.next = some (endpoint, g) ∧ f.running.length < width job.settings
        ∧ (key endpoint ∈ g.visited ∧ fill key job (rounds + 1) f = fill key job rounds g
          ∨ fill key job (rounds + 1) f = { g with
              visited := key endpoint :: g.visited, limit := g.limit.markLimited }
          ∨ key endpoint ∉ g.visited ∧ g.visited.length < job.settings.maxAssets
            ∧ fill key job (rounds + 1) f = fill key job rounds { g with
                visited := key endpoint :: g.visited, running := g.running ++ [endpoint] }) := by
  rw [fill]
  by_cases hroom : (width job.settings ≤ f.running.length || f.limit.exhausted : Bool) = true
  · exact .inl (if_pos hroom)
  · rw [if_neg hroom]
    cases hnext : f.next with
    | none => exact .inl rfl
    | some taken =>
        obtain ⟨endpoint, g⟩ := taken
        have hwidth : f.running.length < width job.settings := by
          simp only [Bool.or_eq_true, decide_eq_true_eq, not_or, Nat.not_le] at hroom
          exact hroom.1
        refine .inr ⟨endpoint, g, rfl, hwidth, ?_⟩
        by_cases hseen : key endpoint ∈ g.visited
        · exact .inl ⟨hseen, if_pos (List.contains_iff_mem.mpr hseen)⟩
        · have hcontains : ¬g.visited.contains (key endpoint) = true := by simpa using hseen
          by_cases hfull : job.settings.maxAssets < g.visited.length + 1
          · exact .inr (.inl ((if_neg hcontains).trans (if_pos hfull)))
          · exact .inr (.inr ⟨hseen, by omega, (if_neg hcontains).trans (if_neg hfull)⟩)

variable (key job) in
/-- Filling up is steps of the worklist without an answer. -/
theorem fill_run (rounds : Nat) (f : Fanout) :
    Worklist.Run key f.worklist [] (fill key job rounds f).worklist := by
  induction rounds generalizing f with
  | zero => exact .refl _
  | succ rounds ih =>
      obtain heq | ⟨endpoint, g, hnext, -, hround⟩ := fill_succ key job rounds f
      · rw [heq]
        exact .refl _
      obtain ⟨hwaiting, hrunning, hvisited, hlimit, hresult⟩ := next_some hnext
      have hlossy : g.lossy = f.lossy := by rw [lossy, lossy, hlimit, hresult]
      have hperm : f.worklist.waiting.Perm (endpoint :: g.waiting) := .of_eq hwaiting
      obtain ⟨hseen, heq⟩ | heq | ⟨hseen, -, heq⟩ := hround
      · rw [heq]
        have hstep : Worklist.Step key f.worklist [] _ := .skip hperm (by rwa [hvisited] at hseen)
        have hg : g.worklist = { f.worklist with waiting := g.waiting } := by
          simp [worklist, hrunning, hvisited, hlossy]
        exact Worklist.Run.step (hg ▸ hstep) (ih g)
      · rw [heq]
        have hstep : Worklist.Step key f.worklist [] _ := .leave hperm
        simpa [worklist, hrunning, hvisited, lossy, Limit.markLimited, waiting]
          using Worklist.Run.single hstep
      · rw [heq]
        have hstep : Worklist.Step key f.worklist [] _ := .start hperm (by rwa [hvisited] at hseen)
          (List.perm_append_singleton endpoint f.running)
        have hg : { g with visited := key endpoint :: g.visited
                           running := g.running ++ [endpoint] : Fanout }.worklist
            = { f.worklist with
                waiting := g.waiting
                running := f.running ++ [endpoint]
                seen := key endpoint :: f.visited } := by
          simp [worklist, hrunning, hvisited, lossy, hlimit, hresult, waiting]
        exact Worklist.Run.step (hg ▸ hstep) (ih _)

variable (key job) in
theorem fill_result (rounds : Nat) (f : Fanout) :
    (fill key job rounds f).result = f.result
      ∧ ((fill key job rounds f).limit.limited = false → f.limit.limited = false) := by
  induction rounds generalizing f with
  | zero => exact ⟨rfl, id⟩
  | succ rounds ih =>
      obtain heq | ⟨endpoint, g, hnext, -, hround⟩ := fill_succ key job rounds f
      · rw [heq]
        exact ⟨rfl, id⟩
      obtain ⟨-, -, -, hlimit, hresult⟩ := next_some hnext
      obtain ⟨-, heq⟩ | heq | ⟨-, -, heq⟩ := hround
      · rw [heq, ← hlimit, ← hresult]
        exact ih g
      · rw [heq]
        exact ⟨hresult, fun hlimited => nomatch hlimited⟩
      · rw [heq, ← hlimit, ← hresult]
        exact ih _

/-- Counting the branches that run with `done` that were answered. -/
def Within (job : Job) (done : Nat) (f : Fanout) : Prop :=
  f.running.length + done ≤ f.visited.length
    ∧ f.running.length + done ≤ job.settings.maxAssets
    ∧ f.running.length ≤ width job.settings

theorem Within.fill {done : Nat} {f : Fanout} (h : f.Within job done) (rounds : Nat) :
    (fill key job rounds f).Within job done := by
  induction rounds generalizing f with
  | zero => exact h
  | succ rounds ih =>
      obtain heq | ⟨endpoint, g, hnext, hwidth, hround⟩ :=
        fill_succ key job rounds f
      · rwa [heq]
      obtain ⟨-, hrunning, hvisited, -, -⟩ := next_some hnext
      obtain ⟨hseen, hassets, hnarrow⟩ := h
      rw [← hrunning] at hseen hassets hnarrow hwidth
      rw [← hvisited] at hseen
      obtain ⟨-, heq⟩ | heq | ⟨-, hroom, heq⟩ := hround
      · rw [heq]
        exact ih ⟨hseen, hassets, hnarrow⟩
      · rw [heq]
        refine ⟨?_, hassets, hnarrow⟩
        show g.running.length + done ≤ (key endpoint :: g.visited).length
        rw [List.length_cons]
        omega
      · rw [heq]
        apply ih
        simp only [Within, List.length_append, List.length_cons, List.length_nil]
        omega

variable (job) in
theorem enqueue_spec (followups : List Endpoint) (f : Fanout) :
    ∃ kept rest queuedBytes, followups = kept ++ rest
      ∧ (enqueue job followups f).1 = { f with pending := f.pending ++ kept, queuedBytes }
      ∧ ((enqueue job followups f).2 = true ↔ rest = []) := by
  induction followups generalizing f with
  | nil => exact ⟨[], [], f.queuedBytes, rfl, by simp [enqueue], by simp [enqueue]⟩
  | cons followup followups ih =>
      rw [enqueue]
      split
      · exact ⟨[], followup :: followups, f.queuedBytes, rfl, by simp, by simp⟩
      · obtain ⟨kept, rest, queuedBytes, hsplit, hqueued, hwhole⟩ :=
          ih { f with pending := f.pending ++ [followup]
                      queuedBytes := f.queuedBytes + followup.bytes }
        refine ⟨followup :: kept, rest, queuedBytes, by rw [hsplit, List.cons_append], ?_, hwhole⟩
        rw [hqueued, List.append_assoc, List.singleton_append]

/-- An answer that is taken in without a loss is taken in whole. -/
theorem complete_whole {fetched : Fetched} {f : Fanout}
    (h : (complete host job fetched f).lossy = false) :
    f.lossy = false ∧ (enqueue job fetched.followups f).2 = true
      ∧ (complete host job fetched f).result = { f.result with
          operations := f.result.operations ++ (settled job fetched true).operations
          observations := f.result.observations ++ fetched.result.observations } := by
  obtain ⟨kept, rest, queuedBytes, -, hqueued, -⟩ := enqueue_spec job fetched.followups f
  rw [lossy, Bool.or_eq_false_iff] at h
  obtain ⟨hlimited, htruncated⟩ := h
  obtain ⟨hbefore, hmerged⟩ := Limit.merge_whole hlimited
  have hresult : (complete host job fetched f).result = { f.result with
      operations := f.result.operations
        ++ (settled job fetched (enqueue job fetched.followups f).2).operations
      observations := f.result.observations ++ fetched.result.observations } := by
    rw [hqueued] at hmerged
    rw [complete, hqueued]
    exact hmerged
  rw [hresult, List.any_append, Bool.or_eq_false_iff] at htruncated
  have hwhole : (enqueue job fetched.followups f).2 = true := by
    by_contra hnot
    rw [Bool.not_eq_true] at hnot
    obtain ⟨op, rest, hops⟩ := List.exists_cons_of_ne_nil fetched.reported
    have hop := htruncated.2
    rw [hnot, settled, hops] at hop
    simp at hop
  refine ⟨?_, hwhole, by rw [hresult, hwhole]⟩
  rw [hqueued] at hbefore
  rw [lossy, htruncated.1, Bool.or_false]
  exact hbefore

/-- The completion of a branch is one step of the worklist. -/
theorem complete_step {fetched : Fetched} {f : Fanout} {i : Nat} {endpoint : Endpoint}
    (hi : f.running[i]? = some endpoint) :
    Worklist.Step key f.worklist [(endpoint, fetched.followups)]
      (complete host job fetched { f with running := f.running.eraseIdx i }).worklist := by
  obtain ⟨kept, rest, queuedBytes, hsplit, hqueued, hwhole⟩ :=
    enqueue_spec job fetched.followups { f with running := f.running.eraseIdx i }
  obtain ⟨hlt, hget⟩ := List.getElem?_eq_some_iff.mp hi
  have hrunning : f.running.Perm (endpoint :: f.running.eraseIdx i) :=
    hget ▸ (List.getElem_cons_eraseIdx_perm hlt).symm
  have hwaiting : (f.pending ++ kept ++ f.initial).Perm (f.waiting ++ kept) := by
    rw [waiting, List.append_assoc, List.append_assoc]
    exact List.Perm.append_left _ List.perm_append_comm
  have hstep : Worklist.Step key f.worklist [(endpoint, fetched.followups)]
      { waiting := f.pending ++ kept ++ f.initial, running := f.running.eraseIdx i
        seen := f.visited
        lossy := (complete host job fetched { f with running := f.running.eraseIdx i }).lossy } :=
    .answer hrunning (hsplit ▸ List.subset_append_left kept rest) hwaiting (fun hnot => by
      obtain ⟨hbefore, htrue, -⟩ := complete_whole hnot
      refine ⟨hbefore, ?_⟩
      rw [hsplit, hwhole.mp htrue, List.append_nil]
      exact List.Subset.refl _)
  have hafter : (complete host job fetched { f with running := f.running.eraseIdx i }).worklist
      = { waiting := f.pending ++ kept ++ f.initial, running := f.running.eraseIdx i
          seen := f.visited
          lossy := (complete host job fetched { f with running := f.running.eraseIdx i }).lossy } := by
    rw [worklist, waiting, complete, hqueued]
  rw [hafter]
  exact hstep

/-! ## Runs -/

variable (key job) in
/-- What holds between two completions. -/
structure Kept (endpoints : List Endpoint) (log : List (Endpoint × Fetched)) (f : Fanout) :
    Prop where
  sound : Worklist.Sound key endpoints (answers log) f.worklist
  within : f.Within job log.length
  gathered : f.lossy = false →
    f.result.operations = log.flatMap (fun note => (settled job note.2 true).operations)
      ∧ f.result.observations = log.flatMap fun note => note.2.result.observations

namespace Kept

variable {endpoints : List Endpoint} {log : List (Endpoint × Fetched)} {f : Fanout}

theorem launch (h : Kept key job endpoints log f) :
    Kept key job endpoints log (launch key job f) where
  sound := by
    have hrun := h.sound.run (fill_run key job f.waiting.length f)
    rwa [List.append_nil] at hrun
  within := h.within.fill f.waiting.length
  gathered := by
    intro hlossy
    obtain ⟨hresult, hlimited⟩ := fill_result key job f.waiting.length f
    rw [lossy, Bool.or_eq_false_iff] at hlossy
    have hbefore : f.lossy = false := by
      rw [lossy, hlimited hlossy.1, Bool.false_or]
      exact hresult ▸ hlossy.2
    exact hresult.symm ▸ h.gathered hbefore

theorem start (endpoints : List Endpoint) (clock : Time) :
    Kept key job endpoints [] (start key job endpoints clock) := by
  apply launch
  exact ⟨.init endpoints, ⟨Nat.le_refl _, Nat.zero_le _, Nat.zero_le _⟩, fun _ => ⟨rfl, rfl⟩⟩

theorem complete (h : Kept key job endpoints log f) {i : Nat} {endpoint : Endpoint}
    (hi : f.running[i]? = some endpoint) (fetched : Fetched) :
    Kept key job endpoints (log ++ [(endpoint, fetched)])
      (complete host job fetched { f with running := f.running.eraseIdx i }) where
  sound := by
    rw [answers_append]
    exact h.sound.step (complete_step hi)
  within := by
    obtain ⟨kept, rest, queuedBytes, -, hqueued, -⟩ :=
      enqueue_spec job fetched.followups { f with running := f.running.eraseIdx i }
    obtain ⟨hlt, -⟩ := List.getElem?_eq_some_iff.mp hi
    have hlength : (f.running.eraseIdx i).length + 1 = f.running.length := by
      rw [List.length_eraseIdx_of_lt hlt]
      omega
    have hwithin := h.within
    rw [Fanout.complete, hqueued]
    simp only [Within, List.length_append, List.length_singleton] at hwithin ⊢
    omega
  gathered := by
    intro hlossy
    obtain ⟨hbefore, -, hresult⟩ := complete_whole hlossy
    obtain ⟨hops, hobs⟩ := h.gathered hbefore
    rw [hresult, List.flatMap_append, List.flatMap_append]
    exact ⟨by simpa using hops, by simpa using hobs⟩

theorem step (h : Kept key job endpoints log f) (completion : Completion) :
    Kept key job endpoints (log ++ (step host key job f completion).2)
      (step host key job f completion).1 := by
  rw [Fanout.step]
  split
  · simpa using h
  · next hi => exact (h.complete hi completion.fetched).launch

end Kept

theorem kept_run (host : Host) (key : Endpoint → String) (job : Job) (endpoints : List Endpoint)
    (clock : Time) (completions : List Completion) :
    Kept key job endpoints
      ((process host key job).run (start key job endpoints clock) completions).2
      ((process host key job).run (start key job endpoints clock) completions).1 := by
  have htracks : (process host key job).Tracks (fun _ => True) (Kept key job endpoints) :=
    fun _ _ completion _ h => h.step completion
  exact htracks.run_start _ _ (fun _ _ => trivial) (Kept.start endpoints clock)

end spec

/-! ## What a collection covers -/

/-- In every order of completions each key is scanned at most once, no more endpoints are
scanned than assets are allowed, no more at a time than the width, and only what the
answers led to. -/
theorem collect_bounded (host : Host) (key : Endpoint → String) (job : Job)
    (endpoints : List Endpoint) (clock : Time) (completions : List Completion) :
    let run := (process host key job).run (start key job endpoints clock) completions
    let scanned := run.1.running ++ run.2.map Prod.fst
    (scanned.map key).Nodup ∧ scanned.length ≤ job.settings.maxAssets
      ∧ run.1.running.length ≤ width job.settings
      ∧ ∀ endpoint ∈ scanned, Reached endpoints (answers run.2) endpoint := by
  have h := kept_run host key job endpoints clock completions
  have hscanned : Worklist.launched (worklist
      ((process host key job).run (start key job endpoints clock) completions).1)
      (answers ((process host key job).run (start key job endpoints clock) completions).2)
      = ((process host key job).run (start key job endpoints clock) completions).1.running
        ++ ((process host key job).run (start key job endpoints clock) completions).2.map
          Prod.fst := by
    rw [Worklist.launched, answers_fst]
    rfl
  refine ⟨hscanned ▸ h.sound.distinct, ?_, h.within.2.2, fun endpoint hmem => ?_⟩
  · rw [List.length_append, List.length_map]
    exact h.within.2.1
  · exact h.sound.reached endpoint (List.mem_append_right _ (hscanned ▸ hmem))

/-- A collection without a truncated operation has nothing left that waits, and lost nothing. -/
theorem finish_whole {job : Job} {f : Fanout} {clock : Time}
    (h : ∀ op ∈ (finish job f clock).operations, op.coverage ≠ .truncated) :
    f.waiting = [] ∧ f.lossy = false
      ∧ (finish job f clock).observations.Perm f.result.observations := by
  have hops : ∀ op ∈ ((if f.waiting.isEmpty then f.limit else f.limit.markLimited).finish f.result
      job.settings.required clock).operations, op.coverage ≠ .truncated := by
    intro op hop
    apply h op
    rw [finish, (List.mergeSort_perm _ _).mem_iff, if_neg]
    · exact hop
    · intro hempty
      rw [List.isEmpty_iff] at hempty
      rw [hempty] at hop
      cases hop
  have hlimited : (if f.waiting.isEmpty then f.limit else f.limit.markLimited).limited = false := by
    by_contra hlimited
    rw [Bool.not_eq_false] at hlimited
    rw [Limit.finish, Collector.finish, if_pos hlimited] at hops
    exact hops _ (List.mem_append_right _ (List.mem_singleton_self _)) rfl
  have hwaiting : f.waiting.isEmpty = true := by
    by_contra hwaiting
    rw [if_neg hwaiting] at hlimited
    cases hlimited
  have hresult : (if f.waiting.isEmpty then f.limit else f.limit.markLimited).finish f.result
      job.settings.required clock = f.result := by
    rw [Limit.finish, Collector.finish, hlimited]
    exact if_neg Bool.false_ne_true
  rw [hresult] at hops
  rw [if_pos hwaiting] at hlimited
  refine ⟨List.isEmpty_iff.mp hwaiting, ?_, ?_⟩
  · rw [lossy, hlimited, Bool.false_or, List.any_eq_false]
    intro op hop
    simpa using hops op hop
  · rw [finish, hresult]
    exact List.mergeSort_perm _ _

/-- When no branch runs any more and no operation of the result is truncated, everything that
the answers led to was scanned, and the result holds every observation of every answer. -/
theorem collect_enumerates (host : Host) (key : Endpoint → String) (job : Job)
    (endpoints : List Endpoint) (clock ended : Time) (completions : List Completion) :
    let run := (process host key job).run (start key job endpoints clock) completions
    run.1.running = [] →
    (∀ op ∈ (finish job run.1 ended).operations, op.coverage ≠ .truncated) →
      (∀ endpoint, Reached endpoints (answers run.2) endpoint →
          key endpoint ∈ run.2.map fun note => key note.1)
        ∧ (finish job run.1 ended).observations.Perm
          (run.2.flatMap fun note => note.2.result.observations) := by
  intro run hrunning hwhole
  have h : Kept key job endpoints run.2 run.1 :=
    kept_run host key job endpoints clock completions
  obtain ⟨hwaiting, hlossy, hobservations⟩ := finish_whole hwhole
  constructor
  · intro endpoint hreached
    have hmem := h.sound.closed hlossy hwaiting hrunning hreached
    rw [answers_fst, List.map_map] at hmem
    exact hmem
  · rw [(h.gathered hlossy).2] at hobservations
    exact hobservations

namespace Sample

/-- An inventory whose listing leads to one detail. -/
def inventory : Job where
  target := { name := "cloud", valid := by decide, provider := .gcp, scope := "project" }
  check := .inventory
  settings := .default

def listing : Endpoint := { id := "instances", url := "https://api/instances", items := "/items" }

def detail : Endpoint := { id := "instance", url := "https://api/instances/1", items := "" }

def scanOf (id : String) (followups : List Endpoint) : Fetched where
  result := { base inventory 0 with operations := [operation id (.ok 1) 1 true 0] }
  followups
  reported := List.cons_ne_nil _ _

def branches : List Completion :=
  [{ index := 0, fetched := scanOf "instances" [detail] },
   { index := 0, fetched := scanOf "instance" [] }]

def host : Host where
  observationJson := fun _ => 100
  observationSize := 200
  operationSize := 100
  previousOccurrence := fun _ _ _ => none

end Sample

open Sample in
theorem collect_enumerates_detail :
    "instance" ∈ ((process host Endpoint.id inventory).run
      (start Endpoint.id inventory [listing] 0) branches).2.map fun note => note.1.id :=
  (collect_enumerates host Endpoint.id inventory [listing] 0 0 branches rfl (by
    intro op hop
    rw [finish, (List.mergeSort_perm _ _).mem_iff] at hop
    revert op
    exact List.forall_mem_cons.mpr ⟨by decide, List.forall_mem_cons.mpr ⟨by decide, by simp⟩⟩)).1
    detail (.led (.first (List.mem_singleton_self _)) (List.mem_cons_self ..)
      (List.mem_singleton_self _))

end Fanout

end HealthMonitor.Providers
