import HealthMonitor.Providers.CommonParallel
import HealthMonitor.Providers.Pagination

/-!
# EndpointScan

Bounded per-endpoint collection and pagination. What a row means is left to the projections,
and what a page is answered with to the environment, as is the state in which each claim
finds the budget that is shared with other scans.
-/

namespace HealthMonitor.Providers

open Json CollectionBudget
open Integrations (TransportError)

structure Projection where
  /-- `resource_projection::project`. -/
  project : Job → Endpoint → Value → List Observation
  /-- `metadata_fields::validate`. -/
  validate : Job → Endpoint → Value → Except TransportError Unit
  /-- `details::followups`. -/
  details : Job → Endpoint → Value → List Endpoint
  /-- `registry_manifests::validate`. -/
  manifest : Job → Endpoint → Value → Except TransportError Unit
  /-- `metric_window::id`. -/
  hash : Value → String

/-! ## Batches -/

/-- Name, action, field, size and items of the batches of a family. -/
def batchFamily : String → Option (String × String × String × Nat × String)
  | "codebuild" =>
      some ("build-details", "CodeBuild_20161006.BatchGetBuilds", "ids", 100, "/builds")
  | "ecs-services" =>
      some ("ecs-services-detail", "AmazonEC2ContainerServiceV20141113.DescribeServices",
        "services", 10, "/services")
  | "ecs-tasks" =>
      some ("ecs-tasks-detail", "AmazonEC2ContainerServiceV20141113.DescribeTasks", "tasks",
        100, "/tasks")
  | _ => none

def batchFollowups (hash : Value → String) (parent : Endpoint) (rows : List Value) :
    Option (List Endpoint) :=
  match parent.aws, batchFamily (Text.head parent.id '/') with
  | some (service, region, _), some (name, action, field, limit, items) =>
      let ids := rows.filterMap Value.asStr
      some ((ids.toChunks limit).map fun ids =>
        let listed := Value.array (ids.map .string)
        let cluster := (parent.body.bind Value.asObject).bind (List.lookup "cluster")
        { id := "batch-" ++ name ++ "/" ++ region ++ "/" ++ hash listed
          url := parent.url
          items
          body := some (.object (match cluster with
            | some cluster => Value.insert "cluster" cluster [(field, listed)]
            | none => [(field, listed)]))
          aws := some (service, region, action) })
  | _, _ => none

/-! ## The scan of one endpoint -/

structure Scan where
  observations : List Observation
  pending : List Endpoint
  queuedBytes : Nat
  limit : Limit
  outcome : Except TransportError Nat
  /-- How many items were charged so far. -/
  moment : Nat

/-- What the scan is given from outside. -/
structure Setting where
  host : Host
  urls : Urls
  projection : Projection
  /-- Whether the scan is part of a collection with a shared budget. -/
  sharing : Bool
  shared : Nat → Shared
  responses : Nat → Except TransportError Value
  clock : Time

namespace Scan

section run

variable (env : Setting) (job : Job) (endpoint : Endpoint)

def claim (s : Scan) (bytes : Nat) : Bool :=
  !env.sharing || ((env.shared s.moment).claim bytes).isSome

/-- Follow-ups wait up to the first one that does not fit, which ends the scan. -/
def enqueue : List Endpoint → Scan → Scan
  | [], s => s
  | followup :: rest, s =>
      if job.settings.readyQueue ≤ s.pending.length
          || queueLimit job - s.queuedBytes < followup.bytes || !s.claim env followup.bytes then
        { s with outcome := .error .limit, moment := s.moment + 1 }
      else
        enqueue rest { s with
          pending := s.pending ++ [followup]
          queuedBytes := s.queuedBytes + followup.bytes
          moment := s.moment + 1 }

def observe (projected : List Observation) (s : Scan) : Scan :=
  let admitted := s.limit.admitObservations env.host env.shared s.moment s.observations projected
  { s with
    limit := admitted.1
    observations := admitted.2.1
    moment := s.moment + projected.length
    outcome := if admitted.2.2 then s.outcome else .error .limit }

def check (value : Value) (s : Scan) : Scan :=
  match env.projection.validate job endpoint value with
  | .ok () => s
  | .error error => { s with outcome := .error error }

def readRow (batched : Bool) (row : Value) (s : Scan) : Scan :=
  let s := observe env (env.projection.project job endpoint row) (check env job endpoint row s)
  if batched then s else enqueue env job (env.projection.details job endpoint row) s

def eachRow (batched : Bool) : List Value → Scan → Scan
  | [], s => s
  | row :: rest, s =>
      if job.settings.maxAssets ≤ s.observations.length then { s with outcome := .error .limit }
      else
        let s := readRow env job endpoint batched row s
        match s.outcome with
        | .ok _ => eachRow batched rest s
        | .error _ => s

/-- Pages without a row that are known to be no mistake. -/
def vacant (payload : Value) : Bool :=
  payload.asObject.any List.isEmpty
    || endpoint.items == "/items"
      && ((payload.asObject.bind (List.lookup "items")).bind Value.asObject).any fun scopes =>
        scopes.all fun scope => text scope.2 ["/warning/code"] == some "NO_RESULTS_ON_PAGE"
    || (payload.pointer endpoint.items).any fun value =>
      value.asArray.any List.isEmpty || value.asStr == some ""

def readPage (payload : Value) (s : Scan) : Scan :=
  let found := rows payload endpoint.items
  let batches := batchFollowups env.projection.hash endpoint found
  let s := enqueue env job (batches.getD []) s
  if found.isEmpty then
    if endpoint.items.isEmpty then
      observe env (env.projection.project job endpoint payload)
        (check env job endpoint payload { s with outcome := .ok 1 })
    else if vacant endpoint payload then { s with outcome := .ok 0 }
    else { s with outcome := .error .malformed }
  else
    let s := eachRow env job endpoint batches.isSome found s
    { s with outcome := s.outcome.map (· + found.length) }

def manifest (payload : Value) : Except TransportError Unit :=
  if Text.startsWith endpoint.id "registry-manifest/" then
    env.projection.manifest job endpoint payload
  else .ok ()

end run

end Scan

/-- Where a scan ended, with the requests that it made and what they were answered with. -/
structure Walk where
  endpoint : Endpoint
  pages : Nat
  scan : Scan
  log : List (Endpoint × Except TransportError Value)

section fetch

variable (env : Setting) (job : Job)

/-- At most `left` more pages; none where the source panics. -/
def walk : (left page : Nat) → Endpoint → String → Scan → Option Walk
  | 0, page, endpoint, _, scan => some { endpoint, pages := page, scan, log := [] }
  | left + 1, page, endpoint, previous, scan =>
      let response := env.responses page
      let ended (scan : Scan) : Walk :=
        { endpoint, pages := page + 1, scan, log := [(endpoint, response)] }
      match response with
      | .error error => some (ended { scan with outcome := .error error })
      | .ok payload =>
          let scan := scan.readPage env job endpoint payload
          match scan.outcome, Scan.manifest env job endpoint payload with
          | .error _, _ => some (ended scan)
          | .ok _, .error error => some (ended { scan with outcome := .error error })
          | .ok _, .ok () =>
              match advance env.urls endpoint job payload previous (page + 1) with
              | none => none
              | some (.error error) => some (ended { scan with outcome := .error error })
              | some (.ok (_, none)) => some (ended scan)
              | some (.ok (next, some token)) =>
                  (walk left (page + 1) next token scan).map fun rest =>
                    { rest with log := (endpoint, response) :: rest.log }

def Scan.new : Scan where
  observations := []
  pending := []
  queuedBytes := 0
  limit := .new job.settings env.sharing
  outcome := .ok 0
  moment := 0

def walkFrom (endpoint : Endpoint) : Option Walk :=
  walk env job job.settings.maxPages 0 endpoint "" (.new env job)

/-- The scan reports one operation, unless there is no room for it. -/
def Walk.result (w : Walk) : Limit × CheckResult :=
  let op := operation w.endpoint.id w.scan.outcome w.pages job.settings.required env.clock
  let reported := w.scan.limit.admitOperations env.host env.shared w.scan.moment [] [op]
  (reported.1, { base job env.clock with
    operations := reported.2.1, observations := w.scan.observations })

theorem Walk.reported (w : Walk) :
    ((w.result env job).1.finish (w.result env job).2 job.settings.required env.clock).operations
      ≠ [] := by
  obtain ⟨kept, rest, hsplit, hout, -, hlimited⟩ :=
    Limit.admitOperations_spec env.host env.shared w.scan.moment w.scan.limit []
      [operation w.endpoint.id w.scan.outcome w.pages job.settings.required env.clock]
  rw [Limit.finish, Collector.finish]
  cases rest with
  | nil =>
      rw [List.append_nil] at hsplit
      have hops : (w.result env job).2.operations ≠ [] := by
        rw [← hsplit, List.nil_append] at hout
        exact ne_of_eq_of_ne hout (List.cons_ne_nil _ _)
      split
      · exact List.append_ne_nil_of_left_ne_nil hops _
      · exact hops
  | cons op rest =>
      have htrue : (w.result env job).1.limited = true := by
        rw [List.isEmpty_cons, Bool.not_false, Bool.or_true] at hlimited
        exact hlimited
      rw [if_pos htrue]
      exact List.append_ne_nil_of_right_ne_nil _ (List.cons_ne_nil _ _)

def Walk.fetched (w : Walk) : Fetched where
  result := (w.result env job).1.finish (w.result env job).2 job.settings.required env.clock
  followups := w.scan.pending
  reported := w.reported env job

end fetch

/-! ## What a page contributes -/

section spec

variable {env : Setting} {job : Job} {endpoint : Endpoint}

/-- The observations that a page stands for. -/
def evidence (env : Setting) (job : Job) (endpoint : Endpoint) (payload : Value) :
    List Observation :=
  let found := rows payload endpoint.items
  if !found.isEmpty then found.flatMap (env.projection.project job endpoint)
  else if endpoint.items.isEmpty then env.projection.project job endpoint payload
  else []

/-- The endpoints that a page leads to. -/
def leads (env : Setting) (job : Job) (endpoint : Endpoint) (payload : Value) : List Endpoint :=
  let found := rows payload endpoint.items
  match batchFollowups env.projection.hash endpoint found with
  | some batches => batches
  | none => found.flatMap (env.projection.details job endpoint)

namespace Scan

theorem enqueue_ok {followups : List Endpoint} {s : Scan} {n : Nat}
    (h : (enqueue env job followups s).outcome = .ok n) :
    s.outcome = .ok n ∧ (enqueue env job followups s).observations = s.observations
      ∧ (enqueue env job followups s).pending = s.pending ++ followups := by
  induction followups generalizing s with
  | nil => exact ⟨h, rfl, by simp [enqueue]⟩
  | cons followup rest ih =>
      rw [enqueue] at h ⊢
      split at h
      · cases h
      · next hroom =>
          rw [if_neg hroom]
          obtain ⟨houtcome, hobservations, hpending⟩ := ih h
          refine ⟨houtcome, hobservations, ?_⟩
          rw [hpending, List.append_assoc, List.singleton_append]

theorem observe_ok {projected : List Observation} {s : Scan} {n : Nat}
    (h : (observe env projected s).outcome = .ok n) :
    s.outcome = .ok n ∧ (observe env projected s).observations = s.observations ++ projected
      ∧ (observe env projected s).pending = s.pending := by
  obtain ⟨kept, rest, hsplit, hout, hwhole, -⟩ :=
    Limit.admitObservations_spec env.host env.shared s.moment s.limit s.observations projected
  by_cases hall : (s.limit.admitObservations env.host env.shared s.moment s.observations
      projected).2.2 = true
  · have hrest : rest = [] := hwhole.mp hall
    rw [hrest, List.append_nil] at hsplit
    rw [observe, if_pos hall] at h
    exact ⟨h, hsplit ▸ hout, rfl⟩
  · rw [observe, if_neg hall] at h
    cases h

theorem check_ok {value : Value} {s : Scan} {n : Nat}
    (h : (check env job endpoint value s).outcome = .ok n) :
    check env job endpoint value s = s := by
  rw [check] at h ⊢
  split at h
  · rfl
  · cases h

theorem readRow_ok {batched : Bool} {row : Value} {s : Scan} {n : Nat}
    (h : (readRow env job endpoint batched row s).outcome = .ok n) :
    s.outcome = .ok n
      ∧ (readRow env job endpoint batched row s).observations
        = s.observations ++ env.projection.project job endpoint row
      ∧ (readRow env job endpoint batched row s).pending
        = s.pending ++ (if batched then [] else env.projection.details job endpoint row) := by
  cases batched with
  | true =>
      obtain ⟨houtcome, hobservations, hpending⟩ := observe_ok h
      have hcheck := check_ok houtcome
      rw [hcheck] at houtcome
      refine ⟨houtcome, hobservations.trans (by rw [hcheck]), hpending.trans ?_⟩
      rw [hcheck]
      exact (List.append_nil _).symm
  | false =>
      obtain ⟨hobserved, hobservations, hpending⟩ := enqueue_ok h
      obtain ⟨houtcome, hobservations', hpending'⟩ := observe_ok hobserved
      have hcheck := check_ok houtcome
      rw [hcheck] at houtcome
      refine ⟨houtcome, (hobservations.trans hobservations').trans (by rw [hcheck]),
        hpending.trans ?_⟩
      rw [hpending', hcheck]
      rfl

theorem eachRow_ok {batched : Bool} {found : List Value} {s : Scan} {n : Nat}
    (h : (eachRow env job endpoint batched found s).outcome = .ok n) :
    s.outcome = .ok n
      ∧ (eachRow env job endpoint batched found s).observations
        = s.observations ++ found.flatMap (env.projection.project job endpoint)
      ∧ (eachRow env job endpoint batched found s).pending
        = s.pending ++ (if batched then []
          else found.flatMap (env.projection.details job endpoint)) := by
  induction found generalizing s with
  | nil => exact ⟨h, by simp [eachRow], by simp [eachRow]⟩
  | cons row rest ih =>
      rw [eachRow] at h ⊢
      split at h
      · cases h
      · next hroom =>
          rw [if_neg hroom]
          dsimp only at h ⊢
          cases hrow : (readRow env job endpoint batched row s).outcome with
          | error error =>
              rw [hrow] at h
              dsimp only at h
              rw [hrow] at h
              cases h
          | ok m =>
              rw [hrow] at h
              dsimp only at h ⊢
              obtain ⟨houtcome, hobservations, hpending⟩ := ih h
              obtain ⟨hbefore, hobservations', hpending'⟩ := readRow_ok hrow
              have hsame : m = n := Except.ok.inj (hrow.symm.trans houtcome)
              refine ⟨hsame ▸ hbefore, ?_, ?_⟩
              · rw [hobservations, hobservations', List.flatMap_cons, List.append_assoc]
              · rw [hpending, hpending']
                cases batched <;> simp

theorem batchFollowups_nil (hash : Value → String) (parent : Endpoint) :
    (batchFollowups hash parent []).getD [] = [] := by
  rw [batchFollowups]
  split
  · simp [List.toChunks]
  · rfl

/-- A page that is read without an error is read whole. -/
theorem readPage_ok {payload : Value} {s : Scan} {n : Nat}
    (h : (readPage env job endpoint payload s).outcome = .ok n) :
    (readPage env job endpoint payload s).observations
        = s.observations ++ evidence env job endpoint payload
      ∧ (readPage env job endpoint payload s).pending
        = s.pending ++ leads env job endpoint payload := by
  rw [readPage] at h ⊢
  rw [evidence, leads]
  dsimp only at h ⊢
  generalize rows payload endpoint.items = found at h ⊢
  cases found with
  | nil =>
      have hnone := batchFollowups_nil env.projection.hash endpoint
      have hleads : (match batchFollowups env.projection.hash endpoint [] with
          | some batches => batches
          | none => [].flatMap (env.projection.details job endpoint)) = [] := by
        cases hbatches : batchFollowups env.projection.hash endpoint [] with
        | none => rfl
        | some batches =>
            rw [hbatches] at hnone
            exact hnone
      rw [hleads, List.append_nil]
      rw [hnone] at h ⊢
      simp only [List.isEmpty_nil, Bool.not_true, if_true, Bool.false_eq_true, if_false] at h ⊢
      split at h
      · next hitems =>
          rw [if_pos hitems, if_pos hitems]
          obtain ⟨houtcome, hobservations, hpending⟩ := observe_ok h
          have hcheck := check_ok houtcome
          exact ⟨hobservations.trans (by rw [hcheck]; rfl), hpending.trans (by rw [hcheck]; rfl)⟩
      · next hitems =>
          rw [if_neg hitems, if_neg hitems]
          split at h
          · next hvacant =>
              rw [if_pos hvacant]
              exact ⟨(List.append_nil _).symm, rfl⟩
          · cases h
  | cons row rest =>
      simp only [List.isEmpty_cons, Bool.not_false, if_true, Bool.false_eq_true, if_false] at h ⊢
      obtain ⟨m, heach, -⟩ := exists_of_map_ok h
      obtain ⟨henqueue, hobservations, hpending⟩ := eachRow_ok heach
      obtain ⟨-, hobservations', hpending'⟩ := enqueue_ok henqueue
      refine ⟨hobservations.trans (by rw [hobservations']), hpending.trans ?_⟩
      rw [hpending']
      cases batchFollowups env.projection.hash endpoint (row :: rest) with
      | none => simp
      | some batches => simp

end Scan

/-! ## Runs of the loop -/

/-- The pages of an endpoint, each the one that the page before leads to. -/
inductive Chain (urls : Urls) (job : Job) :
    Endpoint → String → Nat → List (Endpoint × Value) → Prop
  | last {endpoint : Endpoint} {previous : String} {page : Nat} {payload : Value}
      (h : advance urls endpoint job payload previous page = some (.ok (endpoint, none))) :
      Chain urls job endpoint previous page [(endpoint, payload)]
  | more {endpoint next : Endpoint} {previous token : String} {page : Nat} {payload : Value}
      {rest : List (Endpoint × Value)}
      (h : advance urls endpoint job payload previous page = some (.ok (next, some token)))
      (hrest : Chain urls job next token (page + 1) rest) :
      Chain urls job endpoint previous page ((endpoint, payload) :: rest)

/-- A chain ends with a page that does not say that there is more. -/
theorem Chain.last_page {urls : Urls} {job : Job} {endpoint : Endpoint} {previous : String}
    {page : Nat} {read : List (Endpoint × Value)} (h : Chain urls job endpoint previous page read) :
    ∃ last, read.getLast? = some last ∧ ¬Continues last.2 := by
  induction h with
  | last h => exact ⟨_, rfl, (advance_last h).2⟩
  | more _ _ ih =>
      obtain ⟨last, hlast, hends⟩ := ih
      refine ⟨last, ?_, hends⟩
      rw [List.getLast?_cons, hlast]
      rfl

/-- What one page does to the loop. -/
theorem walk_succ {left page : Nat} {previous : String} {scan : Scan} {w : Walk}
    (h : walk env job (left + 1) page endpoint previous scan = some w) :
    (w.log = [(endpoint, env.responses page)] ∧ w.pages = page + 1 ∧ w.endpoint = endpoint
        ∧ ∀ n, w.scan.outcome = .ok n → ∃ payload, env.responses page = .ok payload
          ∧ w.scan = scan.readPage env job endpoint payload
          ∧ advance env.urls endpoint job payload previous (page + 1) = some (.ok (endpoint, none)))
      ∨ ∃ payload next token rest m, env.responses page = .ok payload
        ∧ (scan.readPage env job endpoint payload).outcome = .ok m
        ∧ advance env.urls endpoint job payload previous (page + 1) = some (.ok (next, some token))
        ∧ walk env job left (page + 1) next token (scan.readPage env job endpoint payload)
          = some rest
        ∧ w = { rest with log := (endpoint, .ok payload) :: rest.log } := by
  rw [walk] at h
  dsimp only at h
  cases hresponse : env.responses page with
  | error error =>
      rw [hresponse] at h
      cases h
      exact .inl ⟨rfl, rfl, rfl, fun n hn => by cases hn⟩
  | ok payload =>
      rw [hresponse] at h
      dsimp only at h
      split at h
      · next error hread =>
          cases h
          exact .inl ⟨rfl, rfl, rfl, fun n hn => by rw [hread] at hn; cases hn⟩
      · cases h
        exact .inl ⟨rfl, rfl, rfl, fun n hn => by cases hn⟩
      · next m hread _ =>
          split at h
          · cases h
          · cases h
            exact .inl ⟨rfl, rfl, rfl, fun n hn => by cases hn⟩
          · next same hadvance =>
              cases h
              obtain ⟨rfl, -⟩ := advance_last hadvance
              exact .inl ⟨rfl, rfl, rfl, fun n _ => ⟨payload, rfl, rfl, hadvance⟩⟩
          · next next token hadvance =>
              obtain ⟨rest, hrest, rfl⟩ := Option.map_eq_some_iff.mp h
              exact .inr ⟨payload, next, token, rest, m, rfl, hread, hadvance, hrest, rfl⟩

/-- Every request of a scan stays where the endpoint is, and there are no more requests than
pages are allowed. -/
theorem walk_confined (hurls : env.urls.Lawful) {left page : Nat} {previous : String} {scan : Scan}
    {w : Walk} (h : walk env job left page endpoint previous scan = some w) :
    w.log.length ≤ left ∧ w.pages = page + w.log.length ∧ endpoint.Same w.endpoint
      ∧ ∀ request ∈ w.log, endpoint.Same request.1
        ∧ Confined env.urls job endpoint.url request.1.url := by
  induction left generalizing page endpoint previous scan w with
  | zero =>
      cases h
      exact ⟨Nat.le_refl _, rfl, ⟨rfl, rfl, rfl⟩, by simp⟩
  | succ left ih =>
      obtain ⟨hlog, hpages, hsame, -⟩ | ⟨payload, next, token, rest, m, -, -, hadvance, hrest, rfl⟩ :=
        walk_succ h
      · rw [hlog, hsame]
        refine ⟨by simp, by simpa using hpages, ⟨rfl, rfl, rfl⟩, fun request hmem => ?_⟩
        rw [List.mem_singleton.mp hmem]
        exact ⟨⟨rfl, rfl, rfl⟩, .refl _⟩
      · obtain ⟨hsame, hurl⟩ := advance_confined hurls hadvance
        obtain ⟨hlength, hpages, hend, hrequests⟩ := ih hrest
        have htrans : ∀ {e : Endpoint}, next.Same e → endpoint.Same e := fun he =>
          ⟨he.1.trans hsame.1, he.2.1.trans hsame.2.1, he.2.2.trans hsame.2.2⟩
        refine ⟨?_, ?_, htrans hend, fun request hmem => ?_⟩
        · rw [List.length_cons]
          omega
        · rw [List.length_cons, hpages]
          omega
        · rcases List.mem_cons.mp hmem with rfl | hmem
          · exact ⟨⟨rfl, rfl, rfl⟩, .refl _⟩
          · obtain ⟨hkept, hconfined⟩ := hrequests request hmem
            exact ⟨htrans hkept, hurl.trans hconfined⟩

/-- A loop that ends without an error has read the whole chain of pages, and kept everything
that the pages stand for. -/
theorem walk_whole {left page : Nat} {previous : String} {scan : Scan} {w : Walk} {n : Nat}
    (h : walk env job left page endpoint previous scan = some w)
    (hleft : page + left = job.settings.maxPages) (hpositive : 0 < left)
    (hok : w.scan.outcome = .ok n) :
    ∃ read, w.log = read.map (fun r => (r.1, .ok r.2))
      ∧ Chain env.urls job endpoint previous (page + 1) read
      ∧ w.scan.observations
        = scan.observations ++ read.flatMap (fun r => evidence env job r.1 r.2)
      ∧ w.scan.pending = scan.pending ++ read.flatMap (fun r => leads env job r.1 r.2) := by
  induction left generalizing page endpoint previous scan w with
  | zero => omega
  | succ left ih =>
      obtain ⟨hlog, -, -, hends⟩ | ⟨payload, next, token, rest, m, hresponse, hread, hadvance, hrest,
        rfl⟩ := walk_succ h
      · obtain ⟨payload, hresponse, hscan, hadvance⟩ := hends n hok
        rw [hscan] at hok
        obtain ⟨hobservations, hpending⟩ := Scan.readPage_ok hok
        refine ⟨[(endpoint, payload)], by rw [hlog, hresponse]; rfl, .last hadvance, ?_, ?_⟩
        · rw [hscan, hobservations, List.flatMap_singleton]
        · rw [hscan, hpending, List.flatMap_singleton]
      · obtain ⟨-, -, hbefore⟩ := advance_valid hadvance
        obtain ⟨read, hlog, hchain, hobservations, hpending⟩ :=
          ih hrest (by omega) (by omega) hok
        obtain ⟨hobservations', hpending'⟩ := Scan.readPage_ok hread
        refine ⟨(endpoint, payload) :: read, ?_, .more hadvance hchain, ?_, ?_⟩
        · rw [hlog, List.map_cons]
        · rw [hobservations, hobservations', List.flatMap_cons, List.append_assoc]
        · rw [hpending, hpending', List.flatMap_cons, List.append_assoc]

/-! ## What a scan reports -/

theorem operation_complete {id : String} {outcome : Except TransportError Nat} {pages : Nat}
    {required : Bool} {clock : Time}
    (h : (operation id outcome pages required clock).coverage = .complete) :
    ∃ n, outcome = .ok n := by
  cases outcome with
  | ok n => exact ⟨n, rfl⟩
  | error error => cases error <;> cases h

/-- Only a scan that ended without an error reports a complete operation. -/
theorem Walk.fetched_complete {w : Walk} {op : Operation}
    (hop : op ∈ (w.fetched env job).result.operations) (hcomplete : op.coverage = .complete) :
    ∃ n, w.scan.outcome = .ok n := by
  obtain ⟨kept, rest, hsplit, hout, -, -⟩ :=
    Limit.admitOperations_spec env.host env.shared w.scan.moment w.scan.limit []
      [operation w.endpoint.id w.scan.outcome w.pages job.settings.required env.clock]
  have hcases : op ∈ (w.result env job).2.operations ∨ op.coverage = .truncated := by
    have hop : op ∈ ((w.result env job).1.finish (w.result env job).2 job.settings.required
        env.clock).operations := hop
    rw [Limit.finish, Collector.finish] at hop
    split at hop
    · rcases List.mem_append.mp hop with hmem | hmem
      · exact .inl hmem
      · exact .inr (by rw [List.mem_singleton.mp hmem])
    · exact .inl hop
  obtain hmem | htruncated := hcases
  · have hkept : op ∈ kept := by
      rw [List.nil_append] at hout
      exact hout ▸ hmem
    have hop : op ∈ kept ++ rest := List.mem_append_left rest hkept
    rw [← hsplit, List.mem_singleton] at hop
    exact operation_complete (hop ▸ hcomplete)
  · rw [htruncated] at hcomplete
    cases hcomplete

theorem Walk.fetched_observations (w : Walk) :
    (w.fetched env job).result.observations = w.scan.observations := by
  show ((w.result env job).1.finish (w.result env job).2 job.settings.required
    env.clock).observations = w.scan.observations
  rw [Limit.finish, Collector.finish]
  split <;> rfl

end spec

/-- Whatever an endpoint is answered with, its scan makes no more requests than pages are
allowed, and none of them leaves its host, its paths or its credentials. -/
theorem fetch_confined (env : Setting) (hurls : env.urls.Lawful) (job : Job) (endpoint : Endpoint)
    (w : Walk) (h : walkFrom env job endpoint = some w) :
    w.log.length ≤ job.settings.maxPages
      ∧ ∀ request ∈ w.log, endpoint.Same request.1
        ∧ Confined env.urls job endpoint.url request.1.url := by
  obtain ⟨hlength, -, -, hrequests⟩ := walk_confined hurls h
  exact ⟨hlength, hrequests⟩

/-- A complete operation means that the scan has read every page, the last of which does not
say that there is more, and that nothing that the pages stand for is missing. -/
theorem fetch_complete (env : Setting) (job : Job) (endpoint : Endpoint) (w : Walk)
    (op : Operation) (hpages : 0 < job.settings.maxPages)
    (h : walkFrom env job endpoint = some w) (hop : op ∈ (w.fetched env job).result.operations)
    (hcomplete : op.coverage = .complete) :
    ∃ read last, w.log = read.map (fun r => (r.1, .ok r.2))
      ∧ Chain env.urls job endpoint "" 1 read
      ∧ read.getLast? = some last ∧ ¬Continues last.2
      ∧ (w.fetched env job).result.observations
        = read.flatMap (fun r => evidence env job r.1 r.2)
      ∧ (w.fetched env job).followups = read.flatMap (fun r => leads env job r.1 r.2) := by
  obtain ⟨n, hok⟩ := Walk.fetched_complete hop hcomplete
  obtain ⟨read, hlog, hchain, hobservations, hpending⟩ :=
    walk_whole h (Nat.zero_add _) hpages hok
  obtain ⟨last, hlast, hends⟩ := hchain.last_page
  exact ⟨read, last, hlog, hchain, hlast, hends, w.fetched_observations.trans hobservations,
    hpending⟩

/-! ## A listing of two pages -/

namespace Sample

open Fanout.Sample (inventory listing)

/-- URLs of one listing, with the token of the page. -/
def urls : Urls where
  Url := Option String
  parse := fun s =>
    if s = "https://api/instances" then some none
    else (Text.stripPrefix s "https://api/instances?pageToken=").map some
  write := fun url =>
    match url with
    | none => "https://api/instances"
    | some token => "https://api/instances?pageToken=" ++ token
  scheme := fun _ => "https"
  username := fun _ => ""
  password := fun _ => none
  host := fun _ => some "api"
  port := fun _ => some 443
  path := fun _ => "/instances"
  fragment := fun _ => none
  origin := fun _ => some ("https", some "api", some 443)
  pairs := fun url => url.toList.map fun token => ("pageToken", token)
  withPairs := fun _ pairs => pairs.lookup "pageToken"

theorem urls_lawful : urls.Lawful where
  parse_write := by
    intro url
    cases url with
    | none => rfl
    | some token =>
        have hne : "https://api/instances?pageToken=" ++ token ≠ "https://api/instances" := by
          intro h
          have hlength := congrArg String.length h
          rw [String.length_append] at hlength
          have hlong : "https://api/instances?pageToken=".length = 32 := by decide
          have hshort : "https://api/instances".length = 21 := by decide
          omega
        have hstrip : Text.stripPrefix ("https://api/instances?pageToken=" ++ token)
            "https://api/instances?pageToken=" = some token := Text.stripPrefix_eq_some.mpr rfl
        show (if "https://api/instances?pageToken=" ++ token = "https://api/instances"
          then some none
          else (Text.stripPrefix ("https://api/instances?pageToken=" ++ token)
            "https://api/instances?pageToken=").map some) = some (some token)
        rw [if_neg hne, hstrip]
        rfl
  site_withPairs _ _ := rfl
  user_withPairs _ _ := rfl
  path_withPairs _ _ := rfl
  origin_rooted _ _ h _ := (Option.some.inj h).symm
  path_rooted _ _ _ := by
    show Text.startsWith "/instances" "/" = true
    decide

def page (name : String) (more : List (String × Value)) : Value :=
  .object (("items", .array [.object [("name", .string name)]]) :: more)

def setting : Setting where
  host := Fanout.Sample.host
  urls
  projection :=
    { project := fun _ _ _ => []
      validate := fun _ _ _ => .ok ()
      details := fun _ _ _ => [Fanout.Sample.detail]
      manifest := fun _ _ _ => .ok ()
      hash := fun value => value.write }
  sharing := true
  shared := fun _ => .new inventory.settings
  responses := fun
    | 0 => .ok (page "first" [("nextPageToken", .string "second")])
    | _ => .ok (page "second" [])
  clock := 0

end Sample

open Sample Fanout.Sample in
theorem fetch_confined_listing :
    ∃ w, walkFrom setting inventory listing = some w ∧ w.log.length = 2
      ∧ ∀ request ∈ w.log, Confined urls inventory listing.url request.1.url :=
  ⟨_, rfl, rfl, fun request hmem =>
    ((fetch_confined setting urls_lawful inventory listing _ rfl).2 request hmem).2⟩

open Sample Fanout.Sample in
theorem fetch_complete_listing :
    ∃ w read, walkFrom setting inventory listing = some w
      ∧ Chain urls inventory listing "" 1 read ∧ (w.fetched setting inventory).followups
        = read.flatMap fun r => leads setting inventory r.1 r.2 := by
  obtain ⟨read, last, -, hchain, -, -, -, hfollowups⟩ :=
    fetch_complete setting inventory listing _ (operation "instances" (.ok 2) 2 true 0)
      (by decide) rfl (List.mem_singleton_self _) rfl
  exact ⟨_, read, rfl, hchain, hfollowups⟩

end HealthMonitor.Providers
