import HealthMonitor.Core.Bounds

/-!
# Policy

Health policy over allowlisted observations; collection status is independent.
Each policy either states a health, with no finding, or reports one fault of
the observation it looks at. `Evaluation.Verdict` says so, and every policy is
proved to return a verdict.
-/

namespace HealthMonitor

structure Evaluation where
  health : Health
  findings : List Finding
  deriving DecidableEq, Repr

namespace Policy

def result (health : Health) : Evaluation :=
  { health, findings := [] }

/-- The finding a fault of `obs` reports. -/
def faultFinding (obs : Observation) (rule : String) (severity : Severity)
    (confidence : Confidence) : Finding :=
  { diagnostic := none
    check := none
    id := obs.resource ++ "/" ++ rule
    resource := obs.resource
    rule, severity
    evidence := [obs.operation]
    observedAt := obs.observedAt
    expected := obs.expected
    confidence
    stale := false
    clearCount := 0
    validUntil := none }

def fault (obs : Observation) (rule : String) (severity : Severity)
    (confidence : Confidence) : Evaluation :=
  { health := if severity = .error then .unhealthy else .degraded
    findings := [faultFinding obs rule severity confidence] }

def error (obs : Observation) (rule : String) : Evaluation :=
  fault obs rule .error .direct

def warning (obs : Observation) (rule : String) : Evaluation :=
  fault obs rule .warning .direct

/-- Whole seconds since an instant, unless it lies in the future. -/
def age (since : Option Time) (now : Time) : Option Nat :=
  since.bind fun t =>
    let seconds := numSeconds now t
    if 0 ≤ seconds then some seconds.toNat else none

/-- `age(since, now).is_some_and(p)`. -/
def ageSome (since : Option Time) (now : Time) (p : Nat → Bool) : Bool :=
  (age since now).any p

/-- `age(since, now).is_none_or(p)`. -/
def ageNoneOr (since : Option Time) (now : Time) (p : Nat → Bool) : Bool :=
  (age since now).all p

end Policy

/-- A policy's answer about `obs`: a health without findings, or one fault of
`obs` itself. -/
inductive Evaluation.Verdict (obs : Observation) : Evaluation → Prop where
  | result (health : Health) : Verdict obs (Policy.result health)
  | fault (rule : String) (severity : Severity) (confidence : Confidence) :
      Verdict obs (Policy.fault obs rule severity confidence)

theorem Evaluation.Verdict.error (obs : Observation) (rule : String) :
    Verdict obs (Policy.error obs rule) := .fault ..

theorem Evaluation.Verdict.warning (obs : Observation) (rule : String) :
    Verdict obs (Policy.warning obs rule) := .fault ..

open Policy

def Observation.inactive (obs : Observation) : Bool := obs.expected ≠ .active

/-! ## Endpoints -/

/-- Endpoint policy distinguishes configured application health from root
reachability. -/
def EndpointPolicy.evaluate (obs : Observation) (settings : Settings) (now : Time) :
    Evaluation :=
  match obs.data with
  | .endpoint probe =>
      let accepted := probe.status.any fun s =>
        if probe.accepted.isEmpty then 100 ≤ s && s < 500 else probe.accepted.contains s
      if !probe.dns || !probe.tls || !accepted then
        if obs.inactive then result .expectedInactive
        else error obs "endpoint-unreachable"
      else if probe.expiresAt.any fun t =>
          numSeconds t now < settings.certificateWarning.seconds then
        warning obs "certificate-expiring"
      else if settings.latencyErrorMs.any fun limit =>
          limit.lt (Reading.ofNat probe.latencyMs) then
        error obs "endpoint-latency"
      else result .healthy
  | _ => result .unknown

/-! ## Resources -/

def ResourcePolicy.evaluateService (obs : Observation) (service : Service) :
    Evaluation :=
  if obs.inactive && service.state == .stopped then result .expectedInactive
  else
    match service.state with
    | .failed => error obs "service-unavailable"
    | .stopped => error obs "service-unavailable"
    | .starting => result .unknown
    | .unknown => result .unknown
    | .ready =>
        if service.encrypted == some false then warning obs "encryption-disabled"
        else if service.backupEnabled == some false then warning obs "backup-disabled"
        else result .healthy

/-- The value and thresholds a metric is compared at: a share of a usable
capacity, or the raw value. -/
def ResourcePolicy.thresholds (settings : Settings) (metric : Metric) :
    Reading × Option Reading × Option Reading :=
  match metric.capacity.filter fun c => Reading.lt (Reading.ofNat 0) c && c.isFinite with
  | some capacity =>
      (metric.value.percentOf capacity,
        metric.warning.or (some settings.capacityWarning),
        metric.error.or (some settings.capacityError))
  | none => (metric.value, metric.warning, metric.error)

def ResourcePolicy.evaluateMetric (obs : Observation) (settings : Settings)
    (metric : Metric) : Evaluation :=
  if obs.inactive then result .expectedInactive
  else if !metric.value.isFinite then result .unknown
  else
    let (value, warn, err) := ResourcePolicy.thresholds settings metric
    if warn.isNone && err.isNone then result .unknown
    else if metric.capacity.isSome
        && metric.windowSeconds < settings.capacitySustain.seconds
        && (warn.any (·.le value) || err.any (·.le value)) then
      result .unknown
    else if err.any (·.le value) then error obs "metric-threshold"
    else if warn.any (·.le value) then warning obs "metric-threshold"
    else result .healthy

/-- Managed resource state and sustained metric thresholds. -/
def ResourcePolicy.evaluate (obs : Observation) (settings : Settings) : Evaluation :=
  match obs.data with
  | .service service => ResourcePolicy.evaluateService obs service
  | .metric metric => ResourcePolicy.evaluateMetric obs settings metric
  | _ => result .unknown

/-! ## Queues -/

/-- The previous sample already held work that no consumer was ready for. -/
def QueuePolicy.waiting (previous : Option Observation) (activation : Reading) : Bool :=
  previous.any fun p =>
    match p.data with
    | .queue q => q.ready == 0 && activation.lt q.backlog
    | _ => false

/-- Queue demand and consumer health correlation. -/
def QueuePolicy.evaluate (obs : Observation) (previous : Option Observation)
    (settings : Settings) : Evaluation :=
  match obs.data with
  | .queue q =>
      if !q.backlog.isFinite || q.backlog.lt (Reading.ofNat 0) then result .unknown
      else if obs.inactive then result .expectedInactive
      else if q.deadLetters.any (Reading.lt (Reading.ofNat 0)) then
        warning obs "dead-letter-backlog"
      else if q.activation.lt q.backlog then
        if q.crashLoop && q.ready == 0 then
          error obs "queued-work-crash-looping-consumer"
        else if !q.scalerReady then error obs "queued-work-scaler-not-ready"
        else if settings.queueAgeError.any fun limit => q.ageSeconds.any limit.lt then
          error obs "queue-age"
        else if q.ready == 0 then
          if QueuePolicy.waiting previous q.activation then
            fault obs "persistent-queued-work-consumer-starting" .warning .correlated
          else result .unknown
        else result .healthy
      else result .healthy
  | _ => result .unknown

/-! ## Schedules -/

/-- `Option<DateTime>` comparison: an absent instant is least. -/
def optionLt : Option Time → Option Time → Bool
  | none, some _ => true
  | some a, some b => decide (a < b)
  | _, none => false

/-- The controller timezone must be known; workstation local time is never
substituted. -/
def SchedulePolicy.evaluate (host : Host) (obs : Observation) (settings : Settings)
    (now : Time) : Evaluation :=
  match obs.data with
  | .schedule s =>
      if s.suspended || obs.inactive then result .expectedInactive
      else if 0 < s.active && s.forbidOverlap then result .unknown
      else if optionLt s.lastSuccess s.lastSchedule
          && (s.lastSchedule.any fun t =>
            numSeconds now t > settings.rolloutGrace.seconds)
          && s.active == 0 then
        fault obs "latest-schedule-not-successful" .warning .correlated
      else
        let grace := max settings.rolloutGrace.seconds
          (min (s.startingDeadlineSeconds.getD 0) 86400)
        let due := (checkedSub now grace).bind fun cutoff =>
          host.previousOccurrence s.schedule s.timezone cutoff
        match due with
        | none => result .unknown
        | some due =>
            if s.createdAt.any fun created => due < created then result .unknown
            else if s.lastSchedule.all fun t => t < due then
              if s.createdAt.isNone && s.lastSchedule.isNone then result .unknown
              else fault obs "schedule-missed" .warning .correlated
            else if s.lastSuccess.any fun t => due ≤ t then result .healthy
            else result .unknown
  | _ => result .unknown

/-! ## Service level objectives -/

/-- Compliance is a long-term objective; urgent burn thresholds require
explicit configuration. -/
def SloPolicy.evaluate (obs : Observation) (settings : Settings) : Evaluation :=
  match obs.data with
  | .slo s =>
      if obs.inactive then result .expectedInactive
      else if !s.goal.isFinite || s.goal.le (Reading.ofNat 0)
          || (Reading.ofNat 1).lt s.goal
          || s.compliance.any fun c =>
            !c.isFinite || !((Reading.ofNat 0).le c && c.le (Reading.ofNat 1)) then
        result .unknown
      else if settings.sloBurnRateError.any fun threshold =>
          s.burnRate.any fun rate => rate.isFinite && threshold.le rate then
        fault obs "slo-burn-rate" .error .direct
      else if s.compliance.any (fun c => c.lt s.goal)
          || s.budget.any fun b => b.isFinite && b.lt (Reading.ofNat 0) then
        fault obs "slo-compliance" .warning .direct
      else result (if s.compliance.isSome then .healthy else .unknown)
  | _ => result .unknown

/-! ## Synchronization -/

/-- ExternalSecret readiness and periodic refresh freshness are separate
conditions. -/
def Synchronization.evaluate (obs : Observation) (settings : Settings) (now : Time) :
    Evaluation :=
  match obs.data with
  | .synchronization ready lastSync intervalSeconds =>
      if obs.inactive then result .expectedInactive
      else if ready == some false then
        fault obs "externalsecrets-not-ready" .error .direct
      else if ready != some true then result .unknown
      else
        match intervalSeconds with
        | none => result .healthy
        | some interval =>
            match lastSync with
            | none => result .unknown
            | some last =>
                let age := numSeconds now last
                if age < 0 then result .unknown
                else if age.toNat > interval * 2 + settings.operationTimeout.seconds then
                  fault obs "externalsecret-sync-stale" .warning .direct
                else result .healthy
  | _ => result .unknown

/-! ## Releases -/

/-- Evaluate conformance without turning deployment drift into an availability
outage. -/
def Releases.evaluate (obs : Observation) (now : Time) : Evaluation :=
  match obs.data with
  | .provenance p =>
      if p.validUntil < now then result .unknown
      else if obs.inactive then result .expectedInactive
      else if p.mismatch then
        fault obs "release-revision-mismatch" .warning .correlated
      else if p.registryVerified && p.buildVerified && p.commitVerified then
        result .healthy
      else result .unknown
  | _ => result .unknown

/-! ## The policy engine -/

namespace Policy

/-- The previous observation, where restarts and queue samples may be compared
with it. -/
def comparable (obs : Observation) (previous : Option Observation)
    (settings : Settings) : Option Observation :=
  previous.filter fun prior =>
    prior.resource == obs.resource && prior.expected == obs.expected
      && prior.observedAt < obs.observedAt
      && numSeconds obs.observedAt prior.observedAt ≤ settings.freshness

def evaluateJob (obs : Observation) (run : JobRun) (settings : Settings) (now : Time) :
    Evaluation :=
  if run.complete && run.failed then result .unknown
  else if run.complete then result .healthy
  else if run.failed && !obs.inactive
      && ageNoneOr run.createdAt now (· ≤ settings.runtimeWindow.seconds) then
    error obs "job-failed"
  else result (if obs.inactive then .expectedInactive else .unknown)

def evaluateWorkload (obs : Observation) (w : Workload) (settings : Settings)
    (now : Time) : Evaluation :=
  if w.draining || w.desired == 0 then result .expectedInactive
  else if w.ready < w.desired then
    let grace := if w.node then settings.nodeGrace else settings.rolloutGrace
    if ageSome w.createdAt now (· < grace.seconds) then result .unknown
    else if obs.inactive then result .expectedInactive
    else error obs (if w.node then "node-not-ready" else "replicas-not-ready")
  else result .healthy

/-- Restarts since the previous observation of the same container. -/
def restarted (previous : Option Observation) (pod : Pod) : Bool :=
  previous.any fun prior =>
    match prior.data with
    | .pod old =>
        pod.uid == old.uid && pod.container == old.container
          && 3 ≤ pod.restarts - old.restarts
    | _ => false

def evaluatePod (obs : Observation) (previous : Option Observation) (pod : Pod)
    (settings : Settings) (now : Time) : Evaluation :=
  if obs.inactive then result .expectedInactive
  else if pod.crashLoop then error obs "container-crash-loop"
  else if !pod.ready
      && ageNoneOr pod.createdAt now (settings.rolloutGrace.seconds ≤ ·) then
    error obs "pod-not-ready"
  else if restarted previous pod then warning obs "container-restarting"
  else if !pod.ready then result .unknown
  else result .healthy

def evaluateCertificate (obs : Observation) (issued : Option Bool)
    (expiresAt : Option Time) (settings : Settings) (now : Time) : Evaluation :=
  if obs.inactive then result .expectedInactive
  else if issued == some false || expiresAt.any (· ≤ now) then
    error obs "certificate-invalid"
  else if expiresAt.any fun t =>
      numSeconds t now < settings.certificateWarning.seconds then
    warning obs "certificate-expiring"
  else if issued.isNone || expiresAt.isNone then result .unknown
  else result .healthy

def evaluateRecovery (obs : Observation) (recovery : Recovery) (settings : Settings)
    (now : Time) : Evaluation :=
  if obs.inactive then result .expectedInactive
  else if recovery.enabled == some false then warning obs "backup-disabled"
  else if recovery.state == .failed then warning obs "backup-failed"
  else
    match settings.recoveryAgeError with
    | some limit =>
        if recovery.lastSuccess.any fun t => numSeconds now t > limit.seconds then
          error obs "recovery-point-too-old"
        else if recovery.lastSuccess.isSome then result .healthy
        else result .unknown
    | none => result .unknown

def evaluateBuild (obs : Observation) (build : Build) (settings : Settings)
    (now : Time) : Evaluation :=
  if build.state == .failed && !build.superseded then
    if build.createdAt.isNone then result .unknown
    else if ageSome build.createdAt now (settings.runtimeWindow.seconds < ·) then
      result .expectedInactive
    else warning obs (if build.target = "" then "build-failed" else "deployment-blocked")
  else if build.state == .ready || build.superseded then result .healthy
  else result .unknown

def evaluateLog (obs : Observation) (log : Log) : Evaluation :=
  if log.signature != .warning && 0 < log.count then
    warning obs "runtime-failure-sample"
  else if log.count == 0 && !log.sampled then result .healthy
  else result .unknown

/-- Freshness gates recovery. Job terminal conditions always precede attempt
counters. -/
def evaluate (host : Host) (obs : Observation) (previous : Option Observation)
    (settings : Settings) (now : Time) : Evaluation :=
  if ageNoneOr (some obs.observedAt) now (settings.freshness < ·) then result .unknown
  else
    let previous := comparable obs previous settings
    match obs.data with
    | .synchronization .. => Synchronization.evaluate obs settings now
    | .provenance _ => Releases.evaluate obs now
    | .slo _ => SloPolicy.evaluate obs settings
    | .progress .unhealthy => fault obs "flow-stalled" .error .correlated
    | .progress state => result state
    | .endpoint _ => EndpointPolicy.evaluate obs settings now
    | .job run => evaluateJob obs run settings now
    | .workload w => evaluateWorkload obs w settings now
    | .pod pod => evaluatePod obs previous pod settings now
    | .schedule _ => SchedulePolicy.evaluate host obs settings now
    | .certificate issued expiresAt => evaluateCertificate obs issued expiresAt settings now
    | .recovery recovery => evaluateRecovery obs recovery settings now
    | .queue _ => QueuePolicy.evaluate obs previous settings
    | .service _ => ResourcePolicy.evaluate obs settings
    | .metric _ => ResourcePolicy.evaluate obs settings
    | .build build => evaluateBuild obs build settings now
    | .log log => evaluateLog obs log
    | .condition rule healthy =>
        match healthy with
        | some false => error obs rule
        | none => result .unknown
        | some true => result .healthy
    | .identity _ => result .healthy
    | _ => result .unknown

end Policy

/-! ## Every policy returns a verdict -/

section Verdict

variable {host : Host} {obs : Observation} {previous : Option Observation}
  {settings : Settings} {now : Time}

open Evaluation (Verdict)

theorem Evaluation.Verdict.ite {p : Prop} [Decidable p] {a b : Evaluation}
    (ha : Verdict obs a) (hb : Verdict obs b) : Verdict obs (if p then a else b) := by
  split
  · exact ha
  · exact hb

theorem EndpointPolicy.evaluate_verdict :
    Verdict obs (EndpointPolicy.evaluate obs settings now) := by
  unfold EndpointPolicy.evaluate
  split
  · exact .ite (.ite (.result _) (.error ..)) (.ite (.warning ..) (.ite (.error ..) (.result _)))
  · exact .result _

theorem ResourcePolicy.evaluate_verdict :
    Verdict obs (ResourcePolicy.evaluate obs settings) := by
  unfold ResourcePolicy.evaluate
  split
  · rename_i service _
    unfold ResourcePolicy.evaluateService
    refine .ite (.result _) ?_
    cases service.state with
    | failed => exact .error ..
    | stopped => exact .error ..
    | starting => exact .result _
    | unknown => exact .result _
    | ready => exact .ite (.warning ..) (.ite (.warning ..) (.result _))
  · unfold ResourcePolicy.evaluateMetric
    exact .ite (.result _) (.ite (.result _) (.ite (.result _) (.ite (.result _)
      (.ite (.error ..) (.ite (.warning ..) (.result _))))))
  · exact .result _

theorem QueuePolicy.evaluate_verdict :
    Verdict obs (QueuePolicy.evaluate obs previous settings) := by
  unfold QueuePolicy.evaluate
  split
  · refine .ite (.result _) (.ite (.result _) (.ite (.warning ..) (.ite ?_ (.result _))))
    exact .ite (.error ..) (.ite (.error ..) (.ite (.error ..)
      (.ite (.ite (.fault ..) (.result _)) (.result _))))
  · exact .result _

theorem SchedulePolicy.evaluate_verdict :
    Verdict obs (SchedulePolicy.evaluate host obs settings now) := by
  unfold SchedulePolicy.evaluate
  split
  · refine .ite (.result _) (.ite (.result _) (.ite (.fault ..) ?_))
    dsimp only
    split
    · exact .result _
    · exact .ite (.result _) (.ite (.ite (.result _) (.fault ..))
        (.ite (.result _) (.result _)))
  · exact .result _

theorem SloPolicy.evaluate_verdict :
    Verdict obs (SloPolicy.evaluate obs settings) := by
  unfold SloPolicy.evaluate
  split
  · exact .ite (.result _) (.ite (.result _) (.ite (.fault ..)
      (.ite (.fault ..) (.result _))))
  · exact .result _

theorem Synchronization.evaluate_verdict :
    Verdict obs (Synchronization.evaluate obs settings now) := by
  unfold Synchronization.evaluate
  split
  · refine .ite (.result _) (.ite (.fault ..) (.ite (.result _) ?_))
    split
    · exact .result _
    · split
      · exact .result _
      · exact .ite (.result _) (.ite (.fault ..) (.result _))
  · exact .result _

theorem Releases.evaluate_verdict : Verdict obs (Releases.evaluate obs now) := by
  unfold Releases.evaluate
  split
  · exact .ite (.result _) (.ite (.result _) (.ite (.fault ..)
      (.ite (.result _) (.result _))))
  · exact .result _

theorem Policy.evaluateJob_verdict {run : JobRun} :
    Verdict obs (evaluateJob obs run settings now) :=
  .ite (.result _) (.ite (.result _) (.ite (.error ..) (.result _)))

theorem Policy.evaluateWorkload_verdict {w : Workload} :
    Verdict obs (evaluateWorkload obs w settings now) :=
  .ite (.result _) (.ite (.ite (.result _) (.ite (.result _) (.error ..))) (.result _))

theorem Policy.evaluatePod_verdict {pod : Pod} :
    Verdict obs (evaluatePod obs previous pod settings now) :=
  .ite (.result _) (.ite (.error ..) (.ite (.error ..) (.ite (.warning ..)
    (.ite (.result _) (.result _)))))

theorem Policy.evaluateCertificate_verdict {issued : Option Bool}
    {expiresAt : Option Time} :
    Verdict obs (evaluateCertificate obs issued expiresAt settings now) :=
  .ite (.result _) (.ite (.error ..) (.ite (.warning ..)
    (.ite (.result _) (.result _))))

theorem Policy.evaluateRecovery_verdict {recovery : Recovery} :
    Verdict obs (evaluateRecovery obs recovery settings now) := by
  unfold evaluateRecovery
  refine .ite (.result _) (.ite (.warning ..) (.ite (.warning ..) ?_))
  cases settings.recoveryAgeError with
  | none => exact .result _
  | some limit => exact .ite (.error ..) (.ite (.result _) (.result _))

theorem Policy.evaluateBuild_verdict {build : Build} :
    Verdict obs (evaluateBuild obs build settings now) :=
  .ite (.ite (.result _) (.ite (.result _) (.warning ..)))
    (.ite (.result _) (.result _))

theorem Policy.evaluateLog_verdict {log : Log} : Verdict obs (evaluateLog obs log) :=
  .ite (.warning ..) (.ite (.result _) (.result _))

/-- The policy engine states a health or reports one fault of the observation
it was given. -/
theorem Policy.evaluate_verdict :
    Verdict obs (evaluate host obs previous settings now) := by
  unfold evaluate
  refine .ite (.result _) ?_
  dsimp only
  split
  case h_1 => exact Synchronization.evaluate_verdict
  case h_2 => exact Releases.evaluate_verdict
  case h_3 => exact SloPolicy.evaluate_verdict
  case h_4 => exact .fault ..
  case h_5 => exact .result _
  case h_6 => exact EndpointPolicy.evaluate_verdict
  case h_7 => exact evaluateJob_verdict
  case h_8 => exact evaluateWorkload_verdict
  case h_9 => exact evaluatePod_verdict
  case h_10 => exact SchedulePolicy.evaluate_verdict
  case h_11 => exact evaluateCertificate_verdict
  case h_12 => exact evaluateRecovery_verdict
  case h_13 => exact QueuePolicy.evaluate_verdict
  case h_14 => exact ResourcePolicy.evaluate_verdict
  case h_15 => exact ResourcePolicy.evaluate_verdict
  case h_16 => exact evaluateBuild_verdict
  case h_17 => exact evaluateLog_verdict
  case h_18 =>
      split
      · exact .error ..
      · exact .result _
      · exact .result _
  case h_19 => exact .result _
  case h_20 => exact .result _

end Verdict

end HealthMonitor
