import HealthMonitor.Core.Model

/-!
# Record

Compact diagnostic projections: metadata and measurements of findings, diagnostic
windows, checks and releases. The query vocabulary repeats the closed vocabularies of
the model; only the provider has one more case.
-/

namespace HealthMonitor.Query

inductive Provider where
  | gcp | aws | azure | kubernetes | github | edge | nats | unknown
  deriving DecidableEq, Repr

inductive Category where
  | finding | diagnostic | check | release
  deriving DecidableEq, Repr

inductive FindingState where
  | active | recovered | removed
  deriving DecidableEq, Repr

structure Scope where
  target : String
  provider : Provider
  scope : String
  deriving DecidableEq, Repr

structure Location where
  nativeId : Option String := none
  region : Option String := none
  zone : Option String := none
  cluster : Option String := none
  «namespace» : Option String := none
  service : Option String := none
  hostname : Option String := none
  uid : Option String := none
  container : Option String := none
  deriving DecidableEq, Repr

structure Fact where
  label : String
  value : String
  deriving DecidableEq, Repr

structure Link where
  label : String
  url : String
  deriving DecidableEq, Repr

structure Operation where
  name : String
  coverage : Coverage
  required : Bool
  observedAt : Time
  deriving DecidableEq, Repr

structure FindingDetails where
  rule : String
  severity : Severity
  state : FindingState
  firstDetectedAt : Option Time
  expected : Expected
  confidence : Confidence
  facts : List Fact
  links : List Link
  legacy : Bool
  deriving DecidableEq, Repr

structure DiagnosticDetails where
  signature : LogClass
  count : Nat
  firstSeen : Time
  lastSeen : Time
  windowStart : Time
  windowEnd : Time
  sampled : Bool
  scanned : Nat
  duplicates : Nat
  complete : Bool
  gapSeconds : Nat
  links : List Link
  deriving DecidableEq, Repr

structure CheckDetails where
  required : Bool
  startedAt : Time
  finishedAt : Time
  oldestObservationAt : Option Time
  complete : Bool
  observations : Nat
  intervalSeconds : Nat
  requiredFailures : Nat
  pendingObservations : Nat
  operations : List Operation
  operationsTruncated : Bool
  deriving DecidableEq, Repr

structure ReleaseDetails where
  revision : Option String
  observedDigests : List String
  desiredDigest : Option String
  pending : Bool
  verified : Bool
  facts : List Fact
  links : List Link
  deriving DecidableEq, Repr

inductive Details where
  | finding (finding : FindingDetails)
  | diagnostic (diagnostic : DiagnosticDetails)
  | check (check : CheckDetails)
  | release (release : ReleaseDetails)
  deriving DecidableEq, Repr

structure Record where
  id : String
  identity : String
  scope : Scope
  location : Location
  check : Option Check
  resource : Option String
  observedAt : Time
  lastObservedAt : Time
  validUntil : Option Time
  closedAt : Option Time
  stale : Bool
  details : Details
  deriving DecidableEq, Repr

namespace Record

def category (record : Record) : Category :=
  match record.details with
  | .finding _ => .finding
  | .diagnostic _ => .diagnostic
  | .check _ => .check
  | .release _ => .release

def severity (record : Record) : Option Severity :=
  match record.details with
  | .finding finding => some finding.severity
  | _ => none

def state (record : Record) : Option FindingState :=
  match record.details with
  | .finding finding => some finding.state
  | _ => none

end Record

end HealthMonitor.Query
