import HealthMonitor.Core.Units
import HealthMonitor.Query.Record

/-!
# Filter

Explicit time windows and scope filters, and how they match a record in memory.
-/

namespace HealthMonitor.Query

/-- Invalid requests and records. -/
inductive Error where
  | filter | cursor | record
  deriving DecidableEq, Repr

/-- `char::is_control`. -/
def isControl (c : Char) : Bool :=
  c.toNat < 32 || (127 ≤ c.toNat && c.toNat < 160)

structure Filter where
  target : Option String := none
  provider : Option Provider := none
  scope : Option String := none
  project : Option String := none
  account : Option String := none
  subscription : Option String := none
  region : Option String := none
  cluster : Option String := none
  «namespace» : Option String := none
  service : Option String := none
  check : Option Check := none
  resource : Option String := none
  hostname : Option String := none
  severity : Option Severity := none
  state : Option FindingState := none
  q : Option String := none
  start : Option Time := none
  stop : Option Time := none
  lookbackSeconds : Option Nat := none
  cursor : Option String := none
  limit : Option Nat := none
  deriving DecidableEq, Repr

/-- From an instant, up to an instant that is no longer part of it. -/
structure Window where
  start : Time
  stop : Time
  deriving DecidableEq, Repr

/-! ## Deployments -/

structure Deployment where
  deployedAt : Time
  windowSeconds : Option Nat := none
  expectedRevision : Option String := none
  expectedDigest : Option String := none
  filter : Filter
  deriving DecidableEq, Repr

namespace Deployment

def expectations (query : Deployment) : List String :=
  query.expectedRevision.toList ++ query.expectedDigest.toList

/-- The assessment window. It depends on nothing but the request, and the baseline of the
same length before it must be representable too. -/
def window (query : Deployment) : Except Error Window :=
  let seconds := query.windowSeconds.getD 300
  if !(60 ≤ seconds && seconds ≤ 86400)
      || query.filter.severity.isSome || query.filter.state.isSome || query.filter.q.isSome
      || query.filter.start.isSome || query.filter.stop.isSome
      || query.filter.lookbackSeconds.isSome || query.filter.cursor.isSome
      || query.filter.target.isNone && query.filter.resource.isNone
        && query.filter.scope.isNone && query.filter.project.isNone
        && query.filter.account.isNone && query.filter.subscription.isNone then
    .error .filter
  else if query.expectations.any fun value =>
      value == "" || 512 < value.utf8ByteSize || value.toList.any isControl then
    .error .filter
  else
    match checkedSub query.deployedAt seconds with
    | none => .error .filter
    | some _ =>
      match checkedAdd query.deployedAt seconds with
      | none => .error .filter
      | some stop => .ok { start := query.deployedAt, stop }

end Deployment

/-! ## Matching in memory -/

namespace Matching

def scope (filter : Filter) (scope : Scope) (location : Location) : Bool :=
  filter.target.all (· == scope.target)
    && filter.provider.all (· == scope.provider)
    && filter.scope.all (· == scope.scope)
    && filter.region.all (some · == location.region)
    && filter.cluster.all (some · == location.cluster)
    && filter.namespace.all (some · == location.namespace)
    && filter.service.all (some · == location.service)
    && filter.hostname.all (some · == location.hostname)

/-- `search` says whether a free text occurs in the identity or the details of the
record. -/
def record (search : String → Record → Bool) (filter : Filter) (record : Record) : Bool :=
  scope filter record.scope record.location
    && filter.check.all (some · == record.check)
    && filter.resource.all (some · == record.resource)
    && filter.severity.all (some · == record.severity)
    && filter.state.all (some · == record.state)
    && filter.q.all (search · record)

def overlaps (record : Record) (window : Window) : Bool :=
  record.observedAt < window.stop
    && (window.start ≤ record.lastObservedAt
      || record.category == .finding && record.closedAt.all (window.start ≤ ·))

end Matching

end HealthMonitor.Query
