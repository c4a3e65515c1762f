import HealthMonitor.Core.Merging
import HealthMonitor.Integrations.LogWindow
import HealthMonitor.Library.JsonValue

/-!
# Endpoint

Read-operation descriptors, the values they are answered with, and what a scan of one of
them leaves behind.
-/

namespace HealthMonitor.Providers

open Json
open Integrations (TransportError)

structure Endpoint where
  id : String
  url : String
  items : String
  body : Option Value := none
  /-- Service, region and action of a signed request. -/
  aws : Option (String × String × String) := none

/-- Request bodies are included in bounded queue accounting. -/
def Endpoint.bytes (endpoint : Endpoint) : Nat :=
  let body := (endpoint.body.map fun body => body.write.utf8ByteSize).getD 0
  let signing :=
    (endpoint.aws.map fun (service, region, action) =>
      service.utf8ByteSize + region.utf8ByteSize + action.utf8ByteSize).getD 0
  let plain := saturatingAdd (saturatingAdd (saturatingAdd (saturatingAdd body signing)
    endpoint.id.utf8ByteSize) endpoint.url.utf8ByteSize) endpoint.items.utf8ByteSize
  saturatingAdd (saturatingMul plain 4) 512

/-- The result of a scan with the endpoints it led to. A scan always says what became of
it. -/
structure Fetched where
  result : CheckResult
  followups : List Endpoint
  reported : result.operations ≠ []

/-- A result that has nothing to report yet. -/
def base (job : Job) (clock : Time) : CheckResult :=
  { CheckResult.failure job.target.name job.check job.revision .missing clock with
    operations := [] }

def operation (id : String) (result : Except TransportError Nat) (pages : Nat) (required : Bool)
    (clock : Time) : Operation where
  id
  coverage := match result with
    | .ok _ => .complete
    | .error error => error.coverage
  observedAt := clock
  records := match result with
    | .ok records => records
    | .error _ => 0
  pages
  required

/-- How much may wait for its turn in one collection. -/
def queueLimit (job : Job) : Nat := job.settings.memoryBytes / 4 / max job.settings.concurrency 1

/-! ## Reading payloads -/

/-- The first path that holds a text. -/
def text (value : Value) (paths : List String) : Option String :=
  paths.findSome? fun path => (value.pointer path).bind Value.asStr

def parseBool (s : String) : Option Bool :=
  if s = "true" then some true else if s = "false" then some false else none

/-- The first path that holds a truth value, or its name. -/
def boolean (value : Value) (paths : List String) : Option Bool :=
  paths.findSome? fun path =>
    (value.pointer path).bind fun v => v.asBool.or (v.asStr.bind parseBool)

/-- Lists, and the aggregated lists of `/items`. -/
def rows (payload : Value) (path : String) : List Value :=
  match payload.pointer path with
  | some (.array values) => values
  | some (.object fields) =>
      if path = "/items" then
        (fields.filterMap fun field => field.2.asObject).flatten.flatMap fun field =>
          field.2.asArray.getD []
      else [.object fields]
  | _ => []

end HealthMonitor.Providers
