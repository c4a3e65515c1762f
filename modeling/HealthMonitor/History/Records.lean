import HealthMonitor.History.Rows

/-!
# Records

A query record as the ledger keeps it: the projection of an observation under the key
it is upserted by, checked before it is admitted. Keys and fingerprints are digests
of serialised values. Serialisation itself is a parameter: `Encoding` gives the digest
of each kind of value that is digested, and the length of a serialised record.
-/

namespace HealthMonitor.History

open Query

/-- The values digests are taken of: a whole observation, the content of a version, and
a version together with the time it starts. -/
inductive Digested (δ : Type) where
  | observation (category : Category) (identity : String) (observedAt : Time)
      (details : Details)
  | content (scope : Scope) (location : Location) (check : Option Check)
      (resource : Option String) (stale : Bool) (details : Details)
  | version (identity : String) (fingerprint : δ) (time : Time)
  deriving DecidableEq

structure Encoding (δ : Type) where
  digest : Digested δ → δ
  size : Record → Nat

structure QueryRecord (δ : Type) where
  key : δ
  record : Record
  deriving DecidableEq

def factTexts (fact : Fact) : List String := [fact.label, fact.value]

def linkTexts (link : Link) : List String := [link.label, link.url]

/-- The free texts of the details. Enumerations and timestamps serialise to texts that
are always within the bounds. -/
def detailTexts : Details → List String
  | .finding finding =>
      finding.rule :: (finding.facts.flatMap factTexts ++ finding.links.flatMap linkTexts)
  | .diagnostic diagnostic => diagnostic.links.flatMap linkTexts
  | .check check => check.operations.map (·.name)
  | .release release =>
      release.revision.toList ++ release.observedDigests ++ release.desiredDigest.toList
        ++ release.facts.flatMap factTexts ++ release.links.flatMap linkTexts

/-- The lengths of the arrays of the details. -/
def detailWidths : Details → List Nat
  | .finding finding => [finding.facts.length, finding.links.length]
  | .diagnostic diagnostic => [diagnostic.links.length]
  | .check check => [check.operations.length]
  | .release release =>
      [release.observedDigests.length, release.facts.length, release.links.length]

def locationTexts (location : Location) : List String :=
  [location.nativeId, location.region, location.zone, location.cluster, location.namespace,
    location.service, location.hostname, location.uid, location.container].flatMap
      Option.toList

def recordTexts (record : Record) : List String :=
  [record.id, record.identity, record.scope.target, record.scope.scope]
    ++ locationTexts record.location ++ record.resource.toList ++ detailTexts record.details

/-- `bounded` on the serialised record. -/
def bounded (record : Record) : Bool :=
  (recordTexts record).all (fun s => s.utf8ByteSize ≤ 4096 && !s.toList.any isControl)
    && (detailWidths record.details).all (· ≤ 256)

/-- `validate`. Every check it fails reports the same error. -/
def validate (size : Record → Nat) (record : Record) : Except Error Unit :=
  if isName record.scope.target && isResource record.scope.scope
      && isResource record.identity
      && [record.resource, record.location.region, record.location.cluster,
        record.location.namespace, record.location.service].all
          (·.all fun value => isResource value && value.utf8ByteSize ≤ 2048)
      && record.location.hostname.all (fun s => s ≠ "" && s.utf8ByteSize ≤ 253)
      && record.observedAt ≤ record.lastObservedAt
      && bounded record && size record ≤ 16384 then
    .ok ()
  else .error .record

def QueryRecord.new {δ : Type} (size : Record → Nat) (key : δ) (record : Record) :
    Except Error (QueryRecord δ) :=
  match validate size record with
  | .error error => .error error
  | .ok () => .ok { key, record }

theorem QueryRecord.new_ok {δ : Type} {size : Record → Nat} {key : δ} {record : Record}
    {row : QueryRecord δ} (h : QueryRecord.new size key record = .ok row) :
    validate size record = .ok () ∧ row = ⟨key, record⟩ := by
  unfold QueryRecord.new at h
  cases hvalid : validate size record with
  | error error =>
      rw [hvalid] at h
      cases h
  | ok _ =>
      rw [hvalid] at h
      cases h
      exact ⟨rfl, rfl⟩

end HealthMonitor.History
