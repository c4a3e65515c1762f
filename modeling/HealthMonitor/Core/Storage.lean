import HealthMonitor.Core.Config
import HealthMonitor.Library.Calendar
import HealthMonitor.Library.Faulty
import HealthMonitor.Library.Listing
import HealthMonitor.Library.Text
import Mathlib.Data.String.Basic

/-!
# Storage

The snapshot store: owner-only atomic snapshots and bounded history in one
directory. Every file-system call is a step that may fail or be the last one
before the process stops; a call that writes may then have got part of the way.
Texts and bytes produced by the encoders, and the reader of the stamp in a file
name, are parameters.
-/

namespace HealthMonitor.Storage

open Faulty

abbrev Bytes := List UInt8

inductive Error where
  | evidence
  | locked
  | io
  deriving DecidableEq, Repr

/-- A directory entry. A link carries the length `metadata` reports of what it
leads to. -/
inductive Node where
  | file (bytes : Bytes) (modified : Time)
  | directory (length : Nat)
  | symlink (target : Option Nat)
  deriving DecidableEq, Repr

/-- `fs::metadata(path)?.len()`, which follows links. -/
def Node.metadata : Node → Except Error Nat
  | .file bytes _ => .ok bytes.length
  | .directory length => .ok length
  | .symlink (some length) => .ok length
  | .symlink none => .error .io

def Node.isFile : Node → Bool
  | .file .. => true
  | _ => false

abbrev Directory := Listing Node

abbrev Action (α : Type) := Program Directory Error α

/-! ## Steps -/

/-- A call that leaves the directory as it is. -/
def call (fault : Error) : Action Unit :=
  Faulty.read fault fun _ => .ok ()

def readDir : Action (List (String × Node)) :=
  Faulty.read .io fun d => .ok d.entries

/-- `fs::metadata(path).ok().map(len)`, nothing counting as zero. -/
def measure (name : String) : Action Nat := do
  match ← attempt (Faulty.read .io fun d => ((d.get name).map Node.metadata).getD (.error .io)) with
  | .ok length => return length
  | .error _ => return 0

def rejectSymlink (name : String) : Action Unit :=
  Faulty.read .io fun d =>
    match d.get name with
    | some (.symlink _) => .error .evidence
    | _ => .ok ()

/-- `OpenOptions::new().write(true).create(true).truncate(true).open(path)`. -/
def createTruncated (name : String) : Action Unit :=
  step
    { act := fun pick d =>
        match d.get name with
        | some (.file _ _) => .ok ((), d.put pick name (.file [] pick))
        | none => .ok ((), d.put pick name (.file [] pick))
        | some _ => .error .io
      torn := fun torn d =>
        match torn, d.get name with
        | place + 1, some (.file _ _) => d.put place name (.file [] place)
        | place + 1, none => d.put place name (.file [] place)
        | _, _ => d
      fault := .io }

/-- `file.write_all(bytes)`: broken off, any initial part may have been written. -/
def writeAll (name : String) (bytes : Bytes) : Action Unit :=
  step
    { act := fun pick d => .ok ((), d.put pick name (.file bytes pick))
      torn := fun torn d => d.put torn name (.file (bytes.take torn) torn)
      fault := .io }

def moved (place : Nat) (source target : String) (d : Directory) : Except Error Directory :=
  match d.get source, d.get target with
  | some _, some (.directory _) => .error .io
  | some node, _ => .ok ((d.erase source).put place target node)
  | none, _ => .error .io

/-- `fs::rename`, which is atomic: done or not, however it ends. -/
def rename (source target : String) : Action Unit :=
  step
    { act := fun pick d => (moved pick source target d).map ((), ·)
      torn := fun torn d =>
        match torn, moved torn source target d with
        | _ + 1, .ok d' => d'
        | _, _ => d
      fault := .io }

def removeFile (name : String) : Action Unit :=
  step
    { act := fun _ d =>
        match d.get name with
        | some (.directory _) => .error .io
        | some _ => .ok ((), d.erase name)
        | none => .error .io
      torn := fun torn d =>
        match torn, d.get name with
        | _ + 1, some (.file _ _) => d.erase name
        | _ + 1, some (.symlink _) => d.erase name
        | _, _ => d
      fault := .io }

/-! ## Names -/

def latestName : String := "monitor-latest.json"
def reportName : String := "monitor-report.md"
def lockName : String := "monitor.lock"

/-- `snapshot.captured_at.format("%Y%m%dT%H%M%S%.9fZ")`. -/
def stamp (captured : Time) : String :=
  String.ofList (Calendar.compact (captured / nanosPerSecond) ++
    '.' :: Calendar.digits 9 (captured % nanosPerSecond).toNat ++ ['Z'])

def snapshotName (captured : Time) : String := "monitor-snapshot-" ++ stamp captured ++ ".json"

def eventsName (captured : Time) : String := "monitor-events-" ++ stamp captured ++ ".ndjson"

def temporary (name : String) : String := "." ++ name ++ ".tmp"

section

variable (parses : String → Bool)

/-- Whether the name is one of a history file, and if so whether of a snapshot. -/
def owned (name : String) : Option Bool :=
  match (Text.stripPrefix name "monitor-snapshot-").bind (Text.stripSuffix · ".json") with
  | some stamp => if parses stamp then some true else none
  | none =>
      match (Text.stripPrefix name "monitor-events-").bind (Text.stripSuffix · ".ndjson") with
      | some stamp => if parses stamp then some false else none
      | none => none

/-- The file `name` is the temporary of, when that is one the monitor writes. -/
def leftover (name : String) : Bool :=
  match (Text.stripPrefix name ".").bind (Text.stripSuffix · ".tmp") with
  | some base => base == latestName || base == reportName || (owned parses base).isSome
  | none => false

/-! ## Opening -/

/-- The body of the loop that clears interrupted temporaries. -/
def removeLeftover (_ : Unit) (entry : String × Node) : Action Unit := do
  call .io
  if leftover parses entry.1 then
    rejectSymlink entry.1
    call .io
    if entry.2.isFile then removeFile entry.1 else pure ()
  else pure ()

def openLock : Action Unit :=
  step
    { act := fun pick d =>
        match d.get lockName with
        | some (.directory _) => .error .io
        | some _ => .ok ((), d)
        | none => .ok ((), d.put pick lockName (.file [] pick))
      torn := fun torn d =>
        match torn, d.get lockName with
        | place + 1, none => d.put place lockName (.file [] place)
        | _, _ => d
      fault := .io }

/-- `Store::open`; `linked` says that the path of the store is itself a link. -/
def openStore (linked : Bool) : Action Unit := do
  call .io
  call .io
  if linked then
    raise .evidence
  else
    call .io
    rejectSymlink lockName
    openLock
    call .io
    call .locked
    let entries ← readDir
    loop (removeLeftover parses) entries ()

end

/-- Write a temporary and move it over the file; what is left of a failed
attempt is removed if it can be. -/
def atomic (name : String) (bytes : Bytes) : Action Unit := do
  let temp := temporary name
  rejectSymlink name
  rejectSymlink temp
  let outcome ← attempt do
    createTruncated temp
    call .io
    writeAll temp bytes
    call .io
    rename temp name
    call .io
    call .io
  match outcome with
  | .ok () => return ()
  | .error error =>
      let _ ← attempt (removeFile temp)
      raise error

/-- `if !bytes.is_empty() { self.atomic(name, bytes)?; }`. -/
def atomicNonempty (name : String) (bytes : Bytes) : Action Unit :=
  if bytes.isEmpty then pure () else atomic name bytes

/-! ## Retention -/

/-- A history file as retention looks at it. -/
structure Candidate where
  stamp : String
  name : String
  size : Nat
  snapshot : Bool
  modified : Time
  deriving DecidableEq, Repr

/-- The order history is sorted by. -/
def Candidate.precedes (a b : Candidate) : Prop := a.stamp ≤ b.stamp

instance : DecidableRel Candidate.precedes :=
  fun a b => inferInstanceAs (Decidable (a.stamp ≤ b.stamp))

/-- `text.trim_start_matches(pattern)`. -/
def trimStartMatches (pattern : String) : Nat → String → String
  | 0, text => text
  | fuel + 1, text =>
      match Text.stripPrefix text pattern with
      | some rest => trimStartMatches pattern fuel rest
      | none => text

/-- The sort key of a history file: its stamp up to the first point. -/
def sortKey (name : String) : String :=
  let rest := trimStartMatches "monitor-snapshot-" name.length name
  Text.head (trimStartMatches "monitor-events-" rest.length rest) '.'

structure Gathered where
  files : List Candidate := []
  bytes : Nat

/-- What is left to the limits while history is pruned. -/
structure Usage where
  bytes : Nat
  count : Nat
  deriving DecidableEq, Repr

/-- `now.duration_since(modified).unwrap_or_default()`. -/
def age (now modified : Time) : Time := if now < modified then 0 else now - modified

def exceeds (settings : Settings) (now : Time) (usage : Usage) (file : Candidate) : Bool :=
  decide (settings.historyBytes < usage.bytes) || decide (settings.historyCount < usage.count) ||
    decide (settings.historyAge.seconds * nanosPerSecond < age now file.modified)

def Usage.without (usage : Usage) (file : Candidate) : Usage :=
  { bytes := usage.bytes - file.size
    count := if file.snapshot then usage.count - 1 else usage.count }

def prune (settings : Settings) (now : Time) (usage : Usage) (file : Candidate) :
    Action Usage :=
  if exceeds settings now usage file then do
    removeFile file.name
    return usage.without file
  else return usage

section

variable (parses : String → Bool)

def gather (gathered : Gathered) (entry : String × Node) : Action Gathered := do
  call .io
  match owned parses entry.1 with
  | none => return gathered
  | some snapshot =>
      call .io
      match entry.2 with
      | .file bytes modified =>
          call .io
          let file : Candidate :=
            { stamp := sortKey entry.1, name := entry.1, size := bytes.length, snapshot, modified }
          if 20002 < gathered.files.length + 1 then raise .evidence
          else return { files := gathered.files ++ [file]
                        bytes := saturatingAdd gathered.bytes bytes.length }
      | _ => return gathered

def retain (settings : Settings) (now : Time) : Action Unit := do
  let latest ← measure latestName
  let report ← measure reportName
  let lock ← measure lockName
  let entries ← readDir
  let gathered ← loop (gather parses) entries { bytes := latest + report + lock }
  let files := gathered.files.insertionSort Candidate.precedes
  let _ ← loop (prune settings now) files
    { bytes := gathered.bytes, count := (files.filter (·.snapshot)).length }
  return ()

/-! ## Publishing -/

/-- The encoders of a publication. -/
structure Encoders where
  json : Snapshot → Bytes
  markdown : Snapshot → Bytes
  event : Transition → Bytes

/-- What `publish` does up to its last pass of retention: make room, write the
history, and the latest snapshot as the marker of the publication. -/
def publishFiles (encoders : Encoders) (snapshot : Snapshot) (transitions : List Transition)
    (settings : Settings) : Action Unit :=
  let encoded := encoders.json snapshot
  let report := encoders.markdown snapshot
  let events := transitions.flatMap fun transition => encoders.event transition ++ [10]
  let reserve :=
    saturatingAdd (saturatingAdd (saturatingMul encoded.length 2) report.length) events.length
  if settings.memoryBytes / 2 < encoded.length || settings.historyBytes < encoded.length then
    raise .evidence
  else if settings.historyBytes < reserve then
    raise .evidence
  else do
    retain parses { settings with historyBytes := settings.historyBytes - reserve }
      snapshot.capturedAt
    atomic (snapshotName snapshot.capturedAt) encoded
    atomicNonempty (eventsName snapshot.capturedAt) events
    atomic reportName report
    atomic latestName encoded

def publish (encoders : Encoders) (snapshot : Snapshot) (transitions : List Transition)
    (settings : Settings) : Action Unit := do
  publishFiles parses encoders snapshot transitions settings
  retain parses settings snapshot.capturedAt

end

end HealthMonitor.Storage
