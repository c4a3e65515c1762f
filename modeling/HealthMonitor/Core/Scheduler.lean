import HealthMonitor.Core.Config
import HealthMonitor.Library.Process
import HealthMonitor.Library.Tally

/-!
# Scheduler

Fair scheduling with coalesced ticks, bounded tasks, and cancellation. One turn
of the loop of `drive` admits what is due and then waits for one event: a sleep,
a reload, or the end of a task. When a task ends, and with what, is left open;
so is the order of events. Cancellation shows only in how a task ends.
-/

namespace HealthMonitor.Scheduler

/-- A reading of the monotonic clock, in nanoseconds. -/
abbrev Instant := Nat

def nanos (seconds : Nat) : Nat := seconds * 1000000000

inductive Mode where
  | once
  | watch (duration : Option Nat)
  deriving DecidableEq

def Provider.debug : Provider → String
  | .gcp => "Gcp"
  | .aws => "Aws"
  | .azure => "Azure"
  | .kubernetes => "Kubernetes"
  | .github => "Github"
  | .edge => "Edge"
  | .nats => "Nats"

/-- What limits the collections that run at a time. -/
def scope (job : Job) : String :=
  Provider.debug job.target.provider ++ "/" ++ job.target.scope

structure Entry where
  job : Job
  due : Instant
  samples : Nat

/-- A collection in flight. -/
structure Task where
  job : Job

/-- How a task ends. A panic that escapes is one outside the future that the task
polls: of the call that makes it, or of its destructor. -/
inductive Ending where
  | returned (result : CheckResult)
  | panicked
  | cancelled
  | escaped

/-- What `join_next` hands out: nothing to match on after an escaped panic. -/
def Task.finish (task : Task) (ending : Ending) (started clock : Time) :
    Option (Job × CheckResult) :=
  let failure (coverage : Coverage) :=
    CheckResult.failure task.job.target.name task.job.check task.job.revision coverage clock
  match ending with
  | .returned result => some (task.job, { result with startedAt := started })
  | .panicked => some (task.job, { failure .malformed with startedAt := started })
  | .cancelled => some (task.job, { failure .cancelled with startedAt := started })
  | .escaped => none

/-- What becomes of a result on the output channel. -/
inductive Sending where
  | delivered
  | refused
  | stopped
  deriving DecidableEq

/-- What the loop waits for. -/
inductive Event where
  | stopped
  | slept
  | changed (jobs : List Job) (now : Instant)
  | closed
  | completed (index : Nat) (ending : Ending) (started clock : Time) (sending : Sending)

/-- One turn: whether the stop was seen, the clock at the check of the duration and
at the admissions, and the event that follows. -/
structure Turn where
  stopped : Bool
  checked : Instant
  now : Instant
  event : Event

structure Drive where
  entries : List Entry
  running : List String
  scopes : Table Nat
  tasks : List Task
  cursor : Nat
  configOpen : Bool
  ended : Bool

/-- What a turn does that others see: the entry it admits, with the state before,
and the result it forwards, with the entries of that moment. -/
inductive Note where
  | admitted (before : Drive) (entry : Entry)
  | forwarded (entries : List Entry) (job : Job) (result : CheckResult)

/-! ## Admission -/

/-- The spread of ticks, in seconds: `percent` of the interval either way, by a hash
of the key and the cycle. -/
def cadence (interval percent : Nat) (key : String) (cycle : Nat) : Nat :=
  let spread := interval * percent / 100
  if spread = 0 then interval
  else
    let hash := key.toUTF8.toList.foldl
      (fun hash byte => (hash * 1099511628211 + byte.toNat) % 2 ^ 64) cycle
    let delta : Int := (hash % (spread * 2 + 1) : Nat) - spread
    max (interval + delta).toNat 1

def globalLimit (entries : List Entry) : Nat :=
  (entries.map fun e => e.job.settings.concurrency).min?.getD 1

/-- An entry with all its samples; in a watch there is no end of them. -/
def spent (mode : Mode) (entry : Entry) : Bool :=
  mode = .once && entry.job.settings.samples ≤ entry.samples

/-- An entry that is passed over. -/
def held (mode : Mode) (now : Instant) (s : Drive) (entry : Entry) : Bool :=
  now < entry.due || s.running.contains entry.job.key
    || entry.job.settings.scopeConcurrency ≤ s.scopes[scope entry.job]?.getD 0
    || spent mode entry

/-- The entry after a collection of it has started. -/
def Entry.next (mode : Mode) (now : Instant) (entry : Entry) : Entry :=
  let interval := match mode with
    | .once => entry.job.settings.sampleInterval.seconds
    | .watch _ =>
        cadence entry.job.settings.interval.seconds entry.job.settings.jitterPercent
          entry.job.key entry.samples
  { entry with due := now + nanos interval, samples := saturatingSucc entry.samples }

def spawn (mode : Mode) (now : Instant) (s : Drive) (index : Nat) (entry : Entry) : Drive :=
  { s with
    running := s.running.insert entry.job.key
    scopes := Tally.increment s.scopes (scope entry.job)
    entries := s.entries.set index (entry.next mode now)
    tasks := s.tasks ++ [{ job := entry.job }] }

/-- The entries at some positions in turn, until the global limit is reached. -/
def admitFrom (mode : Mode) (now : Instant) (limit : Nat) (s : Drive) :
    List Nat → Drive × List Note
  | [] => (s, [])
  | index :: rest =>
      if limit ≤ s.running.length then (s, [])
      else
        match s.entries[index]? with
        | none => admitFrom mode now limit s rest
        | some entry =>
            if held mode now s entry then admitFrom mode now limit s rest
            else
              let out := admitFrom mode now limit (spawn mode now s index entry) rest
              (out.1, .admitted s entry :: out.2)

/-- The positions of the entries, from the cursor on. -/
def order (s : Drive) : List Nat :=
  (List.range s.entries.length).map fun offset => (s.cursor + offset) % s.entries.length

/-- One pass over the entries. -/
def pass (mode : Mode) (now : Instant) (s : Drive) : Drive × List Note :=
  let out := admitFrom mode now (globalLimit s.entries) s (order s)
  ({ out.1 with cursor := if s.entries.isEmpty then s.cursor
      else (s.cursor + 1) % s.entries.length }, out.2)

/-! ## Events -/

/-- Replaced entries start over, under the tasks that run. -/
def reload (s : Drive) (jobs : List Job) (now : Instant) : Drive :=
  { s with entries := jobs.map fun job => { job, due := now, samples := 0 } }

def admits (entries : List Entry) (job : Job) : Bool :=
  entries.any fun e => e.job.key == job.key && e.job.revision == job.revision

/-- A task has ended. Its slots are released, and its result is forwarded if its job
is still configured. -/
def complete (s : Drive) (index : Nat) (ending : Ending) (started clock : Time)
    (sending : Sending) : Drive × List Note :=
  match s.tasks[index]? with
  | none => (s, [])
  | some task =>
      let s := { s with tasks := s.tasks.eraseIdx index }
      match task.finish ending started clock with
      | none => (s, [])
      | some (job, result) =>
          let s :=
            { s with
              running := s.running.erase job.key
              scopes := Tally.decrement s.scopes (scope job) }
          if admits s.entries job then
            match sending with
            | .delivered => (s, [.forwarded s.entries job result])
            | _ => ({ s with ended := true }, [])
          else (s, [])

def select (mode : Mode) (s : Drive) : Event → Drive × List Note
  | .stopped => ({ s with ended := true }, [])
  | .slept => (s, [])
  | .changed jobs now =>
      (if s.configOpen && mode ≠ .once then reload s jobs now else s, [])
  | .closed => ({ s with configOpen := s.configOpen && mode = .once }, [])
  | .completed index ending started clock sending =>
      complete s index ending started clock sending

/-! ## The loop -/

def expired (mode : Mode) (start now : Instant) : Bool :=
  match mode with
  | .watch (some duration) => duration ≤ now - start
  | _ => false

/-- Every entry has its samples, and none is in flight. -/
def finished (mode : Mode) (s : Drive) : Bool :=
  mode = .once && s.running.isEmpty && s.entries.all (spent mode)

def turn (mode : Mode) (start : Instant) (s : Drive) (t : Turn) : Drive × List Note :=
  if s.ended then (s, [])
  else if t.stopped || expired mode start t.checked then ({ s with ended := true }, [])
  else
    let out := pass mode t.now s
    if finished mode out.1 then ({ out.1 with ended := true }, out.2)
    else
      let last := select mode out.1 t.event
      (last.1, out.2 ++ last.2)

/-- The state `drive` starts in. -/
def begin (jobs : List Job) (start : Instant) : Drive where
  entries := jobs.map fun job => { job, due := start, samples := 0 }
  running := []
  scopes := ∅
  tasks := []
  cursor := 0
  configOpen := true
  ended := false

/-- The main loop of `drive`, as far as some turns. -/
def drive (mode : Mode) (start : Instant) : Process Drive Turn Note where
  step := turn mode start

end HealthMonitor.Scheduler
