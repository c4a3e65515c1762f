import HealthMonitor.Core.Model
import HealthMonitor.Library.Table

/-!
# LogWindow

Bounded diagnostic windows with overlap deduplication before signature grouping. The
cache is shared by the batches of a target: it stamps a fingerprint with the end of the
batch that read it, and suppresses what is stamped at or before the committed cursor.
-/

namespace HealthMonitor.Integrations

inductive TransportError where
  | missing | denied | authentication | unavailable | timeout | throttled | malformed | limit
  | cancelled | forbidden
  deriving DecidableEq, Repr

def TransportError.coverage : TransportError → Coverage
  | .missing => .missing
  | .denied => .denied
  | .forbidden => .denied
  | .authentication => .unauthenticated
  | .unavailable => .unavailable
  | .throttled => .unavailable
  | .timeout => .timeout
  | .malformed => .malformed
  | .limit => .truncated
  | .cancelled => .cancelled

/-! ## Events and the cache -/

structure Event where
  scope : String
  id : Option String
  message : String
  time : Time
  deriving DecidableEq, Repr

/-- What is hashed of an event: the id of the window, the scope and the text with their
lengths, and the time. -/
structure Hashed where
  window : String
  scope : String
  text : String
  nanos : Int
  deriving DecidableEq, Repr

/-- `timestamp_nanos_opt().unwrap_or_default()`. -/
def nanos (time : Time) : Int :=
  if -9223372036854775808 ≤ time ∧ time ≤ 9223372036854775807 then time else 0

def Event.hashed (window : String) (event : Event) : Hashed where
  window := window
  scope := event.scope
  text := event.id.getD event.message
  nanos := nanos event.time

/-- An event as it is read, and what the cache evicts if it has to make room for it. -/
structure Row where
  event : Event
  evicted : Option String
  deriving DecidableEq, Repr

namespace Dedupe

/-- `Dedupe::accept`. The cache may evict another entry to put a new one. -/
def accept (entries : Table Time) (fingerprint : String) (batchEnd : Time)
    (committed : Option Time) (evicted : Option String) : Table Time × Bool :=
  match entries[fingerprint]? with
  | some time =>
      if committed.any (time ≤ ·) then (entries, false)
      else (entries.insert fingerprint batchEnd, true)
  | none =>
      let entries := (evicted.map entries.erase).getD entries
      (entries.insert fingerprint batchEnd, true)

end Dedupe

/-! ## Windows -/

/-- `groups` lists the events that were added to the groups, `recorded` all that were
recorded, duplicates too. -/
structure Window where
  id : String
  committed : Option Time
  gapSeconds : Int
  start : Time
  stop : Time
  scanned : Nat
  limit : Nat
  duplicates : Nat
  fingerprints : List String
  groups : List Event
  recorded : List Event
  deriving DecidableEq, Repr

namespace Window

/-- Where a window of that span starts. -/
def startOf (overlap span : Nat) (logStart : Option Time) (stop : Time) : Time :=
  let full := stop - span * nanosPerSecond
  match logStart with
  | none => full
  | some time => max full (time - overlap * nanosPerSecond)

def new (overlap : Nat) (id : String) (span limit : Nat) (logStart : Option Time) (stop : Time) :
    Window where
  id := id
  committed := logStart
  gapSeconds :=
    match logStart with
    | none => 0
    | some time => max (numSeconds (stop - span * nanosPerSecond) time) 0
  start := startOf overlap span logStart stop
  stop := stop
  scanned := 0
  limit := limit
  duplicates := 0
  fingerprints := []
  groups := []
  recorded := []

/-- Whether the cache lets an event through. Without a cache everything is new. -/
def accept (w : Window) (dedupe : Option (Table Time)) (fingerprint : String)
    (evicted : Option String) : Option (Table Time) × Bool :=
  match dedupe with
  | none => (none, true)
  | some entries =>
      let accepted := Dedupe.accept entries fingerprint w.stop w.committed evicted
      (some accepted.1, accepted.2)

def record (hash : Hashed → String) (w : Window) (dedupe : Option (Table Time)) (row : Row) :
    (Window × Option (Table Time)) × Option TransportError :=
  if w.limit ≤ w.scanned then ((w, dedupe), some .limit)
  else
    let w := { w with scanned := w.scanned + 1 }
    if row.event.time < w.start || w.stop < row.event.time then ((w, dedupe), some .malformed)
    else
      let fingerprint := hash (row.event.hashed w.id)
      let w := { w with recorded := w.recorded ++ [row.event] }
      if w.fingerprints.contains fingerprint then
        (({ w with duplicates := w.duplicates + 1 }, dedupe), none)
      else
        let w := { w with fingerprints := fingerprint :: w.fingerprints }
        let accepted := w.accept dedupe fingerprint row.evicted
        if accepted.2 then (({ w with groups := w.groups ++ [row.event] }, accepted.1), none)
        else (({ w with duplicates := w.duplicates + 1 }, accepted.1), none)

/-- Rows are recorded until one is refused. -/
def recordAll (hash : Hashed → String) (w : Window) (dedupe : Option (Table Time)) :
    List Row → (Window × Option (Table Time)) × Option TransportError
  | [] => ((w, dedupe), none)
  | row :: rows =>
      match w.record hash dedupe row with
      | (next, none) => recordAll hash next.1 next.2 rows
      | (next, some error) => (next, some error)

end Window

/-! ## What the calls of a batch do to the cache -/

/-- The stamp of a fingerprint. -/
def stamp (dedupe : Option (Table Time)) (fingerprint : String) : Option Time :=
  dedupe.bind (·[fingerprint]?)

/-- A stamp the cursor has reached. -/
def Reached (committed : Option Time) (time : Time) : Prop :=
  ∃ cursor ∈ committed, time ≤ cursor

/-- Calls of `accept` with some fingerprints, of which some were accepted, in a batch with
that end and that cursor. When nothing was evicted every entry is kept or renewed. -/
structure Accepting (committed : Option Time) (stop : Time) (quiet : Prop)
    (calls accepted : List String) (before after : Option (Table Time)) : Prop where
  present : after.isSome = before.isSome
  origin : ∀ k time, stamp after k = some time →
    stamp before k = some time ∨ time = stop ∧ k ∈ accepted
  renewed : ∀ k ∈ calls, ∀ time, stamp after k = some time → time = stop ∨ Reached committed time
  answered : ∀ k ∈ calls, k ∈ accepted ∨ ∃ time, stamp before k = some time ∧ Reached committed time
  kept : quiet → ∀ k time, stamp before k = some time →
    stamp after k = some time ∨ stamp after k = some stop ∧ k ∈ accepted
  suppressed : quiet → ∀ k time, stamp before k = some time → Reached committed time →
    k ∉ accepted
  stamped : quiet → before.isSome = true → ∀ k ∈ accepted, stamp after k = some stop

namespace Accepting

variable {committed : Option Time} {stop : Time} {quiet : Prop} {calls accepted : List String}
  {before after : Option (Table Time)}

theorem refl (dedupe : Option (Table Time)) :
    Accepting committed stop quiet [] [] dedupe dedupe where
  present := rfl
  origin _ _ h := .inl h
  renewed _ hk := absurd hk List.not_mem_nil
  answered _ hk := absurd hk List.not_mem_nil
  kept _ _ _ h := .inl h
  suppressed _ _ _ _ _ := List.not_mem_nil
  stamped _ _ _ hk := absurd hk List.not_mem_nil

/-- One batch, some calls after others. -/
theorem trans {more more' : List String} {last : Option (Table Time)}
    (h : Accepting committed stop quiet calls accepted before after)
    (h' : Accepting committed stop quiet more more' after last) :
    Accepting committed stop quiet (calls ++ more) (accepted ++ more') before last where
  present := h'.present.trans h.present
  origin k time hk := by
    rcases h'.origin k time hk with hk | ⟨htime, hmem⟩
    · exact (h.origin k time hk).imp_right fun h => ⟨h.1, List.mem_append_left _ h.2⟩
    · exact .inr ⟨htime, List.mem_append_right _ hmem⟩
  renewed k hk time hstamp := by
    rcases List.mem_append.mp hk with hk | hk
    · rcases h'.origin k time hstamp with hstamp | ⟨htime, -⟩
      · exact h.renewed k hk time hstamp
      · exact .inl htime
    · exact h'.renewed k hk time hstamp
  answered k hk := by
    rcases List.mem_append.mp hk with hk | hk
    · exact (h.answered k hk).imp_left (List.mem_append_left _)
    · rcases h'.answered k hk with hmem | ⟨time, hstamp, hreached⟩
      · exact .inl (List.mem_append_right _ hmem)
      · rcases h.origin k time hstamp with hstamp | ⟨-, hmem⟩
        · exact .inr ⟨time, hstamp, hreached⟩
        · exact .inl (List.mem_append_left _ hmem)
  kept hquiet k time hstamp := by
    rcases h.kept hquiet k time hstamp with hstamp | ⟨hstamp, hmem⟩
    · exact (h'.kept hquiet k time hstamp).imp_right fun h => ⟨h.1, List.mem_append_right _ h.2⟩
    · refine .inr ⟨?_, List.mem_append_left _ hmem⟩
      rcases h'.kept hquiet k stop hstamp with h | h
      · exact h
      · exact h.1
  suppressed hquiet k time hstamp hreached := by
    have hfirst := h.suppressed hquiet k time hstamp hreached
    rcases h.kept hquiet k time hstamp with hstamp | ⟨-, hmem⟩
    · rw [List.mem_append, not_or]
      exact ⟨hfirst, h'.suppressed hquiet k time hstamp hreached⟩
    · exact absurd hmem hfirst
  stamped hquiet hsome k hk := by
    rcases List.mem_append.mp hk with hk | hk
    · rcases h'.kept hquiet k stop (h.stamped hquiet hsome k hk) with h | h
      · exact h
      · exact h.1
    · exact h'.stamped hquiet (h.present.trans hsome) k hk

/-- A fingerprint that was called before. -/
theorem again (h : Accepting committed stop quiet calls accepted before after) {k : String}
    (hk : k ∈ calls) : Accepting committed stop quiet (calls ++ [k]) accepted before after where
  present := h.present
  origin := h.origin
  renewed j hj := by
    rcases List.mem_append.mp hj with hj | hj
    · exact h.renewed j hj
    · exact h.renewed j (List.mem_singleton.mp hj ▸ hk)
  answered j hj := by
    rcases List.mem_append.mp hj with hj | hj
    · exact h.answered j hj
    · exact h.answered j (List.mem_singleton.mp hj ▸ hk)
  kept := h.kept
  suppressed := h.suppressed
  stamped := h.stamped

theorem of_quiet {quiet' : Prop} (h : Accepting committed stop quiet' calls accepted before after)
    (hquiet : quiet → quiet') : Accepting committed stop quiet calls accepted before after where
  present := h.present
  origin := h.origin
  renewed := h.renewed
  answered := h.answered
  kept hq := h.kept (hquiet hq)
  suppressed hq := h.suppressed (hquiet hq)
  stamped hq := h.stamped (hquiet hq)

end Accepting

/-! ### One call -/

theorem reached_iff {committed : Option Time} {time : Time} :
    committed.any (time ≤ ·) = true ↔ Reached committed time := by
  cases committed <;> simp [Reached]

theorem accepting_insert {committed : Option Time} {stop : Time} {quiet : Prop} {k : String}
    {entries rest : Table Time}
    (hrest : ∀ (j : String) (time : Time), rest[j]? = some time → entries[j]? = some time)
    (hquiet : quiet → rest = entries)
    (hfresh : ∀ time, entries[k]? = some time → ¬Reached committed time) :
    Accepting committed stop quiet [k] [k] (some entries) (some (rest.insert k stop)) := by
  have hself : stamp (some (rest.insert k stop)) k = some stop := by simp [stamp]
  have hother : ∀ j, j ≠ k → stamp (some (rest.insert k stop)) j = rest[j]? :=
    fun j hj => Table.getElem?_insert_ne hj
  constructor
  · rfl
  · intro j time hj
    by_cases hjk : j = k
    · rw [hjk, hself, Option.some.injEq] at hj
      exact .inr ⟨hj.symm, by simp [hjk]⟩
    · exact .inl (hrest j time (hother j hjk ▸ hj))
  · intro j hj time hstamp
    rw [List.mem_singleton.mp hj, hself, Option.some.injEq] at hstamp
    exact .inl hstamp.symm
  · exact fun j hj => .inl hj
  · intro h j time hj
    by_cases hjk : j = k
    · exact .inr ⟨hjk ▸ hself, by simp [hjk]⟩
    · refine .inl ((hother j hjk).trans ?_)
      rw [hquiet h]
      exact hj
  · intro _ j time hj hreached hmem
    rw [List.mem_singleton.mp hmem] at hj
    exact hfresh time hj hreached
  · exact fun _ _ j hj => List.mem_singleton.mp hj ▸ hself

theorem accepting_accept (w : Window) (dedupe : Option (Table Time)) (k : String)
    (evicted : Option String) :
    Accepting w.committed w.stop (evicted = none) [k]
      (if (w.accept dedupe k evicted).2 then [k] else []) dedupe (w.accept dedupe k evicted).1 := by
  cases dedupe with
  | none =>
      exact {
        present := rfl
        origin := fun _ _ h => .inl h
        renewed := fun _ _ _ h => by cases h
        answered := fun _ hk => .inl hk
        kept := fun _ _ _ h => .inl h
        suppressed := fun _ _ _ h => by cases h
        stamped := fun _ h => by cases h }
  | some entries =>
      cases hk : entries[k]? with
      | some time =>
          by_cases hreached : w.committed.any (time ≤ ·) = true
          · have haccept : w.accept (some entries) k evicted = (some entries, false) := by
              simp [Window.accept, Dedupe.accept, hk, hreached]
            rw [haccept]
            have hstamp : stamp (some entries) k = some time := hk
            constructor
            · rfl
            · exact fun _ _ h => .inl h
            · intro j hj t ht
              rw [List.mem_singleton.mp hj, hstamp, Option.some.injEq] at ht
              exact .inr (ht ▸ reached_iff.mp hreached)
            · intro j hj
              rw [List.mem_singleton.mp hj]
              exact .inr ⟨time, hstamp, reached_iff.mp hreached⟩
            · exact fun _ _ _ h => .inl h
            · exact fun _ _ _ _ _ => List.not_mem_nil
            · exact fun _ _ _ h => absurd h List.not_mem_nil
          · have haccept : w.accept (some entries) k evicted
                = (some (entries.insert k w.stop), true) := by
              simp [Window.accept, Dedupe.accept, hk, hreached]
            rw [haccept]
            refine accepting_insert (fun _ _ h => h) (fun _ => rfl) fun t ht => ?_
            rw [hk, Option.some.injEq] at ht
            exact fun h => hreached (reached_iff.mpr (ht ▸ h))
      | none =>
          have haccept : w.accept (some entries) k evicted
              = (some (((evicted.map entries.erase).getD entries).insert k w.stop), true) := by
            simp [Window.accept, Dedupe.accept, hk]
          rw [haccept]
          refine accepting_insert (fun j t hj => ?_) (fun h => by rw [h]; rfl) fun t ht => ?_
          · cases evicted with
            | none => exact hj
            | some key =>
                rw [Option.map_some, Option.getD_some, Std.ExtTreeMap.getElem?_erase] at hj
                split at hj
                · cases hj
                · exact hj
          · rw [hk] at ht
            cases ht

/-! ## What a window has recorded -/

/-- What becomes of a row: it is refused, it repeats what the window has recorded, or the
cache is asked. -/
theorem record_cases (hash : Hashed → String) (w : Window) (dedupe : Option (Table Time))
    (row : Row) :
    (∃ scanned error, w.record hash dedupe row = (({ w with scanned }, dedupe), some error))
    ∨ (w.start ≤ row.event.time ∧ row.event.time ≤ w.stop)
      ∧ (hash (row.event.hashed w.id) ∈ w.fingerprints
        ∧ w.record hash dedupe row
          = (({ w with
                scanned := w.scanned + 1
                recorded := w.recorded ++ [row.event]
                duplicates := w.duplicates + 1 }, dedupe), none)
      ∨ ∃ groups duplicates accepted,
        accepted = w.accept dedupe (hash (row.event.hashed w.id)) row.evicted
          ∧ groups = (if accepted.2 then w.groups ++ [row.event] else w.groups)
          ∧ w.record hash dedupe row
            = (({ w with
                  scanned := w.scanned + 1
                  recorded := w.recorded ++ [row.event]
                  fingerprints := hash (row.event.hashed w.id) :: w.fingerprints
                  groups, duplicates }, accepted.1), none)) := by
  by_cases hlimit : w.limit ≤ w.scanned
  · exact .inl ⟨w.scanned, .limit, by rw [Window.record, if_pos hlimit]⟩
  by_cases hrange : (row.event.time < w.start || w.stop < row.event.time) = true
  · exact .inl ⟨w.scanned + 1, .malformed, by
      rw [Window.record, if_neg hlimit]
      exact if_pos hrange⟩
  refine .inr ⟨?_, ?_⟩
  · simp only [Bool.or_eq_true, decide_eq_true_eq, not_or] at hrange
    exact ⟨Int.not_lt.mp hrange.1, Int.not_lt.mp hrange.2⟩
  by_cases hseen : w.fingerprints.contains (hash (row.event.hashed w.id)) = true
  · refine .inl ⟨List.contains_iff_mem.mp hseen, ?_⟩
    rw [Window.record, if_neg hlimit]
    simp only [hrange, hseen]
    rfl
  · refine .inr ⟨_, if (w.accept dedupe (hash (row.event.hashed w.id)) row.evicted).2 then
      w.duplicates else w.duplicates + 1, _, rfl, rfl, ?_⟩
    rw [Window.record, if_neg hlimit]
    simp only [hrange, hseen]
    by_cases haccepted : (w.accept dedupe (hash (row.event.hashed w.id)) row.evicted).2 = true
    · rw [if_pos haccepted, if_pos haccepted]
      exact if_pos haccepted
    · rw [if_neg haccepted, if_neg haccepted]
      exact if_neg haccepted

/-- A row is recorded unless it is refused. -/
theorem record_recorded (hash : Hashed → String) (w : Window) (dedupe : Option (Table Time))
    (row : Row) :
    (w.record hash dedupe row).1.1.recorded
      = if (w.record hash dedupe row).2 = none then w.recorded ++ [row.event] else w.recorded := by
  rcases record_cases hash w dedupe row with ⟨scanned, error, heq⟩ | ⟨-, hcases⟩
  · rw [heq]
    rfl
  · rcases hcases with ⟨-, heq⟩ | ⟨groups, duplicates, accepted, -, -, heq⟩
    · rw [heq]
      rfl
    · rw [heq]
      rfl

/-- A window in use: the cache has been asked for what was recorded, and has accepted what
was added to the groups. -/
structure Recording (hash : Hashed → String) (quiet : Prop) (w₀ : Window)
    (before : Option (Table Time)) (w : Window) (dedupe : Option (Table Time)) : Prop where
  id : w.id = w₀.id
  committed : w.committed = w₀.committed
  start : w.start = w₀.start
  stop : w.stop = w₀.stop
  accepting : Accepting w₀.committed w₀.stop quiet (w.recorded.map fun x => hash (x.hashed w₀.id))
    (w.groups.map fun x => hash (x.hashed w₀.id)) before dedupe
  fingerprints : ∀ k, k ∈ w.fingerprints → k ∈ w.recorded.map fun x => hash (x.hashed w₀.id)
  inside : ∀ x ∈ w.recorded, w₀.start ≤ x.time ∧ x.time ≤ w₀.stop
  added : ∀ x ∈ w.groups, x ∈ w.recorded

namespace Recording

variable {hash : Hashed → String} {quiet : Prop} {w₀ w : Window}
  {before dedupe : Option (Table Time)}

theorem start_new (hash : Hashed → String) (quiet : Prop) (overlap : Nat) (id : String)
    (span limit : Nat) (logStart : Option Time) (stop : Time) (dedupe : Option (Table Time)) :
    Recording hash quiet (Window.new overlap id span limit logStart stop) dedupe
      (Window.new overlap id span limit logStart stop) dedupe where
  id := rfl
  committed := rfl
  start := rfl
  stop := rfl
  accepting := Accepting.refl dedupe
  fingerprints _ hk := absurd hk List.not_mem_nil
  inside _ hx := absurd hx List.not_mem_nil
  added _ hx := absurd hx List.not_mem_nil

theorem record (h : Recording hash quiet w₀ before w dedupe) {row : Row}
    (hquiet : quiet → row.evicted = none) :
    Recording hash quiet w₀ before (w.record hash dedupe row).1.1
      (w.record hash dedupe row).1.2 := by
  have hrecorded : ∀ k, k ∈ w.recorded.map (fun x => hash (x.hashed w₀.id)) →
      k ∈ (w.recorded ++ [row.event]).map fun x => hash (x.hashed w₀.id) := by
    intro k hk
    rw [List.map_append]
    exact List.mem_append_left _ hk
  have hinside : w.start ≤ row.event.time ∧ row.event.time ≤ w.stop →
      ∀ x ∈ w.recorded ++ [row.event], w₀.start ≤ x.time ∧ x.time ≤ w₀.stop := by
    intro hrange x hx
    rcases List.mem_append.mp hx with hx | hx
    · exact h.inside x hx
    · rw [List.mem_singleton.mp hx, ← h.start, ← h.stop]
      exact hrange
  rcases record_cases hash w dedupe row with ⟨scanned, error, heq⟩ | ⟨hrange, hcases⟩
  · rw [heq]
    exact ⟨h.id, h.committed, h.start, h.stop, h.accepting, h.fingerprints, h.inside, h.added⟩
  rcases hcases with ⟨hseen, heq⟩ | ⟨groups, duplicates, accepted, haccepted, hgroups, heq⟩
  · rw [heq]
    refine ⟨h.id, h.committed, h.start, h.stop, ?_, fun k hk => hrecorded k (h.fingerprints k hk),
      hinside hrange, fun x hx => List.mem_append_left _ (h.added x hx)⟩
    rw [List.map_append, List.map_singleton]
    exact h.accepting.again (h.id ▸ h.fingerprints _ hseen)
  · rw [heq]
    have hcall := accepting_accept w dedupe (hash (row.event.hashed w.id)) row.evicted
    rw [← haccepted, h.committed, h.stop, h.id] at hcall
    refine ⟨h.id, h.committed, h.start, h.stop, ?_, fun k hk => ?_, hinside hrange, fun x hx => ?_⟩
    · have hadded : groups.map (fun x => hash (x.hashed w₀.id))
          = w.groups.map (fun x => hash (x.hashed w₀.id))
            ++ if accepted.2 then [hash (row.event.hashed w₀.id)] else [] := by
        rw [hgroups]
        split
        · rw [List.map_append, List.map_singleton]
        · rw [List.append_nil]
      show Accepting _ _ _ ((w.recorded ++ [row.event]).map _) (groups.map _) _ _
      rw [hadded, List.map_append, List.map_singleton]
      exact h.accepting.trans (hcall.of_quiet hquiet)
    · rcases List.mem_cons.mp hk with rfl | hk
      · simp [h.id]
      · exact hrecorded k (h.fingerprints k hk)
    · rw [hgroups] at hx
      split at hx
      · rcases List.mem_append.mp hx with hx | hx
        · exact List.mem_append_left _ (h.added x hx)
        · exact List.mem_append_right _ hx
      · exact List.mem_append_left _ (h.added x hx)

/-- The rows up to the first that is refused are recorded. -/
theorem recordAll (h : Recording hash quiet w₀ before w dedupe) {rows : List Row}
    (hquiet : quiet → ∀ row ∈ rows, row.evicted = none) :
    Recording hash quiet w₀ before (w.recordAll hash dedupe rows).1.1
        (w.recordAll hash dedupe rows).1.2
      ∧ ∃ taken, taken <+: rows.map Row.event
        ∧ (w.recordAll hash dedupe rows).1.1.recorded = w.recorded ++ taken
        ∧ ((w.recordAll hash dedupe rows).2 = none → taken = rows.map Row.event) := by
  induction rows generalizing w dedupe with
  | nil => exact ⟨h, [], List.nil_prefix, (List.append_nil _).symm, fun _ => rfl⟩
  | cons row rows ih =>
      have hrow := h.record fun hq => hquiet hq row (by simp)
      have hrecorded := record_recorded hash w dedupe row
      rw [Window.recordAll]
      cases hstep : w.record hash dedupe row with
      | mk next error =>
          rw [hstep] at hrow hrecorded
          cases error with
          | some error =>
              exact ⟨hrow, [], List.nil_prefix, hrecorded.trans (List.append_nil _).symm,
                fun hnone => by cases hnone⟩
          | none =>
              obtain ⟨hrest, taken, hstart, htaken, hall⟩ :=
                ih hrow fun hq row hrow => hquiet hq row (by simp [hrow])
              refine ⟨hrest, row.event :: taken, List.cons_prefix_cons.mpr ⟨rfl, hstart⟩, ?_,
                fun hnone => by rw [hall hnone, List.map_cons]⟩
              rw [if_pos rfl] at hrecorded
              rw [htaken, hrecorded, List.append_assoc, List.singleton_append]

end Recording

end HealthMonitor.Integrations
