import Mathlib.Algebra.GroupWithZero.Nat
import HealthMonitor.Library.Recency

/-!
# Scope cache

Scope responses are kept for a short time, within a number of entries and a number of
bytes, in the order of their last use. What a cache holds is related to the calls made
on it: the uses give the order of the entries, the inserts their values.
-/

namespace HealthMonitor.ScopeCache

/-! ## The cache -/

def maxEntries : Nat := 64

def maxBytes : Nat := 32 * 1024 * 1024

structure Key where
  generation : Nat
  filter : String
  deriving DecidableEq

structure Cached where
  body : List UInt8
  created : Nat
  ttl : Nat
  deriving DecidableEq

/-- `created.elapsed() < ttl`. -/
def Cached.fresh (now : Nat) (value : Cached) : Bool := decide (now - value.created < value.ttl)

structure Entry where
  key : Key
  value : Cached
  deriving DecidableEq

def Entry.bytes (entry : Entry) : Nat := entry.key.filter.utf8ByteSize + entry.value.body.length

def totalBytes (entries : List Entry) : Nat := (entries.map Entry.bytes).sum

/-- The entries from the least to the most recently used. A flight is a lock that lives
as long as some caller holds it. -/
structure State where
  entries : List Entry := []
  bytes : Nat := 0
  flights : List (Key × Nat) := []

/-- `held` tells the flights that some caller still holds. -/
def State.expire (now : Nat) (held : Nat → Bool) (s : State) : State :=
  let entries := s.entries.filter (·.value.fresh now)
  { entries, bytes := totalBytes entries, flights := s.flights.filter (held ·.2) }

/-- Return a fresh entry and promote it in the bounded eviction order. -/
def State.get (now : Nat) (held : Nat → Bool) (key : Key) (s : State) : State × Option Cached :=
  let s := s.expire now held
  match s.entries.find? (·.key == key) with
  | none => (s, none)
  | some entry =>
      ({ s with entries := s.entries.eraseP (·.key == key) ++ [entry] }, some entry.value)

/-- Take entries from the front while the new one does not fit. A subtraction below zero
has no result. -/
def makeRoom (size : Nat) : List Entry → Nat → Option (List Entry × Nat)
  | [], bytes => some ([], bytes)
  | old :: rest, bytes =>
      if maxEntries ≤ (old :: rest).length || decide (maxBytes < bytes + size) then
        if old.bytes ≤ bytes then makeRoom size rest (bytes - old.bytes) else none
      else some (old :: rest, bytes)

/-- Take out the entry of the key, if there is one. -/
def State.supersede (key : Key) (s : State) : Option State :=
  match s.entries.find? (·.key == key) with
  | none => some s
  | some old =>
      if old.bytes ≤ s.bytes then
        some { s with entries := s.entries.eraseP (·.key == key), bytes := s.bytes - old.bytes }
      else none

/-- Make room for an entry and put it at the end, unless it is larger than the cache. -/
def State.place (entry : Entry) (s : State) : Option State :=
  if maxBytes < entry.bytes then some s
  else
    (makeRoom entry.bytes s.entries s.bytes).map fun room =>
      { s with entries := room.1 ++ [entry], bytes := room.2 + entry.bytes }

/-- Supersede an existing value even when its replacement cannot fit the cache. -/
def State.insert (now : Nat) (held : Nat → Bool) (key : Key) (value : Cached) (s : State) :
    Option State :=
  ((s.expire now held).supersede key).bind (State.place { key, value })

/-- Share loads for a key without retaining locks after their callers finish. A lock
found may still be dropped before it is upgraded; `none` is busy. -/
def State.flight (now : Nat) (held upgrades : Nat → Bool) (key : Key) (new : Nat) (s : State) :
    State × Option Nat :=
  let s := s.expire now held
  match (s.flights.find? (·.1 == key)).filter (upgrades ·.2) with
  | some found => (s, some found.2)
  | none =>
      if maxEntries ≤ s.flights.length then (s, none)
      else ({ s with flights := s.flights.filter (·.1 != key) ++ [(key, new)] }, some new)

/-! ## Calls -/

inductive Operation where
  | get (key : Key)
  | insert (key : Key) (value : Cached)
  | flight (key : Key) (new : Nat) (upgrades : Nat → Bool)

/-- An operation, at the instant its lock is taken. -/
structure Call where
  now : Nat
  held : Nat → Bool
  operation : Operation

inductive Event where
  | got (key : Key) (result : Option Cached)
  | inserted (key : Key) (value : Cached)
  | flown (key : Key) (result : Option Nat)

def Call.run (call : Call) (s : State) : Option (State × Event) :=
  match call.operation with
  | .get key =>
      let out := s.get call.now call.held key
      some (out.1, .got key out.2)
  | .insert key value =>
      (s.insert call.now call.held key value).map fun next => (next, .inserted key value)
  | .flight key new upgrades =>
      let out := s.flight call.now call.held upgrades key new
      some (out.1, .flown key out.2)

/-- One more call, with what it did appended to the log. -/
def step (state : State × List Event) (call : Call) : Option (State × List Event) :=
  (call.run state.1).map fun out => (out.1, state.2 ++ [out.2])

/-- All calls in turn, from the empty cache. -/
def run (calls : List Call) : Option (State × List Event) := calls.foldlM step ({}, [])

/-- The key an event uses. -/
def Event.use : Event → Option Key
  | .got key (some _) => some key
  | .inserted key _ => some key
  | _ => none

def uses (log : List Event) : List Key := log.filterMap Event.use

/-- What the event inserts for the key. -/
def Event.insertedFor (key : Key) : Event → Option Cached
  | .inserted other value => if other = key then some value else none
  | _ => none

/-- The latest value inserted for the key. -/
def latest (log : List Event) (key : Key) : Option Cached :=
  (log.filterMap (Event.insertedFor key)).getLast?

/-! ## Logs -/

variable {log : List Event} {key other : Key} {value : Cached} {now : Nat} {held : Nat → Bool}
  {s after : State}

theorem uses_concat (event : Event) :
    uses (log ++ [event]) = uses log ++ event.use.toList := by
  cases event <;> simp [uses, List.filterMap_append, List.filterMap_cons] <;>
    split <;> simp_all

theorem latest_inserted : latest (log ++ [.inserted key value]) key = some value := by
  simp [latest, List.filterMap_append, Event.insertedFor]

theorem latest_of_ne {event : Event} (h : event.insertedFor key = none) :
    latest (log ++ [event]) key = latest log key := by
  simp [latest, List.filterMap_append, h]

/-! ## What holds between calls -/

/-- The cache after the calls of a log. -/
structure Sound (s : State) (log : List Event) : Prop where
  counted : s.bytes = totalBytes s.entries
  within : s.bytes ≤ maxBytes
  few : s.entries.length ≤ maxEntries
  flying : s.flights.length ≤ maxEntries
  ordered : Recency.Ordered (uses log) (s.entries.map (·.key))
  current : ∀ entry ∈ s.entries, latest log entry.key = some entry.value

theorem Sound.empty : Sound {} [] where
  counted := rfl
  within := Nat.zero_le _
  few := Nat.zero_le _
  flying := Nat.zero_le _
  ordered := Recency.Ordered.nil
  current entry h := by cases h

theorem totalBytes_sublist {part entries : List Entry} (h : part.Sublist entries) :
    totalBytes part ≤ totalBytes entries := by
  induction h with
  | slnil => exact Nat.le_refl _
  | cons entry _ ih => exact Nat.le_trans ih (Nat.le_add_left _ _)
  | cons_cons entry _ ih => exact Nat.add_le_add_left ih _

theorem Sound.expire (h : Sound s log) : Sound (s.expire now held) log where
  counted := rfl
  within := by
    have := totalBytes_sublist (s.entries.filter_sublist (p := (·.value.fresh now)))
    have := h.within
    rw [h.counted] at this
    simp only [State.expire]
    omega
  few := Nat.le_trans (List.length_filter_le ..) h.few
  flying := Nat.le_trans (List.length_filter_le ..) h.flying
  ordered := h.ordered.sublist (List.filter_sublist.map _)
  current entry hentry := h.current entry (List.mem_of_mem_filter hentry)

theorem mem_expire {entry : Entry} (h : entry ∈ (s.expire now held).entries) :
    now - entry.value.created < entry.value.ttl :=
  of_decide_eq_true (List.mem_filter.mp h).2

/-- The entries of other keys. -/
def others (key : Key) (entries : List Entry) : List Entry := entries.filter (·.key ≠ key)

theorem eraseP_eq_others {entries : List Entry} (h : (entries.map (·.key)).Nodup) :
    entries.eraseP (·.key == key) = others key entries := by
  induction entries with
  | nil => rfl
  | cons entry rest ih =>
      obtain ⟨hnew, hrest⟩ := List.nodup_cons.mp h
      by_cases hkey : entry.key = key
      · have hall : others key rest = rest := by
          refine List.filter_eq_self.mpr fun a ha => decide_eq_true fun heq => hnew ?_
          exact List.mem_map.mpr ⟨a, ha, heq.trans hkey.symm⟩
        rw [List.eraseP_cons_of_pos (by simpa using hkey), others, List.filter_cons_of_neg
          (by simpa using hkey), ← others, hall]
      · rw [List.eraseP_cons_of_neg (by simpa using hkey), ih hrest, others, others,
          List.filter_cons_of_pos (by simpa using hkey)]

theorem others_of_notFound {entries : List Entry} (h : entries.find? (·.key == key) = none) :
    others key entries = entries := by
  refine List.filter_eq_self.mpr fun entry hentry => ?_
  have := List.find?_eq_none.mp h entry hentry
  simpa using this

theorem key_notMem_others (entries : List Entry) : key ∉ (others key entries).map (·.key) := by
  rw [List.mem_map]
  rintro ⟨entry, hentry, hkey⟩
  exact of_decide_eq_true (List.mem_filter.mp hentry).2 hkey

theorem totalBytes_append (a b : List Entry) :
    totalBytes (a ++ b) = totalBytes a + totalBytes b := by
  simp [totalBytes]

/-- Taking out the entry of a key takes out its bytes. -/
theorem totalBytes_eraseP {entries : List Entry} {old : Entry}
    (hfind : entries.find? (·.key == key) = some old) :
    totalBytes (entries.eraseP (·.key == key)) + old.bytes = totalBytes entries := by
  obtain ⟨hold, before, rest, rfl, hbefore⟩ := List.find?_eq_some_iff_append.mp hfind
  have herase : (before ++ old :: rest).eraseP (·.key == key) = before ++ rest := by
    rw [List.eraseP_append_right _ fun entry hentry => by simpa using hbefore entry hentry]
    simp [hold]
  rw [herase, totalBytes_append, totalBytes_append]
  simp only [totalBytes, List.map_cons, List.sum_cons]
  omega

/-! ## Reading -/

theorem get_sound (h : Sound s log) :
    Sound (s.get now held key).1 (log ++ [.got key (s.get now held key).2]) := by
  have hexpired : Sound (s.expire now held) log := h.expire
  unfold State.get
  dsimp only
  generalize s.expire now held = s' at hexpired
  cases hfind : s'.entries.find? (·.key == key) with
  | none =>
      have huses : uses (log ++ [.got key none]) = uses log := by simp [uses_concat, Event.use]
      exact { hexpired with
        ordered := huses ▸ hexpired.ordered
        current := fun entry hentry => (latest_of_ne rfl).trans (hexpired.current entry hentry) }
  | some entry =>
      have hkey : entry.key = key := by simpa using List.find?_some hfind
      have hmem := List.mem_of_find?_eq_some hfind
      have huses : uses (log ++ [.got key (some entry.value)]) = uses log ++ [key] := by
        simp [uses_concat, Event.use]
      have herase : s'.entries.eraseP (·.key == key) = others key s'.entries :=
        eraseP_eq_others hexpired.ordered.nodup
      have hbytes := totalBytes_eraseP hfind
      have hlength : (s'.entries.eraseP (·.key == key)).length + 1 = s'.entries.length := by
        rw [List.length_eraseP_of_mem hmem (by simpa using hkey)]
        have := List.length_pos_of_mem hmem
        omega
      refine ⟨?_, hexpired.within, ?_, hexpired.flying, ?_, ?_⟩
      · rw [hexpired.counted, totalBytes_append, ← hbytes]
        rfl
      · rw [List.length_append]
        have := hexpired.few
        simp only [List.length_singleton]
        omega
      · rw [huses, herase, List.map_append, List.map_singleton, hkey]
        refine Recency.Ordered.push (hexpired.ordered.sublist ?_) (key_notMem_others _)
        exact List.filter_sublist.map _
      · intro found hfound
        rw [latest_of_ne rfl]
        rcases List.mem_append.mp hfound with hfound | hfound
        · exact hexpired.current found (List.mem_of_mem_eraseP hfound)
        · rw [List.mem_singleton.mp hfound]
          exact hexpired.current entry hmem

/-- What is read is the latest value inserted for its key, and has not expired. -/
theorem get_latest (h : Sound s log) (hget : (s.get now held key).2 = some value) :
    latest log key = some value ∧ now - value.created < value.ttl := by
  unfold State.get at hget
  dsimp only at hget
  cases hfind : (s.expire now held).entries.find? (·.key == key) with
  | none =>
      rw [hfind] at hget
      cases hget
  | some entry =>
      rw [hfind] at hget
      obtain rfl : entry.value = value := Option.some.inj hget
      have hmem := List.mem_of_find?_eq_some hfind
      have hkey : entry.key = key := by simpa using List.find?_some hfind
      exact ⟨hkey ▸ h.expire.current entry hmem, mem_expire hmem⟩

/-! ## Inserting -/

/-- An entry of the size does not fit beside these. -/
def Full (size : Nat) (entries : List Entry) : Prop :=
  maxEntries ≤ entries.length ∨ maxBytes < totalBytes entries + size

/-- Room is made from the front, as long as the new entry does not fit. -/
theorem makeRoom_spec {size : Nat} (hsize : size ≤ maxBytes) (entries : List Entry) :
    ∃ evicted kept, entries = evicted ++ kept ∧
      makeRoom size entries (totalBytes entries) = some (kept, totalBytes kept) ∧
      ¬ Full size kept ∧ ∀ i < evicted.length, Full size (entries.drop i) := by
  induction entries with
  | nil =>
      refine ⟨[], [], rfl, rfl, ?_, by simp⟩
      simp only [Full, maxEntries, totalBytes, List.length_nil, List.map_nil, List.sum_nil]
      omega
  | cons old rest ih =>
      have htotal : totalBytes (old :: rest) = old.bytes + totalBytes rest := by
        simp [totalBytes]
      rw [makeRoom]
      split
      · rename_i hfull
        rw [Bool.or_eq_true, decide_eq_true_eq, decide_eq_true_eq] at hfull
        obtain ⟨evicted, kept, hsplit, hroom, hfits, hall⟩ := ih
        refine ⟨old :: evicted, kept, by rw [hsplit]; rfl, ?_, hfits, ?_⟩
        · rw [if_pos (by omega), show totalBytes (old :: rest) - old.bytes = totalBytes rest by omega]
          exact hroom
        · intro i hi
          cases i with
          | zero => exact hfull
          | succ i => exact hall i (Nat.lt_of_succ_lt_succ hi)
      · rename_i hfull
        rw [Bool.or_eq_true, decide_eq_true_eq, decide_eq_true_eq] at hfull
        exact ⟨[], old :: rest, rfl, rfl, hfull, by simp⟩

/-- How an insert changes the entries: those of other keys that have not expired lose
some from the front, each because the new entry would not fit beside it and what
follows, and the new entry goes to the end unless it is larger than the cache. -/
def Inserted (s after : State) (now : Nat) (entry : Entry) : Prop :=
  ∃ evicted kept, others entry.key (s.entries.filter (·.value.fresh now)) = evicted ++ kept ∧
    (∀ i < evicted.length, Full entry.bytes ((evicted ++ kept).drop i)) ∧
    (maxBytes < entry.bytes ∧ evicted = [] ∧ after.entries = kept ∨
      entry.bytes ≤ maxBytes ∧ after.entries = kept ++ [entry])

/-- Taking out the entry of a key succeeds and leaves the others. -/
theorem supersede_eq (h : Sound s log) :
    s.supersede key = some { s with
      entries := others key s.entries, bytes := totalBytes (others key s.entries) } := by
  unfold State.supersede
  cases hfind : s.entries.find? (·.key == key) with
  | none =>
      dsimp only
      rw [others_of_notFound hfind, ← h.counted]
  | some old =>
      have hbytes := totalBytes_eraseP hfind
      have hcounted := h.counted
      dsimp only
      rw [if_pos (by omega), eraseP_eq_others h.ordered.nodup]
      rw [eraseP_eq_others h.ordered.nodup] at hbytes
      congr 2
      omega

/-- Placing an entry of a new key succeeds. -/
theorem place_spec {entry : Entry} (hcounted : s.bytes = totalBytes s.entries) :
    ∃ after evicted kept, s.place entry = some after ∧ s.entries = evicted ++ kept ∧
      (∀ i < evicted.length, Full entry.bytes (s.entries.drop i)) ∧
      after.flights = s.flights ∧ after.bytes = totalBytes after.entries ∧
      (maxBytes < entry.bytes ∧ evicted = [] ∧ after.entries = kept ∨
        entry.bytes ≤ maxBytes ∧ ¬ Full entry.bytes kept ∧ after.entries = kept ++ [entry]) := by
  unfold State.place
  split
  · rename_i hlarge
    exact ⟨s, [], s.entries, rfl, rfl, by simp, rfl, hcounted, .inl ⟨hlarge, rfl, rfl⟩⟩
  · rename_i hsmall
    obtain ⟨evicted, kept, hsplit, hroom, hfits, hall⟩ :=
      makeRoom_spec (Nat.le_of_not_lt hsmall) s.entries
    rw [hcounted, hroom]
    refine ⟨_, evicted, kept, rfl, hsplit, hall, rfl, ?_,
      .inr ⟨Nat.le_of_not_lt hsmall, hfits, rfl⟩⟩
    rw [totalBytes_append]
    rfl

/-- An insert succeeds, keeps what holds between calls and evicts in the order of use. -/
theorem insert_sound (h : Sound s log) :
    ∃ after, s.insert now held key value = some after ∧
      Sound after (log ++ [.inserted key value]) ∧ Inserted s after now ⟨key, value⟩ := by
  have hexpired : Sound (s.expire now held) log := h.expire
  obtain ⟨after, evicted, kept, hplace, hsplit, hfull, hflights, hcounted, hafter⟩ :=
    @place_spec { s.expire now held with
      entries := others key (s.expire now held).entries
      bytes := totalBytes (others key (s.expire now held).entries) } { key, value } rfl
  dsimp only at hsplit hfull hflights
  have hinsert : s.insert now held key value = some after := by
    rw [State.insert, supersede_eq hexpired]
    exact hplace
  have hordered : Recency.Ordered (uses log) (kept.map (·.key)) := by
    refine hexpired.ordered.sublist (List.Sublist.map _ ?_)
    refine List.Sublist.trans ?_ (List.filter_sublist (p := fun e => decide (e.key ≠ key)))
    rw [← others, hsplit]
    exact List.sublist_append_right _ _
  have hnew : key ∉ kept.map (·.key) := by
    intro hmem
    have hothers : key ∈ (others key (s.expire now held).entries).map (·.key) := by
      rw [hsplit, List.map_append]
      exact List.mem_append_right _ hmem
    exact key_notMem_others _ hothers
  have hcurrent : ∀ entry ∈ kept,
      latest (log ++ [.inserted key value]) entry.key = some entry.value := by
    intro entry hentry
    have hmem : entry ∈ others key (s.expire now held).entries := by
      rw [hsplit]
      exact List.mem_append_right _ hentry
    have hne : entry.key ≠ key := of_decide_eq_true (List.mem_filter.mp hmem).2
    have hevent : Event.insertedFor entry.key (.inserted key value) = none :=
      if_neg (Ne.symm hne)
    rw [latest_of_ne hevent]
    exact hexpired.current entry (List.mem_of_mem_filter hmem)
  have huses : uses (log ++ [.inserted key value]) = uses log ++ [key] := by
    simp [uses_concat, Event.use]
  have hlength : kept.length ≤ (s.expire now held).entries.length := by
    have := List.length_filter_le (fun e => decide (e.key ≠ key)) (s.expire now held).entries
    rw [← others, hsplit, List.length_append] at this
    omega
  have hbytes : totalBytes kept ≤ maxBytes := by
    have hkept := totalBytes_sublist (List.sublist_append_right evicted kept)
    rw [← hsplit] at hkept
    have hothers := totalBytes_sublist
      (List.filter_sublist (p := fun e => decide (e.key ≠ key))
        (l := (s.expire now held).entries))
    have hwithin := hexpired.within
    rw [hexpired.counted] at hwithin
    rw [← others] at hothers
    omega
  rw [hsplit] at hfull
  refine ⟨after, hinsert, ?_, evicted, kept, hsplit, hfull, ?_⟩
  · rcases hafter with ⟨hlarge, -, hentries⟩ | ⟨hsmall, hfits, hentries⟩
    · refine ⟨hcounted, ?_, ?_, hflights ▸ hexpired.flying, ?_, ?_⟩
      · rw [hcounted, hentries]
        exact hbytes
      · rw [hentries]
        exact Nat.le_trans hlength hexpired.few
      · rw [hentries, huses]
        exact hordered.use hnew
      · rw [hentries]
        exact hcurrent
    · unfold Full at hfits
      refine ⟨hcounted, ?_, ?_, hflights ▸ hexpired.flying, ?_, ?_⟩
      · rw [hcounted, hentries, totalBytes_append]
        simp only [totalBytes, List.map_cons, List.map_nil, List.sum_cons, List.sum_nil] at hfits ⊢
        omega
      · rw [hentries, List.length_append, List.length_singleton]
        omega
      · rw [hentries, huses, List.map_append]
        exact hordered.push hnew
      · rw [hentries]
        intro entry hentry
        rcases List.mem_append.mp hentry with hentry | hentry
        · exact hcurrent entry hentry
        · rw [List.mem_singleton.mp hentry]
          exact latest_inserted
  · rcases hafter with ⟨hlarge, hnone, hentries⟩ | ⟨hsmall, -, hentries⟩
    · exact .inl ⟨hlarge, hnone, hentries⟩
    · exact .inr ⟨hsmall, hentries⟩

/-! ## Flights -/

theorem flight_sound {upgrades : Nat → Bool} {new : Nat} (h : Sound s log) :
    Sound (s.flight now held upgrades key new).1
      (log ++ [.flown key (s.flight now held upgrades key new).2]) := by
  have hexpired : Sound (s.expire now held) log := h.expire
  have hkept : ∀ result, Sound (s.expire now held) (log ++ [.flown key result]) := by
    intro result
    have huses : uses (log ++ [.flown key result]) = uses log := by simp [uses_concat, Event.use]
    exact { hexpired with
      ordered := huses ▸ hexpired.ordered
      current := fun entry hentry => (latest_of_ne rfl).trans (hexpired.current entry hentry) }
  unfold State.flight
  dsimp only
  split
  · exact hkept _
  · split
    · exact hkept _
    · rename_i hroom
      refine { hkept (some new) with flying := ?_ }
      have := List.length_filter_le (fun found : Key × Nat => found.1 != key)
        (s.expire now held).flights
      rw [List.length_append, List.length_singleton]
      omega

/-! ## Runs -/

theorem step_sound {state : State × List Event} (h : Sound state.1 state.2) (call : Call) :
    ∃ next, step state call = some next ∧ Sound next.1 next.2 := by
  unfold step Call.run
  cases call.operation with
  | get key => exact ⟨_, rfl, get_sound h⟩
  | insert key value =>
      obtain ⟨after, hinsert, hsound, -⟩ :
          ∃ after, state.1.insert call.now call.held key value = some after
            ∧ Sound after (state.2 ++ [.inserted key value])
            ∧ Inserted state.1 after call.now ⟨key, value⟩ :=
        insert_sound h
      dsimp only
      rw [hinsert]
      exact ⟨_, rfl, hsound⟩
  | flight key new upgrades => exact ⟨_, rfl, flight_sound h⟩

theorem run_sound (calls : List Call) (state : State × List Event) (h : Sound state.1 state.2) :
    ∃ next, calls.foldlM step state = some next ∧ Sound next.1 next.2 := by
  induction calls generalizing state with
  | nil => exact ⟨state, rfl, h⟩
  | cons call calls ih =>
      obtain ⟨middle, hstep, hmiddle⟩ := step_sound h call
      obtain ⟨next, hrun, hnext⟩ := ih middle hmiddle
      refine ⟨next, ?_, hnext⟩
      rw [List.foldlM_cons, hstep]
      exact hrun

/-- After any calls the bytes are those of the entries and within the limit, the entries
few and of different keys, ordered by their last use and each with the value inserted for
it last. Whatever is read next is the latest value inserted for its key and has not
expired; whatever is inserted next succeeds and evicts in the order of use, only while it
would not fit. -/
theorem cache_spec (calls : List Call) :
    ∃ s log, run calls = some (s, log) ∧
      (s.bytes = totalBytes s.entries ∧ s.bytes ≤ maxBytes ∧ s.entries.length ≤ maxEntries ∧
        (s.entries.map (·.key)).Nodup ∧ s.flights.length ≤ maxEntries ∧
        Recency.Ordered (uses log) (s.entries.map (·.key)) ∧
        ∀ entry ∈ s.entries, latest log entry.key = some entry.value) ∧
      (∀ now held key value, (s.get now held key).2 = some value →
        latest log key = some value ∧ now - value.created < value.ttl) ∧
      ∀ now held key value, ∃ after, s.insert now held key value = some after ∧
        Inserted s after now ⟨key, value⟩ := by
  obtain ⟨⟨s, log⟩, hrun, h⟩ := run_sound calls ({}, []) Sound.empty
  refine ⟨s, log, hrun, ⟨h.counted, h.within, h.few, h.ordered.nodup, h.flying, h.ordered,
    h.current⟩, fun _ _ _ _ hget => get_latest h hget, fun now held key value => ?_⟩
  obtain ⟨after, hinsert, -, hinserted⟩ := insert_sound h
  exact ⟨after, hinsert, hinserted⟩

end HealthMonitor.ScopeCache
