import HealthMonitor.Library.Lending
import HealthMonitor.Providers.CommonParallel

/-!
# InventoryCache

Bounded inventory cache with coalesced concurrent reads. Calls of `load` interleave at
their awaits: while they look for the slot of their key, wait for its lock, and fetch.
A slot that is evicted lives on with the calls that hold it.

The environment decides which key an insertion evicts, whether bytes fit the budgets, what
a fetch is answered with, and when a call is cancelled or dropped.
-/

namespace HealthMonitor.Providers.InventoryCache

/-- A `load` between its awaits. -/
inductive Stage where
  | looking
  | waiting (slot : Nat)
  | locked (slot : Nat)
  | fetching (slot : Nat)
  | returned
  deriving DecidableEq

structure Call where
  job : Job
  endpoint : Endpoint
  stage : Stage

/-- `Arc<Mutex<Option<Entry>>>`. -/
structure Slot where
  holder : Option Nat := none
  entry : Option (Lending.Item String Check Fetched) := none

/-- The slot a call refers to. -/
def Stage.slot : Stage → Option Nat
  | .looking => none
  | .waiting slot => some slot
  | .locked slot => some slot
  | .fetching slot => some slot
  | .returned => none

/-- The slot whose lock a call has. -/
def Stage.held : Stage → Option Nat
  | .locked slot => some slot
  | .fetching slot => some slot
  | _ => none

/-- `registry` is the bounded map. `fetches` numbers the fetches; no step depends on it. -/
structure State where
  registry : String → Option Nat
  slots : List Slot
  calls : List Call
  now : Nat
  fetches : Nat

/-- A call and the value it is answered with. -/
structure Delivery where
  call : Call
  loan : Lending.Loan String Check Fetched

inductive Event where
  | look (evicted : Option String)
  | lock
  | cancel
  | read (claimed : Bool)
  | finish (value : Fetched) (admitted : Bool)
  | drop

inductive Action where
  | load (job : Job) (endpoint : Endpoint)
  | advance (call : Nat) (event : Event)
  | pass (nanoseconds : Nat)

def start : State where
  registry _ := none
  slots := []
  calls := []
  now := 0
  fetches := 0

/-- Only results without a gap are kept. -/
def whole (value : Fetched) : Bool :=
  value.result.operations.all (·.coverage == .complete)

def interval (job : Job) : Nat := job.settings.interval.seconds * 1000000000

/-- The entry a call is served from, if it is young enough and the check has not had it. -/
def usable (now : Nat) (job : Job) (item : Lending.Item String Check Fetched) : Bool :=
  now - item.time < interval job && !item.consumers.contains job.check

namespace State

/-- Leave the slot with that entry and return. -/
def leave (s : State) (c : Nat) (call : Call) (slot : Nat)
    (entry : Option (Lending.Item String Check Fetched)) : State :=
  { s with
    slots := s.slots.set slot { holder := none, entry }
    calls := s.calls.set c { call with stage := .returned } }

def entry (s : State) (slot : Nat) : Option (Lending.Item String Check Fetched) :=
  s.slots[slot]?.bind (·.entry)

def holder (s : State) (slot : Nat) : Option Nat := s.slots[slot]?.bind (·.holder)

end State

section step

variable (key : Job → Endpoint → String)

/-- The slot of the key, or a new one, for which another key may have to go. -/
def look (s : State) (c : Nat) (call : Call) (evicted : Option String) : State :=
  match s.registry (key call.job call.endpoint) with
  | some slot => { s with calls := s.calls.set c { call with stage := .waiting slot } }
  | none =>
      let kept := fun k => if evicted = some k then none else s.registry k
      { s with
        registry := Function.update kept (key call.job call.endpoint) (some s.slots.length)
        slots := s.slots ++ [{}]
        calls := s.calls.set c { call with stage := .waiting s.slots.length } }

def lock (s : State) (c : Nat) (call : Call) (slot : Nat) : State :=
  match s.slots[slot]? with
  | some ⟨none, entry⟩ =>
      { s with
        slots := s.slots.set slot { holder := some c, entry }
        calls := s.calls.set c { call with stage := .locked slot } }
  | _ => s

/-- Under the lock: the kept value, if its bytes can be claimed, or a fetch. -/
def read (s : State) (c : Nat) (call : Call) (slot : Nat) (claimed : Bool) :
    State × List Delivery :=
  match s.entry slot with
  | some item =>
      if usable s.now call.job item then
        if claimed then
          (s.leave c call slot (some { item with consumers := call.job.check :: item.consumers }),
            [⟨call, item.lent call.job.check s.now (interval call.job)⟩])
        else (s.leave c call slot (some item), [])
      else
        ({ s with
          slots := s.slots.set slot { holder := some c }
          calls := s.calls.set c { call with stage := .fetching slot } }, [])
  | none =>
      ({ s with
        slots := s.slots.set slot { holder := some c }
        calls := s.calls.set c { call with stage := .fetching slot } }, [])

/-- What a fetch is answered with goes to the call first. -/
def fetched (s : State) (call : Call) (value : Fetched) : Lending.Loan String Check Fetched where
  origin := s.fetches
  key := key call.job call.endpoint
  time := s.now
  age := interval call.job
  value
  consumer := call.job.check
  kept := false

def finish (s : State) (c : Nat) (call : Call) (slot : Nat) (value : Fetched) (admitted : Bool) :
    State × List Delivery :=
  let loan := fetched key s call value
  let entry := if whole value && admitted then some loan.shelve else none
  ({ s.leave c call slot entry with fetches := s.fetches + 1 }, [⟨call, loan⟩])

/-- A call that is dropped gives its lock back. -/
def drop (s : State) (c : Nat) (call : Call) : State :=
  match call.stage with
  | .locked slot => s.leave c call slot (s.entry slot)
  | .fetching slot => s.leave c call slot (s.entry slot)
  | _ => { s with calls := s.calls.set c { call with stage := .returned } }

def advance (s : State) (c : Nat) (call : Call) (event : Event) :
    State × List Delivery :=
  match call.stage, event with
  | .looking, .look evicted => (look key s c call evicted, [])
  | .waiting slot, .lock => (lock s c call slot, [])
  | .waiting _, .cancel =>
      ({ s with calls := s.calls.set c { call with stage := .returned } }, [])
  | .locked slot, .read claimed => read s c call slot claimed
  | .fetching slot, .finish value admitted => finish key s c call slot value admitted
  | _, .drop => (drop s c call, [])
  | _, _ => (s, [])

def step (s : State) : Action → State × List Delivery
  | .load job endpoint => ({ s with calls := s.calls ++ [⟨job, endpoint, .looking⟩] }, [])
  | .advance c event =>
      match s.calls[c]? with
      | some call => advance key s c call event
      | none => (s, [])
  | .pass nanoseconds => ({ s with now := s.now + nanoseconds }, [])

def process : Process State Action Delivery := ⟨step key⟩

end step

/-! ## Locks -/

/-- `owner` is the key a slot was made for. Whoever refers to a slot has its key, and a
slot is locked by the call that holds it. -/
structure Placed (key : Job → Endpoint → String) (owner : Nat → String) (s : State) : Prop where
  registered : ∀ k i, s.registry k = some i → i < s.slots.length ∧ owner i = k
  placed : ∀ (c : Nat) (call : Call) (i : Nat), s.calls[c]? = some call → call.stage.slot = some i →
    i < s.slots.length ∧ owner i = key call.job call.endpoint
  shelved : ∀ i item, s.entry i = some item → owner i = item.key
  locked : ∀ i c, s.holder i = some c ↔
    ∃ call : Call, s.calls[c]? = some call ∧ call.stage.held = some i

namespace Placed

variable {key : Job → Endpoint → String} {owner : Nat → String} {s : State} {c : Nat}
  {call : Call}

theorem start (owner : Nat → String) : Placed key owner start := by
  constructor
  · intro k i h
    cases h
  · intro c call i h
    simp [InventoryCache.start] at h
  · intro i item h
    simp [InventoryCache.start, State.entry] at h
  · intro i c
    simp [InventoryCache.start, State.holder]

theorem getElem?_set_call {l : List Call} {c d : Nat} {old new call : Call}
    (hold : l[c]? = some old) (h : (l.set c new)[d]? = some call) :
    (d = c ∧ call = new) ∨ (d ≠ c ∧ l[d]? = some call) := by
  by_cases hdc : d = c
  · subst hdc
    obtain ⟨hlt, -⟩ := List.getElem?_eq_some_iff.mp hold
    rw [List.getElem?_set_self hlt] at h
    exact .inl ⟨rfl, (Option.some.inj h).symm⟩
  · rw [List.getElem?_set_ne (Ne.symm hdc)] at h
    exact .inr ⟨hdc, h⟩

/-- A call that holds no lock moves on without taking one. -/
theorem shift (h : Placed key owner s) (hc : s.calls[c]? = some call)
    (hheld : call.stage.held = none) {stage : Stage} (hnew : stage.held = none)
    (hslot : ∀ i, stage.slot = some i → i < s.slots.length
      ∧ owner i = key call.job call.endpoint) :
    Placed key owner { s with calls := s.calls.set c { call with stage := stage } } := by
  obtain ⟨hlt, -⟩ := List.getElem?_eq_some_iff.mp hc
  refine ⟨h.registered, fun d other i hd hi => ?_, h.shelved, fun i d => ?_⟩
  · rcases getElem?_set_call hc hd with ⟨-, rfl⟩ | ⟨-, hd⟩
    · exact hslot i hi
    · exact h.placed d other i hd hi
  · rw [show State.holder { s with calls := s.calls.set c { call with stage := stage } } i
      = s.holder i from rfl, h.locked]
    constructor
    · rintro ⟨other, hd, hother⟩
      refine ⟨other, ?_, hother⟩
      rw [List.getElem?_set_ne, hd]
      rintro rfl
      rw [hc] at hd
      cases hd
      rw [hheld] at hother
      cases hother
    · rintro ⟨other, hd, hother⟩
      rcases getElem?_set_call hc hd with ⟨-, rfl⟩ | ⟨-, hd⟩
      · rw [hnew] at hother
        cases hother
      · exact ⟨other, hd, hother⟩

/-- A call rewrites a slot that is free or its own. -/
theorem rewrite (h : Placed key owner s) (hc : s.calls[c]? = some call) {slot : Nat}
    (hplace : call.stage.slot = some slot) (hheld : ∀ i, call.stage.held = some i → i = slot)
    (hfree : s.holder slot = none ∨ s.holder slot = some c) {stage : Stage}
    (hslot : ∀ i, stage.slot = some i → i = slot) {new : Slot}
    (hlock : ∀ i, stage.held = some i ↔ i = slot ∧ new.holder = some c)
    (hown : ∀ d, new.holder = some d → d = c)
    (hkey : ∀ item, new.entry = some item → item.key = key call.job call.endpoint) :
    Placed key owner
      { s with
        slots := s.slots.set slot new
        calls := s.calls.set c { call with stage := stage } } := by
  obtain ⟨hlt, howner⟩ := h.placed c call slot hc hplace
  obtain ⟨hclt, -⟩ := List.getElem?_eq_some_iff.mp hc
  have hslots : ∀ i, (s.slots.set slot new)[i]? = if i = slot then some new else s.slots[i]? := by
    intro i
    by_cases hi : i = slot
    · rw [hi, List.getElem?_set_self hlt, if_pos rfl]
    · rw [List.getElem?_set_ne (Ne.symm hi), if_neg hi]
  refine ⟨fun k i hk => ?_, fun d other i hd hi => ?_, fun i item hi => ?_, fun i d => ?_⟩
  · rw [List.length_set]
    exact h.registered k i hk
  · rw [List.length_set]
    rcases getElem?_set_call hc hd with ⟨-, rfl⟩ | ⟨-, hd⟩
    · rw [hslot i hi]
      exact ⟨hlt, howner⟩
    · exact h.placed d other i hd hi
  · simp only [State.entry, hslots] at hi
    split at hi
    · next heq =>
        rw [heq, howner]
        exact (hkey item hi).symm
    · exact h.shelved i item hi
  · simp only [State.holder, hslots]
    by_cases hi : i = slot
    · subst hi
      rw [if_pos rfl]
      constructor
      · intro hnew
        obtain rfl := hown d hnew
        exact ⟨_, List.getElem?_set_self hclt, (hlock i).mpr ⟨rfl, hnew⟩⟩
      · rintro ⟨other, hd, hother⟩
        rcases getElem?_set_call hc hd with ⟨rfl, rfl⟩ | ⟨hne, hd⟩
        · exact ((hlock i).mp hother).2
        · -- No other call holds the slot.
          have hholder := (h.locked i d).mpr ⟨other, hd, hother⟩
          rcases hfree with hnone | hself
          · rw [hnone] at hholder
            cases hholder
          · rw [hself] at hholder
            exact absurd (Option.some.inj hholder).symm hne
    · rw [if_neg hi]
      refine (h.locked i d).trans ⟨?_, ?_⟩
      · rintro ⟨other, hd, hother⟩
        refine ⟨other, ?_, hother⟩
        rw [List.getElem?_set_ne, hd]
        rintro rfl
        rw [hc] at hd
        cases hd
        exact hi (hheld i hother)
      · rintro ⟨other, hd, hother⟩
        rcases getElem?_set_call hc hd with ⟨-, rfl⟩ | ⟨-, hd⟩
        · exact absurd ((hlock i).mp hother).1 hi
        · exact ⟨other, hd, hother⟩

/-- A call that has the lock of its slot gives it back. -/
theorem leave (h : Placed key owner s) (hc : s.calls[c]? = some call) {slot : Nat}
    (hplace : call.stage.slot = some slot) (hheld : call.stage.held = some slot)
    {entry : Option (Lending.Item String Check Fetched)}
    (hkey : ∀ item, entry = some item → item.key = key call.job call.endpoint) :
    Placed key owner (s.leave c call slot entry) := by
  refine h.rewrite hc hplace (fun i hi => ?_) (.inr ((h.locked slot c).mpr ⟨call, hc, hheld⟩))
    (fun i hi => by cases hi) (fun i => ?_) (fun d hd => by cases hd) hkey
  · rw [hheld] at hi
    exact (Option.some.inj hi).symm
  · simp [Stage.held]

theorem count (h : Placed key owner s) (fetches : Nat) :
    Placed key owner { s with fetches := fetches } :=
  ⟨h.registered, h.placed, h.shelved, h.locked⟩

/-- What is kept in the slot of a call was fetched for its key. -/
theorem item_key (h : Placed key owner s) (hc : s.calls[c]? = some call) {slot : Nat}
    (hplace : call.stage.slot = some slot) {item : Lending.Item String Check Fetched}
    (hitem : s.entry slot = some item) : item.key = key call.job call.endpoint := by
  rw [← h.shelved slot item hitem]
  exact (h.placed c call slot hc hplace).2

/-- A new slot is the first of its number, so its key is free to choose. -/
theorem grow (h : Placed key owner s) (k : String) (evicted : Option String) :
    Placed key (Function.update owner s.slots.length k)
        { s with
          registry := Function.update (fun k => if evicted = some k then none else s.registry k)
            k (some s.slots.length)
          slots := s.slots ++ [{}] }
      ∧ State.entry { s with slots := s.slots ++ [{}] } = s.entry := by
  have hother : ∀ {i}, i < s.slots.length →
      Function.update owner s.slots.length k i = owner i := fun hi =>
    Function.update_of_ne (Nat.ne_of_lt hi) _ _
  have hslots : ∀ i : Nat, (s.slots ++ [({} : Slot)])[i]? = s.slots[i]?
      ∨ (s.slots ++ [({} : Slot)])[i]? = some ({} : Slot) ∧ s.slots[i]? = none := by
    intro i
    rcases Nat.lt_trichotomy i s.slots.length with hi | hi | hi
    · exact .inl (List.getElem?_append_left hi)
    · subst hi
      exact .inr ⟨by simp, by simp⟩
    · refine .inl ?_
      rw [List.getElem?_eq_none (Nat.le_of_lt hi), List.getElem?_eq_none]
      rw [List.length_append]
      exact hi
  have hentry : State.entry { s with slots := s.slots ++ [{}] } = s.entry := by
    funext i
    unfold State.entry
    rcases hslots i with hi | ⟨hi, hnone⟩
    · exact congrArg (Option.bind · Slot.entry) hi
    · rw [hi, hnone]
      rfl
  refine ⟨⟨fun k' i hi => ?_, fun d other i hd hi => ?_, fun i item hi => ?_, fun i d => ?_⟩,
    hentry⟩
  · rw [List.length_append]
    dsimp only at hi
    by_cases hk : k' = k
    · rw [hk, Function.update_self] at hi
      obtain rfl := Option.some.inj hi
      exact ⟨Nat.lt_succ_self _, by rw [Function.update_self, hk]⟩
    · rw [Function.update_of_ne hk] at hi
      split at hi
      · cases hi
      · obtain ⟨hlt, howner⟩ := h.registered k' i hi
        exact ⟨Nat.lt_succ_of_lt hlt, by rw [hother hlt, howner]⟩
  · rw [List.length_append]
    obtain ⟨hlt, howner⟩ := h.placed d other i hd hi
    exact ⟨Nat.lt_succ_of_lt hlt, by rw [hother hlt, howner]⟩
  · have hold : s.entry i = some item := (congrFun hentry i).symm.trans hi
    have hlt : i < s.slots.length := by
      by_contra hge
      rw [State.entry, List.getElem?_eq_none (Nat.not_lt.mp hge)] at hold
      cases hold
    rw [hother hlt]
    exact h.shelved i item hold
  · rw [← h.locked]
    unfold State.holder
    rcases hslots i with hi | ⟨hi, hnone⟩
    · rw [show ({ s with slots := s.slots ++ [{}] } : State).slots[i]? = s.slots[i]? from hi]
    · rw [hnone]
      simp [hi]

end Placed

/-! ## What is served -/

variable {key : Job → Endpoint → String}

/-- The locks are in order, and so are the values served so far. -/
structure Sane (key : Job → Endpoint → String) (s : State) (log : List Delivery) : Prop where
  placed : ∃ owner, Placed key owner s
  sound : Lending.Sound (whole · = true) s.entry s.fetches (log.map (·.loan))
  asked : ∀ d ∈ log, d.loan.key = key d.call.job d.call.endpoint
    ∧ d.loan.consumer = d.call.job.check ∧ d.loan.age = interval d.call.job

theorem getElem?_concat_call {l : List Call} {new call : Call} {c : Nat}
    (h : (l ++ [new])[c]? = some call) : l[c]? = some call ∨ call = new := by
  rcases Nat.lt_or_ge c l.length with hlt | hge
  · rw [List.getElem?_append_left hlt] at h
    exact .inl h
  · rw [List.getElem?_append_right hge] at h
    obtain ⟨hlt, hnew⟩ := List.getElem?_eq_some_iff.mp h
    exact .inr (by simpa using hnew.symm)

theorem entry_set (s : State) {slot : Nat} (hlt : slot < s.slots.length) (new : Slot)
    (calls : List Call) :
    State.entry { s with slots := s.slots.set slot new, calls }
      = Function.update s.entry slot new.entry := by
  funext i
  unfold State.entry
  by_cases hi : i = slot
  · rw [hi, Function.update_self, List.getElem?_set_self hlt]
    rfl
  · rw [Function.update_of_ne hi, List.getElem?_set_ne (Ne.symm hi)]

theorem entry_leave (s : State) {slot : Nat} (hlt : slot < s.slots.length) (c : Nat)
    (call : Call) (entry : Option (Lending.Item String Check Fetched)) :
    (s.leave c call slot entry).entry = Function.update s.entry slot entry :=
  entry_set s hlt _ _

namespace Sane

variable {s : State} {log : List Delivery} {c : Nat} {call : Call}

/-- A step that serves nothing and leaves what is kept. -/
theorem quiet (h : Sane key s log) {t : State} (hplaced : ∃ owner, Placed key owner t)
    (hentry : t.entry = s.entry) (hfetches : t.fetches = s.fetches) : Sane key t (log ++ []) := by
  rw [List.append_nil]
  exact ⟨hplaced, by rw [hentry, hfetches]; exact h.sound, h.asked⟩

theorem look (h : Sane key s log) (hc : s.calls[c]? = some call) (hstage : call.stage = .looking)
    (evicted : Option String) : Sane key (look key s c call evicted) (log ++ []) := by
  obtain ⟨owner, hplaced⟩ := h.placed
  have hheld : call.stage.held = none := by
    rw [hstage]
    rfl
  unfold InventoryCache.look
  split
  · next slot hslot =>
      obtain ⟨hlt, howner⟩ := hplaced.registered _ slot hslot
      refine h.quiet ⟨owner, hplaced.shift hc hheld rfl fun i hi => ?_⟩ rfl rfl
      obtain rfl := Option.some.inj hi
      exact ⟨hlt, howner⟩
  · obtain ⟨hgrown, hentry⟩ := hplaced.grow (key call.job call.endpoint) evicted
    refine h.quiet ⟨_, hgrown.shift hc hheld rfl fun i hi => ?_⟩ hentry rfl
    obtain rfl := Option.some.inj hi
    rw [List.length_append, Function.update_self]
    exact ⟨Nat.lt_succ_self _, rfl⟩

theorem lock (h : Sane key s log) (hc : s.calls[c]? = some call) {slot : Nat}
    (hstage : call.stage = .waiting slot) :
    Sane key (lock s c call slot) (log ++ []) := by
  obtain ⟨owner, hplaced⟩ := h.placed
  have hplace : call.stage.slot = some slot := by
    rw [hstage]
    rfl
  obtain ⟨hlt, -⟩ := hplaced.placed c call slot hc hplace
  unfold InventoryCache.lock
  split
  · next entry hslot =>
      have hsame : s.entry slot = entry := by
        rw [State.entry, hslot]
        rfl
      refine h.quiet ⟨owner, hplaced.rewrite hc hplace (fun i hi => ?_) (.inl ?_)
        (fun i hi => by cases hi; rfl) (fun i => ?_)
        (fun d hd => (Option.some.inj hd).symm) (fun item hitem => ?_)⟩ ?_ rfl
      · rw [hstage] at hi
        cases hi
      · rw [State.holder, hslot]
        rfl
      · simp [Stage.held, eq_comm]
      · exact hplaced.item_key hc hplace (hsame.trans hitem)
      · rw [entry_set s hlt, ← hsame, Function.update_eq_self]
  · exact h.quiet h.placed rfl rfl

theorem read (h : Sane key s log) (hc : s.calls[c]? = some call) {slot : Nat}
    (hstage : call.stage = .locked slot) (claimed : Bool) :
    Sane key (read s c call slot claimed).1 (log ++ (read s c call slot claimed).2) := by
  obtain ⟨owner, hplaced⟩ := h.placed
  have hplace : call.stage.slot = some slot := by
    rw [hstage]
    rfl
  have hheld : call.stage.held = some slot := by
    rw [hstage]
    rfl
  obtain ⟨hlt, -⟩ := hplaced.placed c call slot hc hplace
  -- The slot is emptied before the fetch.
  have hfetch : Sane key
      { s with
        slots := s.slots.set slot { holder := some c }
        calls := s.calls.set c { call with stage := .fetching slot } } (log ++ []) := by
    rw [List.append_nil]
    refine ⟨⟨owner, hplaced.rewrite hc hplace (fun i hi => ?_)
      (.inr ((hplaced.locked slot c).mpr ⟨call, hc, hheld⟩))
      (fun i hi => by cases hi; rfl) (fun i => ?_)
      (fun d hd => (Option.some.inj hd).symm) (fun item hitem => by cases hitem)⟩, ?_, h.asked⟩
    · rw [hheld] at hi
      exact (Option.some.inj hi).symm
    · simp [Stage.held, eq_comm]
    · rw [entry_set s hlt]
      exact h.sound.clear slot
  unfold InventoryCache.read
  split
  · next item hitem =>
      have hkey := hplaced.item_key hc hplace hitem
      split
      · next husable =>
          simp only [usable, Bool.and_eq_true, decide_eq_true_eq, Bool.not_eq_true',
            List.contains_eq_mem, decide_eq_false_iff_not] at husable
          split
          · refine ⟨⟨owner, hplaced.leave hc hplace hheld fun kept hkept => ?_⟩, ?_, ?_⟩
            · obtain rfl := Option.some.inj hkept
              exact hkey
            · rw [entry_leave s hlt, List.map_append]
              exact h.sound.lend hitem husable.2 husable.1
            · intro d hd
              rcases List.mem_append.mp hd with hd | hd
              · exact h.asked d hd
              · rw [List.mem_singleton.mp hd]
                exact ⟨hkey, rfl, rfl⟩
          · refine h.quiet ⟨owner, hplaced.leave hc hplace hheld fun kept hkept => ?_⟩ ?_ rfl
            · obtain rfl := Option.some.inj hkept
              exact hkey
            · rw [entry_leave s hlt, ← hitem, Function.update_eq_self]
      · exact hfetch
  · exact hfetch

theorem finish (h : Sane key s log) (hc : s.calls[c]? = some call) {slot : Nat}
    (hstage : call.stage = .fetching slot) (value : Fetched) (admitted : Bool) :
    Sane key (finish key s c call slot value admitted).1
      (log ++ (finish key s c call slot value admitted).2) := by
  obtain ⟨owner, hplaced⟩ := h.placed
  have hplace : call.stage.slot = some slot := by
    rw [hstage]
    rfl
  have hheld : call.stage.held = some slot := by
    rw [hstage]
    rfl
  obtain ⟨hlt, -⟩ := hplaced.placed c call slot hc hplace
  unfold InventoryCache.finish
  dsimp only
  refine ⟨⟨owner, (hplaced.leave hc hplace hheld fun item hitem => ?_).count _⟩, ?_, ?_⟩
  · split at hitem
    · obtain rfl := Option.some.inj hitem
      rfl
    · cases hitem
  · rw [List.map_append]
    show Lending.Sound _ (s.leave c call slot _).entry _ (_ ++ [fetched key s call value])
    rw [entry_leave s hlt]
    split
    · next hkeep =>
        rw [Bool.and_eq_true] at hkeep
        exact h.sound.keep rfl rfl hkeep.1 slot
    · exact (h.sound.pass rfl rfl).clear slot
  · intro d hd
    rcases List.mem_append.mp hd with hd | hd
    · exact h.asked d hd
    · rw [List.mem_singleton.mp hd]
      exact ⟨rfl, rfl, rfl⟩

theorem drop (h : Sane key s log) (hc : s.calls[c]? = some call) :
    Sane key (drop s c call) (log ++ []) := by
  obtain ⟨owner, hplaced⟩ := h.placed
  have hleave : ∀ slot, call.stage.slot = some slot → call.stage.held = some slot →
      Sane key (s.leave c call slot (s.entry slot)) (log ++ []) := by
    intro slot hplace hheld
    obtain ⟨hlt, -⟩ := hplaced.placed c call slot hc hplace
    refine h.quiet ⟨owner, hplaced.leave hc hplace hheld fun item hitem =>
      hplaced.item_key hc hplace hitem⟩ ?_ rfl
    rw [entry_leave s hlt, Function.update_eq_self]
  have hreturn : call.stage.held = none →
      Sane key { s with calls := s.calls.set c { call with stage := .returned } }
        (log ++ []) := fun hheld =>
    h.quiet ⟨owner, hplaced.shift hc hheld rfl fun i hi => by cases hi⟩ rfl rfl
  unfold InventoryCache.drop
  cases hstage : call.stage with
  | looking => exact hreturn (by rw [hstage]; rfl)
  | waiting slot => exact hreturn (by rw [hstage]; rfl)
  | locked slot => exact hleave slot (by rw [hstage]; rfl) (by rw [hstage]; rfl)
  | fetching slot => exact hleave slot (by rw [hstage]; rfl) (by rw [hstage]; rfl)
  | returned => exact hreturn (by rw [hstage]; rfl)

theorem advance (h : Sane key s log) (hc : s.calls[c]? = some call) (event : Event) :
    Sane key (advance key s c call event).1 (log ++ (advance key s c call event).2) := by
  obtain ⟨owner, hplaced⟩ := h.placed
  have hstay : Sane key s (log ++ []) := h.quiet h.placed rfl rfl
  cases hstage : call.stage with
  | looking =>
      cases event with
      | look evicted =>
          simp only [InventoryCache.advance, hstage]
          exact h.look hc hstage evicted
      | drop =>
          simp only [InventoryCache.advance, hstage]
          exact h.drop hc
      | _ =>
          simp only [InventoryCache.advance, hstage]
          exact hstay
  | waiting slot =>
      cases event with
      | lock =>
          simp only [InventoryCache.advance, hstage]
          exact h.lock hc hstage
      | cancel =>
          simp only [InventoryCache.advance, hstage]
          exact h.quiet ⟨owner, hplaced.shift hc (by rw [hstage]; rfl) rfl
            fun i hi => by cases hi⟩ rfl rfl
      | drop =>
          simp only [InventoryCache.advance, hstage]
          exact h.drop hc
      | _ =>
          simp only [InventoryCache.advance, hstage]
          exact hstay
  | locked slot =>
      cases event with
      | read claimed =>
          simp only [InventoryCache.advance, hstage]
          exact h.read hc hstage claimed
      | drop =>
          simp only [InventoryCache.advance, hstage]
          exact h.drop hc
      | _ =>
          simp only [InventoryCache.advance, hstage]
          exact hstay
  | fetching slot =>
      cases event with
      | finish value admitted =>
          simp only [InventoryCache.advance, hstage]
          exact h.finish hc hstage value admitted
      | drop =>
          simp only [InventoryCache.advance, hstage]
          exact h.drop hc
      | _ =>
          simp only [InventoryCache.advance, hstage]
          exact hstay
  | returned =>
      cases event with
      | drop =>
          simp only [InventoryCache.advance, hstage]
          exact h.drop hc
      | _ =>
          simp only [InventoryCache.advance, hstage]
          exact hstay

theorem step (h : Sane key s log) (action : Action) :
    Sane key (step key s action).1 (log ++ (step key s action).2) := by
  obtain ⟨owner, hplaced⟩ := h.placed
  cases action with
  | load job endpoint =>
      refine h.quiet ⟨owner, hplaced.registered, fun c call i hc hi => ?_, hplaced.shelved,
        fun i c => (hplaced.locked i c).trans ?_⟩ rfl rfl
      · rcases getElem?_concat_call hc with hc | rfl
        · exact hplaced.placed c call i hc hi
        · cases hi
      · constructor
        · rintro ⟨call, hc, hheld⟩
          obtain ⟨hlt, -⟩ := List.getElem?_eq_some_iff.mp hc
          exact ⟨call, by rw [← hc]; exact List.getElem?_append_left hlt, hheld⟩
        · rintro ⟨call, hc, hheld⟩
          rcases getElem?_concat_call hc with hc | rfl
          · exact ⟨call, hc, hheld⟩
          · cases hheld
  | advance c event =>
      simp only [InventoryCache.step]
      cases hc : s.calls[c]? with
      | none => exact h.quiet h.placed rfl rfl
      | some call => exact h.advance hc event
  | pass nanoseconds =>
      exact h.quiet ⟨owner, hplaced.registered, hplaced.placed, hplaced.shelved,
        hplaced.locked⟩ rfl rfl

end Sane

theorem sane_run (key : Job → Endpoint → String) (actions : List Action) :
    Sane key ((process key).run start actions).1 ((process key).run start actions).2 := by
  have htracks : (process key).Tracks (fun _ => True) fun log s => Sane key s log :=
    fun log s action _ h => h.step action
  refine htracks.run_start start actions (fun _ _ => trivial) ?_
  exact ⟨⟨fun _ => "", .start _⟩, .start, by simp⟩

/-- Whatever the calls and their order, a check is served what a fetch was answered with
once at most. What is served without a fetch has no gap, is younger than the interval of
the check, and was fetched by a call with the same key. -/
theorem served_once (key : Job → Endpoint → String) (actions : List Action) :
    let log := ((process key).run start actions).2
    (log.map fun d => (d.loan.origin, d.call.job.check)).Nodup
      ∧ ((log.filter (!·.loan.kept)).map (·.loan.origin)).Nodup
      ∧ ∀ d ∈ log, d.loan.kept = true → whole d.loan.value = true
        ∧ ∃ fetch ∈ log, fetch.loan.kept = false ∧ fetch.loan.origin = d.loan.origin
          ∧ fetch.loan.value = d.loan.value
          ∧ key fetch.call.job fetch.call.endpoint = key d.call.job d.call.endpoint
          ∧ d.loan.time - fetch.loan.time < interval d.call.job := by
  obtain ⟨-, hsound, hasked⟩ := sane_run key actions
  dsimp only
  generalize ((process key).run start actions).2 = log at hsound hasked
  refine ⟨?_, ?_, fun d hd hkept => ?_⟩
  · have hsame : (log.map fun d => (d.loan.origin, d.call.job.check))
        = (log.map (·.loan)).map fun loan => (loan.origin, loan.consumer) := by
      rw [List.map_map]
      exact List.map_congr_left fun d hd => by rw [Function.comp, (hasked d hd).2.1]
    rw [hsame]
    exact hsound.once
  · have hdistinct := hsound.distinct
    rw [List.filter_map, List.map_map] at hdistinct
    exact hdistinct
  · obtain ⟨hwhole, time, fetch, hfetch, hage⟩ :=
      hsound.sourced d.loan (List.mem_map_of_mem hd) hkept
    obtain ⟨source, hsource, rfl⟩ := List.mem_map.mp hfetch.mem
    refine ⟨hwhole, source, hsource, hfetch.first, hfetch.origin, hfetch.value, ?_, ?_⟩
    · rw [← (hasked source hsource).1, ← (hasked d hd).1, hfetch.key]
    · rw [hfetch.time, ← (hasked d hd).2.2]
      exact hage

/-! ## Coalescing -/

/-- Every call refers to the slot that is registered for its key. -/
def Current (key : Job → Endpoint → String) (s : State) : Prop :=
  ∀ (c : Nat) (call : Call) (i : Nat), s.calls[c]? = some call → call.stage.slot = some i →
    s.registry (key call.job call.endpoint) = some i

/-- The action makes no key go. -/
def Action.keeps : Action → Prop
  | .advance _ (.look (some _)) => False
  | _ => True

namespace Current

variable {s : State} {c : Nat} {call : Call}

/-- A call that stays at its slot, or at none. -/
theorem move (h : Current key s) (hc : s.calls[c]? = some call) {stage : Stage}
    (hslot : ∀ i, stage.slot = some i → call.stage.slot = some i) (slots : List Slot)
    (fetches : Nat) :
    Current key { s with slots, fetches, calls := s.calls.set c { call with stage := stage } } := by
  intro d other i hd hi
  rcases Placed.getElem?_set_call hc hd with ⟨-, rfl⟩ | ⟨-, hd⟩
  · exact h c call i hc (hslot i hi)
  · exact h d other i hd hi

theorem look (h : Current key s) (hc : s.calls[c]? = some call) :
    Current key (look key s c call none) := by
  unfold InventoryCache.look
  split
  · next slot hslot =>
      intro d other i hd hi
      rcases Placed.getElem?_set_call hc hd with ⟨-, rfl⟩ | ⟨-, hd⟩
      · obtain rfl := Option.some.inj hi
        exact hslot
      · exact h d other i hd hi
  · next hnone =>
      intro d other i hd hi
      dsimp only at hd hi ⊢
      rcases Placed.getElem?_set_call hc hd with ⟨-, rfl⟩ | ⟨-, hd⟩
      · obtain rfl := Option.some.inj hi
        rw [Function.update_self]
      · have hold := h d other i hd hi
        have hne : key other.job other.endpoint ≠ key call.job call.endpoint := by
          intro hsame
          rw [hsame, hnone] at hold
          cases hold
        rw [Function.update_of_ne hne]
        simpa using hold

/-- A call that has its slot stays there until it returns. -/
theorem advance (h : Current key s) (hc : s.calls[c]? = some call)
    (hlooked : call.stage ≠ .looking) (event : Event) :
    Current key (advance key s c call event).1 := by
  have hstay : ∀ {stage slots fetches},
      stage.slot = call.stage.slot ∨ stage = .returned →
        Current key
          { s with slots, fetches, calls := s.calls.set c { call with stage := stage } } := by
    rintro stage slots fetches (hslot | rfl)
    · exact h.move hc (fun i hi => hslot ▸ hi) slots fetches
    · exact h.move hc (fun i hi => by cases hi) slots fetches
  have hreturn : Current key (drop s c call) := by
    unfold drop
    split
    · exact hstay (.inr rfl)
    · exact hstay (.inr rfl)
    · exact hstay (.inr rfl)
  unfold InventoryCache.advance
  split
  · next hstage => exact absurd hstage hlooked
  · next slot hstage =>
      unfold lock
      split
      · exact hstay (.inl (by rw [hstage]; rfl))
      · exact h
  · exact hstay (.inr rfl)
  · next slot claimed hstage =>
      unfold read
      split
      · split
        · split
          · exact hstay (.inr rfl)
          · exact hstay (.inr rfl)
        · exact hstay (.inl (by rw [hstage]; rfl))
      · exact hstay (.inl (by rw [hstage]; rfl))
  · exact hstay (.inr rfl)
  · exact hreturn
  · exact h

theorem step (h : Current key s) {action : Action} (hkeeps : action.keeps) :
    Current key (step key s action).1 := by
  cases action with
  | load job endpoint =>
      intro d other i hd hi
      rcases getElem?_concat_call hd with hd | rfl
      · exact h d other i hd hi
      · cases hi
  | pass nanoseconds => exact h
  | advance c event =>
      simp only [InventoryCache.step]
      cases hc : s.calls[c]? with
      | none => exact h
      | some call =>
          by_cases hlooking : call.stage = .looking
          · cases event with
            | look evicted =>
                cases evicted with
                | none =>
                    simp only [InventoryCache.advance, hlooking]
                    exact h.look hc
                | some k => exact hkeeps.elim
            | drop =>
                simp only [InventoryCache.advance, drop, hlooking]
                exact h.move hc (fun i hi => by cases hi) s.slots s.fetches
            | _ =>
                simp only [InventoryCache.advance, hlooking]
                exact h
          · exact h.advance hc hlooking event

end Current

theorem current_run (key : Job → Endpoint → String) {actions : List Action}
    (h : ∀ action ∈ actions, action.keeps) :
    Current key ((process key).run start actions).1 := by
  have hpreserves : (process key).Preserves Action.keeps (Current key) :=
    fun _ _ hkeeps hcurrent => hcurrent.step hkeeps
  exact hpreserves.run h fun c call i hc => by simp [start] at hc

/-- Calls of one key fetch one after the other: as long as no key was made to go, no two of
them fetch at the same time. -/
theorem single_flight (key : Job → Endpoint → String) {actions : List Action}
    (h : ∀ action ∈ actions, action.keeps) {c c' : Nat} {call call' : Call} {slot slot' : Nat}
    (hc : ((process key).run start actions).1.calls[c]? = some call)
    (hc' : ((process key).run start actions).1.calls[c']? = some call')
    (hstage : call.stage = .fetching slot) (hstage' : call'.stage = .fetching slot')
    (hkey : key call.job call.endpoint = key call'.job call'.endpoint) : c = c' := by
  have hcurrent := current_run key h
  obtain ⟨⟨owner, hplaced⟩, -, -⟩ := sane_run key actions
  generalize ((process key).run start actions).1 = s at hc hc' hcurrent hplaced
  have hslot := hcurrent c call slot hc (by rw [hstage]; rfl)
  have hslot' := hcurrent c' call' slot' hc' (by rw [hstage']; rfl)
  rw [hkey, hslot'] at hslot
  obtain rfl := Option.some.inj hslot
  have hholder := (hplaced.locked slot' c).mpr ⟨call, hc, by rw [hstage]; rfl⟩
  have hholder' := (hplaced.locked slot' c').mpr ⟨call', hc', by rw [hstage']; rfl⟩
  exact Option.some.inj (hholder.symm.trans hholder')

namespace Sample

open Fanout.Sample

/-- Two calls for one listing; the first one fetches. -/
def coalesced : List Action :=
  [.load inventory listing, .load inventory listing, .advance 0 (.look none),
    .advance 1 (.look none), .advance 0 .lock, .advance 1 .lock, .advance 0 (.read true)]

end Sample

open Sample Fanout.Sample in
theorem single_flight_coalesced :
    let s := ((process fun _ endpoint => endpoint.id).run start coalesced).1
    s.calls[0]? = some ⟨inventory, listing, .fetching 0⟩
      ∧ ∀ c call slot, s.calls[c]? = some call → call.stage = .fetching slot →
        call.endpoint.id = listing.id → c = 0 :=
  ⟨rfl, fun _ _ _ hc hstage hid =>
    single_flight (fun _ endpoint => endpoint.id) (by simp [coalesced, Action.keeps]) hc
      (show _ = some ⟨inventory, listing, .fetching 0⟩ from rfl) hstage rfl hid⟩

end HealthMonitor.Providers.InventoryCache
