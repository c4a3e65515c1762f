import HealthMonitor.Library.Text
import HealthMonitor.Library.Truth
import HealthMonitor.Query.Filter
import Mathlib.Algebra.Order.Group.Int
import Mathlib.Order.Lattice

/-!
# Rows

The query ledger: how a record is validated and projected to a row, and which rows a
filter and a window select.
-/

namespace HealthMonitor.History

open Query

inductive Error where
  | configuration | record | connection | pool | migration | query | task | capacity
  | revision
  deriving DecidableEq, Repr

/-- `Name`: a text of 1 to 128 characters without NUL. -/
def isName (value : String) : Bool :=
  value ≠ "" && value.length ≤ 128 && !value.toList.contains '\x00'

/-- `Resource`: a text of 1 to 2048 characters without NUL. -/
def isResource (value : String) : Bool :=
  value ≠ "" && value.length ≤ 2048 && !value.toList.contains '\x00'

/-- `as_str().to_ascii_lowercase()`. -/
def stateColumn : FindingState → String
  | .active => "active"
  | .recovered => "recovered"
  | .removed => "removed"

/-! ## Timestamps -/

/-- 2000-01-01, where `timestamptz` counts from. -/
def timestampEpoch : Time := 946684800 * nanosPerSecond

/-- An instant as a column or a parameter of type `timestamptz` holds it: the whole
microseconds, the rest cut off. -/
def timestamptz (time : Time) : Int := (time - timestampEpoch).tdiv 1000

theorem timestamptz_le {a b : Time} (h : a ≤ b) : timestamptz a ≤ timestamptz b :=
  Int.tdiv_le_tdiv (by decide) (Int.sub_le_sub_right h _)

theorem lt_of_timestamptz_lt {a b : Time} (h : timestamptz a < timestamptz b) : a < b := by
  by_contra hle
  exact absurd (timestamptz_le (not_lt.mp hle)) (not_le.mpr h)

/-- An order that the columns do not show is one within a microsecond. -/
theorem timestamptz_eq {a b : Time} (h : a ≤ b) (hb : timestamptz b ≤ timestamptz a) :
    timestamptz a = timestamptz b :=
  le_antisymm (timestamptz_le h) hb

/-! ## Projection -/

/-- A row of `query_record`. `payload` is the record itself: the row stores it as a
document. -/
structure Row where
  key : String
  identity : String
  category : Category
  provider : Query.Provider
  target : String
  scope : String
  check : Option Check
  resource : Option String
  region : Option String
  cluster : Option String
  «namespace» : Option String
  service : Option String
  hostname : Option String
  severity : Option Severity
  state : Option String
  start : Int
  stop : Int
  closedAt : Option Int
  payload : Record
  deriving DecidableEq, Repr

def Row.project (key : String) (r : Record) : Row where
  key := key
  identity := r.identity
  category := r.category
  provider := r.scope.provider
  target := r.scope.target
  scope := r.scope.scope
  check := r.check
  resource := r.resource
  region := r.location.region
  cluster := r.location.cluster
  «namespace» := r.location.namespace
  service := r.location.service
  hostname := r.location.hostname
  severity := r.severity
  state := r.state.map stateColumn
  start := timestamptz r.observedAt
  stop := timestamptz r.lastObservedAt
  closedAt := r.closedAt.map timestamptz
  payload := r

/-- `NewRecord::try_from`. -/
def Row.ofRecord (key : String) (r : Record) : Except Error Row :=
  if isResource r.identity && isName r.scope.target && isResource r.scope.scope
      && [r.resource, r.location.region, r.location.cluster, r.location.namespace,
        r.location.service].all (·.all isResource) then
    .ok (Row.project key r)
  else .error .record

theorem Row.ofRecord_eq {key : String} {r : Record} {row : Row}
    (h : Row.ofRecord key r = .ok row) : row = Row.project key r := by
  unfold Row.ofRecord at h
  split at h
  · cases h
    rfl
  · cases h

/-! ## The selection -/

/-- A filter on a column, if the value is given. -/
def given {α β : Type} [DecidableEq β] (value : Option α) (column : Option β) (as : α → β) :
    Truth :=
  match value with
  | none => some true
  | some value => Truth.compare column (· == as value)

/-- A finding lasts until it is closed; other rows until they were observed last. -/
def within (window : Window) (row : Row) : Truth :=
  Truth.and (some (row.start < timestamptz window.stop))
    (Truth.or (some (timestamptz window.start ≤ row.stop))
      (Truth.and (some (row.category == .finding))
        (Truth.or (Truth.isNull row.closedAt)
          (Truth.compare row.closedAt (timestamptz window.start ≤ ·)))))

/-- The `WHERE` clause of a filter, a window and a category. `search` says whether the
pattern of a free text matches the identity or the document of a row. -/
def selection (search : String → Row → Bool) (filter : Filter) (window : Window)
    (category : Option Category) (row : Row) : Truth :=
  Truth.all
  [ within window row,
    given category (some row.category) id,
    given filter.target (some row.target) id,
    given filter.scope (some row.scope) id,
    given filter.resource row.resource id,
    given filter.region row.region id,
    given filter.cluster row.cluster id,
    given filter.namespace row.namespace id,
    given filter.service row.service id,
    given filter.hostname row.hostname id,
    given filter.provider (some row.provider) id,
    given filter.check row.check id,
    given filter.severity row.severity id,
    given filter.state row.state stateColumn,
    if filter.state = some .active then Truth.isNull row.closedAt else some true,
    match filter.q with
    | none => some true
    | some text => some (search text row) ]

def selects (search : String → Row → Bool) (filter : Filter) (window : Window)
    (category : Option Category) (row : Row) : Bool :=
  (selection search filter window category row).accepts

/-! ## Matching and selection -/

/-- What matching in memory accepts. -/
def accepts (search : String → Record → Bool) (filter : Filter) (window : Window)
    (category : Option Category) (r : Record) : Bool :=
  Matching.record search filter r && Matching.overlaps r window && category.all (· == r.category)

theorem accepts_given {α β : Type} [DecidableEq β] (value : Option α) (column : Option β)
    (as : α → β) : (given value column as).accepts = value.all fun v => some (as v) == column := by
  cases value with
  | none => rfl
  | some v =>
      rw [given, Truth.accepts_compare]
      cases column with
      | none => rfl
      | some b => exact Bool.beq_comm

/-- The last instant of a record; an open finding has none. -/
def ended (r : Record) : Option Time :=
  if r.category = .finding then r.closedAt.map (max r.lastObservedAt)
  else some r.lastObservedAt

theorem overlaps_eq (r : Record) (window : Window) : Matching.overlaps r window
    = (decide (r.observedAt < window.stop) && (ended r).all (window.start ≤ ·)) := by
  unfold Matching.overlaps ended
  refine congrArg (_ && ·) ?_
  by_cases hfinding : r.category = .finding
  · rw [if_pos hfinding, beq_iff_eq.mpr hfinding, Bool.true_and]
    cases r.closedAt with
    | none => exact Bool.or_true _
    | some closed =>
        rw [Bool.eq_iff_iff]
        simp
  · rw [if_neg hfinding, beq_eq_false_iff_ne.mpr hfinding, Bool.false_and, Bool.or_false]
    rfl

/-- The columns show the same overlap in whole microseconds. -/
theorem accepts_within (key : String) (r : Record) (window : Window) :
    (within window (Row.project key r)).accepts
      = (decide (timestamptz r.observedAt < timestamptz window.stop)
        && (ended r).all fun last => timestamptz window.start ≤ timestamptz last) := by
  unfold within ended
  simp only [Truth.accepts_and, Truth.accepts_or, Truth.accepts_some, Truth.accepts_isNull,
    Truth.accepts_compare, Row.project]
  refine congrArg (_ && ·) ?_
  by_cases hfinding : r.category = .finding
  · rw [if_pos hfinding, beq_iff_eq.mpr hfinding, Bool.true_and]
    cases r.closedAt with
    | none => exact Bool.or_true _
    | some closed =>
        have hmax : timestamptz (max r.lastObservedAt closed)
            = max (timestamptz r.lastObservedAt) (timestamptz closed) :=
          Monotone.map_max (f := timestamptz) fun _ _ => timestamptz_le
        show (decide (timestamptz window.start ≤ timestamptz r.lastObservedAt)
            || decide (timestamptz window.start ≤ timestamptz closed))
          = decide (timestamptz window.start ≤ timestamptz (max r.lastObservedAt closed))
        rw [hmax, Bool.eq_iff_iff]
        simp
  · rw [if_neg hfinding, beq_eq_false_iff_ne.mpr hfinding, Bool.false_and, Bool.or_false]
    rfl

/-- The selection accepts what the columns show to overlap and matching in memory accepts
otherwise, unless active findings are asked for and the record is closed. -/
theorem selects_eq (key : String) (r : Record) (search : String → Row → Bool)
    (search' : String → Record → Bool) {filter : Filter} (hq : filter.q = none) (window : Window)
    (category : Option Category) :
    selects search filter window category (Row.project key r)
      = (Matching.record search' filter r && category.all (· == r.category)
        && ((within window (Row.project key r)).accepts
          && (filter.state != some .active || r.closedAt.isNone))) := by
  generalize hwithin : (within window (Row.project key r)).accepts = shown
  have hstate : ∀ state : Option FindingState,
      (state.all fun s => some (stateColumn s) == r.state.map stateColumn)
        = state.all (some · == r.state) := by
    intro state
    cases state with
    | none => rfl
    | some s => cases r.state with
      | none => rfl
      | some t => cases s <;> cases t <;> decide
  have hactive : (if filter.state = some .active then Truth.isNull (r.closedAt.map timestamptz)
      else some true).accepts = (filter.state != some .active || r.closedAt.isNone) := by
    by_cases hs : filter.state = some .active
    · rw [if_pos hs, hs, Truth.accepts_isNull, Option.isNone_map]
      rfl
    · rw [if_neg hs, bne_iff_ne.mpr hs]
      rfl
  unfold selects selection Matching.record Matching.scope
  simp only [Truth.accepts_all, List.all_cons, List.all_nil, accepts_given, hwithin, hq, id_eq,
    Option.all_none, Truth.accepts_some, Bool.and_true]
  simp only [Row.project, hstate, hactive, Option.some_beq_some]
  ac_rfl

/-- Active findings are asked for, and the record is a version that is closed. -/
def AsksForClosed (state : Option FindingState) (r : Record) : Prop :=
  state = some .active ∧ r.closedAt ≠ none

/-- The bounds of a window are not apart from the times of a record by less than the
columns show, where that decides; and a closed version is not looked for as active. -/
structure Apart (state : Option FindingState) (window : Window) (r : Record) : Prop where
  /-- The window reaches the record: it shows, and no closed version is asked for. -/
  reaches : r.observedAt < window.stop → (∀ last ∈ ended r, window.start ≤ last) →
    timestamptz r.observedAt ≠ timestamptz window.stop ∧ ¬ AsksForClosed state r
  /-- The window begins in the microsecond the record ends in, but after it. -/
  misses : ∀ last ∈ ended r, last < window.start → timestamptz last = timestamptz window.start →
    timestamptz window.stop ≤ timestamptz r.observedAt ∨ AsksForClosed state r

/-- The two answers about the window and the state are one exactly then. -/
theorem apart_iff (key : String) (r : Record) (window : Window) (state : Option FindingState) :
    Apart state window r ↔ Matching.overlaps r window
      = ((within window (Row.project key r)).accepts
        && (state != some .active || r.closedAt.isNone)) := by
  have hasks : (state != some .active || r.closedAt.isNone) = true
      ↔ ¬ AsksForClosed state r := by
    rw [AsksForClosed, Bool.or_eq_true, bne_iff_ne, Option.isNone_iff_eq_none, not_and_or, not_not]
  have hall : ∀ p : Time → Prop, [DecidablePred p] →
      (((ended r).all fun last => decide (p last)) = true ↔ ∀ last ∈ ended r, p last) := by
    intro p _
    cases ended r <;> simp
  rw [Bool.eq_iff_iff, overlaps_eq, accepts_within, Bool.and_eq_true, Bool.and_eq_true,
    Bool.and_eq_true, hasks, hall, hall, decide_eq_true_iff, decide_eq_true_iff]
  constructor
  · rintro ⟨hreaches, hmisses⟩
    constructor
    · rintro ⟨hstart, hend⟩
      obtain ⟨hne, hopen⟩ := hreaches hstart hend
      exact ⟨⟨lt_of_le_of_ne (timestamptz_le hstart.le) hne,
        fun last hlast => timestamptz_le (hend last hlast)⟩, hopen⟩
    · rintro ⟨⟨hstart, hend⟩, hopen⟩
      refine ⟨lt_of_timestamptz_lt hstart, fun last hlast => ?_⟩
      by_contra hlate
      -- the end is cut off to the start of the window
      have hsame := timestamptz_eq (not_le.mp hlate).le (hend last hlast)
      rcases hmisses last hlast (not_le.mp hlate) hsame with hstop | hclosed
      · exact absurd hstart (not_lt.mpr hstop)
      · exact hopen hclosed
  · intro hagree
    constructor
    · intro hstart hend
      obtain ⟨⟨hshown, _⟩, hopen⟩ := hagree.mp ⟨hstart, hend⟩
      exact ⟨hshown.ne, hopen⟩
    · intro last hlast hlate hsame
      by_contra hnot
      rw [not_or, not_le] at hnot
      have honly : ∀ last' ∈ ended r, timestamptz window.start ≤ timestamptz last' := by
        intro last' hlast'
        rw [Option.mem_unique hlast' hlast, hsame]
      have hreach := (hagree.mpr ⟨⟨hnot.1, honly⟩, hnot.2⟩).2 last hlast
      exact absurd hreach (not_le.mpr hlate)

/-- For a record, a window and the state asked for, matching in memory and the selection
agree on every filter without free text and every category, if and only if the record is in
another state, or the columns show how the window and the record lie and the record is not
a closed version looked for as active. -/
theorem selection_agrees (search : String → Row → Bool) (search' : String → Record → Bool)
    {key : String} {r : Record} {row : Row} (h : Row.ofRecord key r = .ok row)
    (state : Option FindingState) (window : Window) :
    (∀ (filter : Filter) (category : Option Category), filter.q = none → filter.state = state →
        accepts search' filter window category r = selects search filter window category row)
      ↔ ((∀ s ∈ state, r.state = some s) → Apart state window r) := by
  rw [Row.ofRecord_eq h]
  constructor
  · intro hagree hstate
    -- the filter that asks for the state only
    have hmatches : Matching.record search' { state } r = true := by
      have hall : state.all (some · == r.state) = true := by
        cases state with
        | none => rfl
        | some s => rw [hstate s rfl]; exact beq_self_eq_true (some s)
      simp [Matching.record, Matching.scope, hall]
    have hboth := hagree { state } none rfl rfl
    rw [selects_eq key r search search' rfl, accepts, hmatches] at hboth
    exact (apart_iff key r window state).mpr (by simpa using hboth)
  · rintro hapart filter category hq rfl
    rw [selects_eq key r search search' hq, accepts]
    cases hmatches : Matching.record search' filter r with
    | false => rfl
    | true =>
        have hstate : ∀ s ∈ filter.state, r.state = some s := by
          intro s hs
          rw [Option.mem_def] at hs
          simp only [Matching.record, Bool.and_eq_true] at hmatches
          have hall := hmatches.1.2
          rw [hs, Option.all_some, beq_iff_eq] at hall
          exact hall.symm
        rw [(apart_iff key r window filter.state).mp (hapart hstate), Bool.true_and, Bool.true_and,
          Bool.and_comm]

/-! ## A superseded version -/

namespace Sample

/-- So many seconds after the start of a day. -/
def seconds (count : Nat) : Time := (1788652800 + count) * nanosPerSecond

/-- A finding whose version was replaced by a later one after 20 seconds. -/
def superseded : Record where
  id := "app/web/ready"
  identity := "app/web/ready"
  scope := { target := "app", provider := .gcp, scope := "prod" }
  location := {}
  check := some .managed
  resource := some "app/web"
  observedAt := seconds 10
  lastObservedAt := seconds 15
  validUntil := none
  closedAt := some (seconds 20)
  stale := false
  details := .finding
    { rule := "ready", severity := .error, state := .active, firstDetectedAt := none
      expected := .active, confidence := .direct, facts := [], links := [], legacy := true }

/-- The version before it was replaced. -/
def current : Record := { superseded with closedAt := none }

end Sample

open Sample in
/-- The version is matched among the active findings and not selected; and a window that
ends half a microsecond after the finding was detected has it in memory only. -/
theorem matching_differs :
    (∃ (row : Row) (filter : Filter) (window : Window),
      Row.ofRecord "key" superseded = .ok row ∧ filter.q = none
        ∧ accepts (fun _ _ => false) filter window none superseded
          ≠ selects (fun _ _ => false) filter window none row)
    ∧ ∃ (row : Row) (window : Window),
      Row.ofRecord "key" current = .ok row
        ∧ accepts (fun _ _ => false) {} window none current
          ≠ selects (fun _ _ => false) {} window none row :=
  ⟨⟨Row.project "key" superseded, { state := some .active },
      { start := seconds 0, stop := seconds 30 }, by decide +kernel, rfl, by decide +kernel⟩,
    Row.project "key" current, { start := seconds 0, stop := seconds 10 + 500 },
    by decide +kernel, by decide +kernel⟩

open Sample in
/-- Before that, the active findings of half a minute are the same. -/
theorem selection_agrees_current : ∃ row : Row, Row.ofRecord "key" current = .ok row
    ∧ ∀ (filter : Filter) (category : Option Category),
      filter.q = none → filter.state = some .active →
      accepts (fun _ _ => false) filter { start := seconds 0, stop := seconds 30 } category current
        = selects (fun _ _ => false) filter { start := seconds 0, stop := seconds 30 } category
          row := by
  have hrow : Row.ofRecord "key" current = .ok (Row.project "key" current) := by decide +kernel
  refine ⟨_, hrow, (selection_agrees _ _ hrow (some .active) _).mpr fun _ => ⟨fun _ _ => ?_, ?_⟩⟩
  · exact ⟨by decide +kernel, fun hclosed => hclosed.2 rfl⟩
  · rintro last ⟨⟩

end HealthMonitor.History
