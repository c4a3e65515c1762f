import HealthMonitor.Core.Config
import HealthMonitor.History.Rows
import HealthMonitor.Library.Decimal
import HealthMonitor.Library.Json
import HealthMonitor.Query.Normalize
import HealthMonitor.Server.Pages

/-!
# Query cursors

Cursors bind selection and absolute window without retaining per-client state: they carry
a digest of the normalized filter, the window, and the record or scope the next page
starts after. How instants and identifiers are written, how texts are read as cursors and
how selections are digested is a parameter, `Codec`.
-/

namespace HealthMonitor.Server.QueryCursor

open Query
open Pages (ApiError)

structure Cursor (Id : Type) where
  version : Nat
  fingerprint : String
  window : Window
  «at» : Time
  id : Id

structure ScopeCursor where
  fingerprint : String
  window : Window
  after : Scope

/-- The digest of an endpoint and a filter in hexadecimal, how instants and identifiers are
written, and how texts are read. -/
structure Codec (Id : Type) where
  digest : String → Filter → String
  stamp : Time → String
  idText : Id → String
  parseId : String → Option Id
  parseCursor : String → Option (Cursor Id)
  parseScope : String → Option ScopeCursor

def providerName : Query.Provider → String
  | .gcp => "gcp"
  | .aws => "aws"
  | .azure => "azure"
  | .kubernetes => "kubernetes"
  | .github => "github"
  | .edge => "edge"
  | .nats => "nats"
  | .unknown => "unknown"

section

variable {Id : Type} (codec : Codec Id)

/-! ## Writing cursors -/

def windowJson (window : Window) : String :=
  "\x7b\"from\":" ++ Json.quote (codec.stamp window.start) ++ ",\"to\":"
    ++ Json.quote (codec.stamp window.stop) ++ "\x7d"

def scopeJson (scope : Scope) : String :=
  "\x7b\"target\":" ++ Json.quote scope.target ++ ",\"provider\":"
    ++ Json.quote (providerName scope.provider) ++ ",\"scope\":" ++ Json.quote scope.scope
    ++ "\x7d"

def cursorJson (cursor : Cursor Id) : String :=
  "\x7b\"version\":" ++ cursor.version.repr ++ ",\"fingerprint\":"
    ++ Json.quote cursor.fingerprint ++ ",\"window\":" ++ windowJson codec cursor.window ++ ",\"at\":"
    ++ Json.quote (codec.stamp cursor.at) ++ ",\"id\":" ++ Json.quote (codec.idText cursor.id)
    ++ "\x7d"

def scopeCursorJson (cursor : ScopeCursor) : String :=
  "\x7b\"fingerprint\":" ++ Json.quote cursor.fingerprint ++ ",\"window\":"
    ++ windowJson codec cursor.window ++ ",\"after\":" ++ scopeJson cursor.after ++ "\x7d"

/-! ## The source -/

def fingerprint (filter : Filter) (endpoint : String) : String :=
  codec.digest endpoint filter.selection

/-- The filter comes back normalized, with the window and the position of the page. -/
def resolveScope (filter : Filter) (now : Time) :
    Except ApiError (Filter × Window × Option Scope) :=
  match filter.normalize with
  | .error _ => .error .badQuery
  | .ok filter =>
      match filter.cursor with
      | some text =>
          match codec.parseScope text with
          | none => .error .badQuery
          | some cursor =>
              if cursor.fingerprint ≠ fingerprint codec filter "scopes"
                  ∨ cursor.window.stop ≤ cursor.window.start
                  ∨ (checkedSub cursor.window.stop (31 * 86400)).isNone
                  ∨ Filter.longest < cursor.window.stop - cursor.window.start then
                .error .badQuery
              else .ok (filter, cursor.window, some cursor.after)
      | none =>
          match filter.window now with
          | .error _ => .error .badQuery
          | .ok window => .ok (filter, window, none)

def nextScope (filter : Filter) (window : Window) (after : Scope) : Except ApiError String :=
  .ok (scopeCursorJson codec
    { fingerprint := fingerprint codec filter "scopes", window, after })

def resolve (filter : Filter) (endpoint : String) (now : Time) :
    Except ApiError (Filter × Window × Option (Time × Id)) :=
  match filter.normalize with
  | .error _ => .error .badQuery
  | .ok filter =>
      match filter.cursor with
      | some text =>
          match codec.parseCursor text with
          | none => .error .badQuery
          | some cursor =>
              if cursor.version ≠ 1
                  ∨ (checkedSub cursor.window.stop (31 * 86400)).isNone
                  ∨ cursor.fingerprint ≠ fingerprint codec filter endpoint
                  ∨ cursor.window.stop ≤ cursor.window.start
                  ∨ Filter.longest < cursor.window.stop - cursor.window.start
                  ∨ cursor.window.stop < cursor.at then
                .error .badQuery
              else .ok (filter, cursor.window, some (cursor.at, cursor.id))
      | none =>
          match filter.window now with
          | .error _ => .error .badQuery
          | .ok window => .ok (filter, window, none)

def next (filter : Filter) (endpoint : String) (window : Window) (record : Record) :
    Except ApiError String :=
  match codec.parseId record.id with
  | none => .error .badQuery
  | some id =>
      .ok (cursorJson codec
        { version := 1
          fingerprint := fingerprint codec filter endpoint
          window
          «at» := record.observedAt
          id })

/-! ## How long cursors are -/

/-- The instants of `DateTime<Utc>`. -/
def Representable (time : Time) : Prop := Time.first ≤ time ∧ time ≤ Time.last

/-- What is written is read, and a cursor of one kind is not read as one of the other.
Digests, instants and identifiers are written without characters to escape, in 64, 33 and
36 bytes at most. -/
structure Codec.Lawful : Prop where
  digest : ∀ endpoint filter, (Json.quote (codec.digest endpoint filter)).utf8ByteSize = 66
  stamp : ∀ time, Representable time → (Json.quote (codec.stamp time)).utf8ByteSize ≤ 35
  idText : ∀ id, (Json.quote (codec.idText id)).utf8ByteSize = 38
  cursor : ∀ cursor, codec.parseCursor (cursorJson codec cursor) = some cursor
  scope : ∀ cursor, codec.parseScope (scopeCursorJson codec cursor) = some cursor
  cursor_not_scope : ∀ cursor, codec.parseScope (cursorJson codec cursor) = none
  scope_not_cursor : ∀ cursor, codec.parseCursor (scopeCursorJson codec cursor) = none

/-- The bytes that the window and the scope take in a cursor. -/
def positionBytes (window : Window) (after : Scope) : Nat :=
  (Json.quote (codec.stamp window.start)).utf8ByteSize
    + (Json.quote (codec.stamp window.stop)).utf8ByteSize
    + (Json.quote after.target).utf8ByteSize
    + (Json.quote (providerName after.provider)).utf8ByteSize + (Json.quote after.scope).utf8ByteSize

variable {codec}

theorem cursorJson_size (hlawful : codec.Lawful) {cursor : Cursor Id}
    (hversion : cursor.version = 1)
    (hdigest : ∃ endpoint filter, cursor.fingerprint = codec.digest endpoint filter)
    (hstart : Representable cursor.window.start) (hstop : Representable cursor.window.stop)
    (hat : Representable cursor.at) : (cursorJson codec cursor).utf8ByteSize ≤ 2048 := by
  obtain ⟨endpoint, filter, hdigest⟩ := hdigest
  have hfingerprint := hlawful.digest endpoint filter
  have hfrom := hlawful.stamp _ hstart
  have hto := hlawful.stamp _ hstop
  have hposition := hlawful.stamp _ hat
  have hid := hlawful.idText cursor.id
  rw [← hdigest] at hfingerprint
  have hone : (1 : Nat).repr = "1" := by decide
  have hliterals : "\x7b\"version\":".utf8ByteSize = 11 ∧ "1".utf8ByteSize = 1
      ∧ ",\"fingerprint\":".utf8ByteSize = 15 ∧ ",\"window\":".utf8ByteSize = 10
      ∧ "\x7b\"from\":".utf8ByteSize = 8 ∧ ",\"to\":".utf8ByteSize = 6
      ∧ ",\"at\":".utf8ByteSize = 6 ∧ ",\"id\":".utf8ByteSize = 6 ∧ "\x7d".utf8ByteSize = 1 := by
    decide
  unfold cursorJson windowJson
  simp only [String.utf8ByteSize_append, hversion, hone, hliterals, hfingerprint, hid]
  omega

theorem scopeCursorJson_size (hlawful : codec.Lawful) {cursor : ScopeCursor}
    (hdigest : ∃ endpoint filter, cursor.fingerprint = codec.digest endpoint filter) :
    (scopeCursorJson codec cursor).utf8ByteSize
      = 148 + positionBytes codec cursor.window cursor.after := by
  obtain ⟨endpoint, filter, hdigest⟩ := hdigest
  have hfingerprint := hlawful.digest endpoint filter
  rw [← hdigest] at hfingerprint
  have hliterals : "\x7b\"fingerprint\":".utf8ByteSize = 15 ∧ ",\"window\":".utf8ByteSize = 10
      ∧ "\x7b\"from\":".utf8ByteSize = 8 ∧ ",\"to\":".utf8ByteSize = 6
      ∧ ",\"after\":".utf8ByteSize = 9 ∧ "\x7b\"target\":".utf8ByteSize = 10
      ∧ ",\"provider\":".utf8ByteSize = 12 ∧ ",\"scope\":".utf8ByteSize = 9
      ∧ "\x7d".utf8ByteSize = 1 := by
    decide
  unfold scopeCursorJson windowJson scopeJson positionBytes
  simp only [String.utf8ByteSize_append, hliterals, hfingerprint]
  omega

theorem escape_of_identifier {c : Char}
    (h : (c.isAlphanum || "-_./:@".toList.contains c) = true) : Json.escape c = [c] := by
  refine Json.escape_eq_self ?_ ?_ ?_
  · rintro rfl
    exact absurd h (by decide)
  · rintro rfl
    exact absurd h (by decide)
  · rw [Bool.or_eq_true, List.contains_iff_mem] at h
    obtain halnum | hmark := h
    · exact (by decide : 32 ≤ 48).trans (Padding.toNat_of_isAlphanum halnum).1
    · have hall : "-_./:@".toList.all (fun d => decide (32 ≤ d.toNat)) = true := by
        decide
      exact of_decide_eq_true (List.all_eq_true.mp hall c hmark)

/-! ## What a cursor stands for -/

variable (codec)

/-- The window and the position a text stands for, for a selection of an endpoint. -/
def position (selection : Filter) (endpoint text : String) :
    Except ApiError (Window × Time × Id) :=
  match codec.parseCursor text with
  | none => .error .badQuery
  | some cursor =>
      if cursor.version ≠ 1
          ∨ (checkedSub cursor.window.stop (31 * 86400)).isNone
          ∨ cursor.fingerprint ≠ codec.digest endpoint selection
          ∨ cursor.window.stop ≤ cursor.window.start
          ∨ Filter.longest < cursor.window.stop - cursor.window.start
          ∨ cursor.window.stop < cursor.at then
        .error .badQuery
      else .ok (cursor.window, cursor.at, cursor.id)

/-- The window and the scope a text stands for, for a selection. -/
def scopePosition (selection : Filter) (text : String) : Except ApiError (Window × Scope) :=
  match codec.parseScope text with
  | none => .error .badQuery
  | some cursor =>
      if cursor.fingerprint ≠ codec.digest "scopes" selection
          ∨ cursor.window.stop ≤ cursor.window.start
          ∨ (checkedSub cursor.window.stop (31 * 86400)).isNone
          ∨ Filter.longest < cursor.window.stop - cursor.window.start then
        .error .badQuery
      else .ok (cursor.window, cursor.after)

variable {codec}

theorem resolve_carrying {filter normal : Filter} {text : String}
    (hnormal : filter.normalize = .ok normal) (hsize : text.utf8ByteSize ≤ 2048)
    (endpoint : String) (now : Time) :
    resolve codec (filter.carrying text) endpoint now
      = (position codec normal.selection endpoint text).map
          fun read => (normal.carrying text, read.1, some read.2) := by
  rw [resolve, Filter.normalize_carrying hnormal hsize, position]
  show (match codec.parseCursor text with
    | none => _
    | some cursor => _) = _
  cases codec.parseCursor text with
  | none => rfl
  | some cursor =>
      have hfingerprint : fingerprint codec (normal.carrying text) endpoint
          = codec.digest endpoint normal.selection := rfl
      dsimp only
      rw [hfingerprint]
      split <;> rfl

theorem resolveScope_carrying {filter normal : Filter} {text : String}
    (hnormal : filter.normalize = .ok normal) (hsize : text.utf8ByteSize ≤ 2048) (now : Time) :
    resolveScope codec (filter.carrying text) now
      = (scopePosition codec normal.selection text).map
          fun read => (normal.carrying text, read.1, some read.2) := by
  rw [resolveScope, Filter.normalize_carrying hnormal hsize, scopePosition]
  show (match codec.parseScope text with
    | none => _
    | some cursor => _) = _
  cases codec.parseScope text with
  | none => rfl
  | some cursor =>
      have hfingerprint : fingerprint codec (normal.carrying text) "scopes"
          = codec.digest "scopes" normal.selection := rfl
      dsimp only
      rw [hfingerprint]
      split <;> rfl

/-- A cursor that is too long is not even read. -/
theorem resolve_long (filter : Filter) {text : String} (hsize : 2048 < text.utf8ByteSize)
    (endpoint : String) (now : Time) :
    resolve codec (filter.carrying text) endpoint now = .error .badQuery := by
  rw [resolve]
  cases hnormal : (filter.carrying text).normalize with
  | error error => rfl
  | ok normal => exact absurd hnormal (Filter.normalize_long hsize normal)

theorem resolveScope_long (filter : Filter) {text : String} (hsize : 2048 < text.utf8ByteSize)
    (now : Time) : resolveScope codec (filter.carrying text) now = .error .badQuery := by
  rw [resolveScope]
  cases hnormal : (filter.carrying text).normalize with
  | error error => rfl
  | ok normal => exact absurd hnormal (Filter.normalize_long hsize normal)

theorem position_eq_ok {selection : Filter} {endpoint text : String} {cursor : Cursor Id}
    (hread : codec.parseCursor text = some cursor) (hversion : cursor.version = 1)
    (hfingerprint : cursor.fingerprint = codec.digest endpoint selection)
    (hwindow : cursor.window.Sound) (hat : ¬ cursor.window.stop < cursor.at) :
    position codec selection endpoint text = .ok (cursor.window, cursor.at, cursor.id) := by
  rw [position, hread]
  dsimp only
  rw [if_neg]
  rw [not_or, not_or, not_or, not_or, not_or]
  exact ⟨not_not.mpr hversion, Bool.eq_false_iff.mp hwindow.representable,
    not_not.mpr hfingerprint, Int.not_le.mpr hwindow.some, Int.not_lt.mpr hwindow.short, hat⟩

theorem position_eq_error {selection : Filter} {endpoint text : String} {cursor : Cursor Id}
    (hread : codec.parseCursor text = some cursor)
    (hfingerprint : cursor.fingerprint ≠ codec.digest endpoint selection) :
    position codec selection endpoint text = .error .badQuery := by
  rw [position, hread]
  exact if_pos (.inr (.inr (.inl hfingerprint)))

theorem scopePosition_eq_ok {selection : Filter} {text : String} {cursor : ScopeCursor}
    (hread : codec.parseScope text = some cursor)
    (hfingerprint : cursor.fingerprint = codec.digest "scopes" selection)
    (hwindow : cursor.window.Sound) :
    scopePosition codec selection text = .ok (cursor.window, cursor.after) := by
  rw [scopePosition, hread]
  dsimp only
  rw [if_neg]
  rw [not_or, not_or, not_or]
  exact ⟨not_not.mpr hfingerprint, Int.not_le.mpr hwindow.some,
    Bool.eq_false_iff.mp hwindow.representable, Int.not_lt.mpr hwindow.short⟩

theorem scopePosition_eq_error {selection : Filter} {text : String} {cursor : ScopeCursor}
    (hread : codec.parseScope text = some cursor)
    (hfingerprint : cursor.fingerprint ≠ codec.digest "scopes" selection) :
    scopePosition codec selection text = .error .badQuery := by
  rw [scopePosition, hread]
  exact if_pos (.inl hfingerprint)

/-! ## Windows that are served -/

variable (codec)

/-- The filter was normalized and has the window, by itself or by a cursor it carries. -/
def Serves (filter normal : Filter) (window : Window) : Prop :=
  (∃ endpoint now before, resolve codec filter endpoint now = .ok (normal, window, before))
    ∨ ∃ now after, resolveScope codec filter now = .ok (normal, window, after)

variable {codec}

theorem resolve_serves {filter normal : Filter} {endpoint : String} {now : Time}
    {window : Window} {before : Option (Time × Id)}
    (h : resolve codec filter endpoint now = .ok (normal, window, before)) :
    filter.normalize = .ok normal ∧ window.Sound := by
  rw [resolve] at h
  split at h
  · cases h
  · next hnormal =>
      split at h
      · split at h
        · cases h
        · split at h
          · cases h
          · next hgood =>
              cases h
              rw [not_or, not_or, not_or, not_or, not_or] at hgood
              obtain ⟨-, hrepresentable, -, hsome, hshort, -⟩ := hgood
              exact ⟨hnormal, Int.not_le.mp hsome, Bool.eq_false_iff.mpr hrepresentable,
                Int.not_lt.mp hshort⟩
      · split at h
        · cases h
        · next hwindow =>
            cases h
            exact ⟨hnormal, Filter.window_sound hwindow⟩

theorem resolveScope_serves {filter normal : Filter} {now : Time} {window : Window}
    {after : Option Scope} (h : resolveScope codec filter now = .ok (normal, window, after)) :
    filter.normalize = .ok normal ∧ window.Sound := by
  rw [resolveScope] at h
  split at h
  · cases h
  · next hnormal =>
      split at h
      · split at h
        · cases h
        · split at h
          · cases h
          · next hgood =>
              cases h
              rw [not_or, not_or, not_or] at hgood
              obtain ⟨-, hsome, hrepresentable, hshort⟩ := hgood
              exact ⟨hnormal, Int.not_le.mp hsome, Bool.eq_false_iff.mpr hrepresentable,
                Int.not_lt.mp hshort⟩
      · split at h
        · cases h
        · next hwindow =>
            cases h
            exact ⟨hnormal, Filter.window_sound hwindow⟩

theorem Serves.sound {filter normal : Filter} {window : Window}
    (h : Serves codec filter normal window) : filter.normalize = .ok normal ∧ window.Sound := by
  obtain ⟨endpoint, now, before, h⟩ | ⟨now, after, h⟩ := h
  · exact resolve_serves h
  · exact resolveScope_serves h

/-! ## Resuming -/

variable (codec)

/-- No other endpoint or selection has the digest of this one. -/
def Distinct (endpoint : String) (selection : Filter) : Prop :=
  ∀ other otherSelection, codec.digest other otherSelection = codec.digest endpoint selection →
    other = endpoint ∧ otherSelection = selection

/-- What the cursors of the pages of a filter are good for, the last of them a page of
scopes that ends in `after`. -/
structure Resumes (filter normal : Filter) (endpoint : String) (window : Window)
    (after : Scope) : Prop where
  records : ∀ record id, Representable record.observedAt → record.observedAt < window.stop →
    codec.parseId record.id = some id → ∃ text, next codec normal endpoint window record = .ok text
      ∧ ∀ later, resolve codec (filter.carrying text) endpoint later
        = .ok (normal.carrying text, window, some (record.observedAt, id))
  scopes : ∃ text, nextScope codec normal window after = .ok text
    ∧ ∀ later, resolveScope codec (filter.carrying text) later
      = .ok (normal.carrying text, window, some after)
  idempotent : normal.normalize = .ok normal
  shared : ∀ other otherNormal, Filter.Respelled filter other →
    other.normalize = .ok otherNormal → ∀ text later,
      (∀ window before, resolve codec (filter.carrying text) endpoint later
          = .ok (normal.carrying text, window, before) →
        resolve codec (other.carrying text) endpoint later
          = .ok (otherNormal.carrying text, window, before))
      ∧ ∀ window after, resolveScope codec (filter.carrying text) later
          = .ok (normal.carrying text, window, after) →
        resolveScope codec (other.carrying text) later
          = .ok (otherNormal.carrying text, window, after)
  rejected : ∀ other otherNormal : Filter, other.normalize = .ok otherNormal → ∀ text later,
    (∀ record, next codec normal endpoint window record = .ok text →
      (∀ otherEndpoint, otherNormal.selection ≠ normal.selection ∨ otherEndpoint ≠ endpoint →
        resolve codec (other.carrying text) otherEndpoint later = .error .badQuery)
      ∧ resolveScope codec (other.carrying text) later = .error .badQuery)
    ∧ (nextScope codec normal window after = .ok text →
      (otherNormal.selection ≠ normal.selection →
        resolveScope codec (other.carrying text) later = .error .badQuery)
      ∧ ∀ otherEndpoint,
        resolve codec (other.carrying text) otherEndpoint later = .error .badQuery)

variable {codec}

section

variable {filter normal : Filter} {endpoint : String} {window : Window}

/-- A cursor of a page of records is read as what it was written from. -/
theorem resolve_next (hlawful : codec.Lawful) (hnormal : filter.normalize = .ok normal)
    (hwindow : window.Sound) (hstart : Representable window.start)
    (hstop : Representable window.stop) {record : Record} {id : Id}
    (hat : Representable record.observedAt) (hbefore : record.observedAt < window.stop)
    (hid : codec.parseId record.id = some id) :
    ∃ text, next codec normal endpoint window record = .ok text
      ∧ ∀ later, resolve codec (filter.carrying text) endpoint later
        = .ok (normal.carrying text, window, some (record.observedAt, id)) := by
  let cursor : Cursor Id :=
    { version := 1, fingerprint := fingerprint codec normal endpoint, window,
      «at» := record.observedAt, id }
  have hnext : next codec normal endpoint window record = .ok (cursorJson codec cursor) := by
    rw [next, hid]
  refine ⟨cursorJson codec cursor, hnext, fun later => ?_⟩
  have hsize : (cursorJson codec cursor).utf8ByteSize ≤ 2048 :=
    cursorJson_size hlawful rfl ⟨endpoint, normal.selection, rfl⟩ hstart hstop hat
  have hread := position_eq_ok (hlawful.cursor cursor) rfl
    (show cursor.fingerprint = codec.digest endpoint normal.selection from rfl) hwindow
    (Int.not_lt.mpr (Int.le_of_lt hbefore))
  rw [resolve_carrying hnormal hsize, hread]
  rfl

/-- Filters with the same selection read every cursor alike. -/
theorem resolve_shared {other otherNormal : Filter} (hnormal : filter.normalize = .ok normal)
    (hother : other.normalize = .ok otherNormal)
    (hselection : normal.selection = otherNormal.selection) {text : String} {later : Time}
    {before : Option (Time × Id)}
    (h : resolve codec (filter.carrying text) endpoint later
      = .ok (normal.carrying text, window, before)) :
    resolve codec (other.carrying text) endpoint later
      = .ok (otherNormal.carrying text, window, before) := by
  have hsize : text.utf8ByteSize ≤ 2048 := by
    by_contra hlong
    rw [resolve_long filter (not_le.mp hlong)] at h
    cases h
  rw [resolve_carrying hnormal hsize, hselection] at h
  rw [resolve_carrying hother hsize]
  cases hread : position codec otherNormal.selection endpoint text with
  | error error =>
      rw [hread] at h
      cases h
  | ok read =>
      rw [hread, Except.map, Except.ok.injEq, Prod.mk.injEq] at h
      rw [Except.map, h.2]

theorem resolveScope_shared {other otherNormal : Filter} (hnormal : filter.normalize = .ok normal)
    (hother : other.normalize = .ok otherNormal)
    (hselection : normal.selection = otherNormal.selection) {text : String} {later : Time}
    {after : Option Scope}
    (h : resolveScope codec (filter.carrying text) later
      = .ok (normal.carrying text, window, after)) :
    resolveScope codec (other.carrying text) later
      = .ok (otherNormal.carrying text, window, after) := by
  have hsize : text.utf8ByteSize ≤ 2048 := by
    by_contra hlong
    rw [resolveScope_long filter (not_le.mp hlong)] at h
    cases h
  rw [resolveScope_carrying hnormal hsize, hselection] at h
  rw [resolveScope_carrying hother hsize]
  cases hread : scopePosition codec otherNormal.selection text with
  | error error =>
      rw [hread] at h
      cases h
  | ok read =>
      rw [hread, Except.map, Except.ok.injEq, Prod.mk.injEq] at h
      rw [Except.map, h.2]

/-- A text that stands for no position of the selection is rejected, however long it is. -/
theorem resolve_rejected {other otherNormal : Filter} (hother : other.normalize = .ok otherNormal)
    {text : String}
    (h : position codec otherNormal.selection endpoint text = .error .badQuery) (later : Time) :
    resolve codec (other.carrying text) endpoint later = .error .badQuery := by
  by_cases hsize : text.utf8ByteSize ≤ 2048
  · rw [resolve_carrying hother hsize, h]
    rfl
  · exact resolve_long other (not_le.mp hsize) endpoint later

theorem resolveScope_rejected {other otherNormal : Filter}
    (hother : other.normalize = .ok otherNormal) {text : String}
    (h : scopePosition codec otherNormal.selection text = .error .badQuery) (later : Time) :
    resolveScope codec (other.carrying text) later = .error .badQuery := by
  by_cases hsize : text.utf8ByteSize ≤ 2048
  · rw [resolveScope_carrying hother hsize, h]
    rfl
  · exact resolveScope_long other (not_le.mp hsize) later

/-- A cursor of a page of records is of no use to other filters and endpoints. -/
theorem next_rejected (hlawful : codec.Lawful)
    (hdistinct : Distinct codec endpoint normal.selection) {other otherNormal : Filter}
    (hother : other.normalize = .ok otherNormal) {text : String} {record : Record}
    (hnext : next codec normal endpoint window record = .ok text) (later : Time) :
    (∀ otherEndpoint, otherNormal.selection ≠ normal.selection ∨ otherEndpoint ≠ endpoint →
      resolve codec (other.carrying text) otherEndpoint later = .error .badQuery)
    ∧ resolveScope codec (other.carrying text) later = .error .badQuery := by
  rw [next] at hnext
  split at hnext
  · cases hnext
  · cases hnext
    constructor
    · intro otherEndpoint hdiffers
      refine resolve_rejected hother (position_eq_error (hlawful.cursor _) fun hsame => ?_) later
      obtain ⟨hendpoint, hselection⟩ := hdistinct otherEndpoint otherNormal.selection hsame.symm
      exact hdiffers.elim (· hselection) (· hendpoint)
    · refine resolveScope_rejected hother ?_ later
      rw [scopePosition, hlawful.cursor_not_scope]

theorem nextScope_rejected (hlawful : codec.Lawful)
    (hdistinct : Distinct codec "scopes" normal.selection) {other otherNormal : Filter}
    (hother : other.normalize = .ok otherNormal) {text : String} {after : Scope}
    (hnext : nextScope codec normal window after = .ok text) (later : Time) :
    (otherNormal.selection ≠ normal.selection →
      resolveScope codec (other.carrying text) later = .error .badQuery)
    ∧ ∀ otherEndpoint,
      resolve codec (other.carrying text) otherEndpoint later = .error .badQuery := by
  rw [nextScope] at hnext
  cases hnext
  constructor
  · intro hdiffers
    refine resolveScope_rejected hother
      (scopePosition_eq_error (hlawful.scope _) fun hsame => ?_) later
    exact hdiffers (hdistinct "scopes" otherNormal.selection hsame.symm).2
  · intro otherEndpoint
    refine resolve_rejected hother ?_ later
    rw [position, hlawful.scope_not_cursor]

/-- A cursor that is too long to come back is emitted all the same. -/
theorem nextScope_stranded (hlawful : codec.Lawful) (filter normal : Filter) {after : Scope}
    (hlong : 1900 < positionBytes codec window after) :
    ∃ text, nextScope codec normal window after = .ok text
      ∧ ∀ later, resolveScope codec (filter.carrying text) later = .error .badQuery := by
  refine ⟨_, rfl, resolveScope_long filter ?_⟩
  rw [scopeCursorJson_size hlawful ⟨"scopes", normal.selection, rfl⟩]
  dsimp only
  omega

/-- A cursor of a page of scopes resumes unless it is too long to come back. -/
theorem resolveScope_nextScope (hlawful : codec.Lawful) (hnormal : filter.normalize = .ok normal)
    (hwindow : window.Sound) (after : Scope) :
    (∃ text, nextScope codec normal window after = .ok text
      ∧ ∀ later, resolveScope codec (filter.carrying text) later
        = .ok (normal.carrying text, window, some after))
      ↔ positionBytes codec window after ≤ 1900 := by
  let cursor : ScopeCursor := { fingerprint := fingerprint codec normal "scopes", window, after }
  have hsize : (scopeCursorJson codec cursor).utf8ByteSize
      = 148 + positionBytes codec window after :=
    scopeCursorJson_size hlawful ⟨"scopes", normal.selection, rfl⟩
  constructor
  · rintro ⟨text, htext, hresolve⟩
    by_contra hlong
    obtain ⟨_, hlater, hnot⟩ := nextScope_stranded hlawful filter normal (not_le.mp hlong)
    cases htext
    cases hlater
    have hboth := hresolve 0
    rw [hnot 0] at hboth
    cases hboth
  · intro hshort
    refine ⟨scopeCursorJson codec cursor, rfl, fun later => ?_⟩
    have hread := scopePosition_eq_ok (hlawful.scope cursor)
      (show cursor.fingerprint = codec.digest "scopes" normal.selection from rfl) hwindow
    rw [resolveScope_carrying hnormal (by omega), hread]
    rfl

end

/-- Cursors resume where they stopped, and nowhere else, if and only if the one of the
page of scopes is not too long. -/
theorem resumes_iff {filter normal : Filter} {endpoint : String} {window : Window} {after : Scope}
    (hlawful : codec.Lawful) (hendpoint : Distinct codec endpoint normal.selection)
    (hscopes : Distinct codec "scopes" normal.selection)
    (hserves : Serves codec filter normal window) (hstart : Representable window.start)
    (hstop : Representable window.stop) :
    Resumes codec filter normal endpoint window after
      ↔ positionBytes codec window after ≤ 1900 := by
  obtain ⟨hnormal, hwindow⟩ := hserves.sound
  have hscope := resolveScope_nextScope hlawful hnormal hwindow after
  constructor
  · exact fun h => hscope.mp h.scopes
  · intro hshort
    exact {
      records := fun record id hat hbefore hid =>
        resolve_next hlawful hnormal hwindow hstart hstop hat hbefore hid
      scopes := hscope.mpr hshort
      idempotent := Filter.normalize_normalize hnormal
      shared := fun other otherNormal hrespelled hother text later =>
        have hselection := hrespelled.selection_eq hnormal hother
        ⟨fun window before h => resolve_shared hnormal hother hselection h,
          fun window after h => resolveScope_shared hnormal hother hselection h⟩
      rejected := fun other otherNormal hother text later =>
        ⟨fun record hnext => next_rejected hlawful hendpoint hother hnext later,
          fun hnext => nextScope_rejected hlawful hscopes hother hnext later⟩ }

/-- The scope of a target that passed validation: its name and its scope are identifiers,
and the name has no separator. -/
def Configured (scope : Scope) : Prop :=
  targetName scope.target = true ∧ identifier scope.scope = true

instance : DecidablePred Configured := fun _ => inferInstanceAs (Decidable (_ ∧ _))

/-- The scopes of configured targets always fit. -/
theorem positionBytes_configured (hlawful : codec.Lawful) {window : Window}
    (hstart : Representable window.start) (hstop : Representable window.stop) {after : Scope}
    (hafter : Configured after) : positionBytes codec window after ≤ 1900 := by
  obtain ⟨htarget, hscope⟩ := hafter
  rw [targetName, Bool.and_eq_true] at htarget
  have hquoted : ∀ s, identifier s = true → (Json.quote s).utf8ByteSize ≤ 514 := by
    intro s hs
    rw [identifier, Bool.and_eq_true, Bool.and_eq_true, Bool.and_eq_true, decide_eq_true_eq,
      List.all_eq_true] at hs
    obtain ⟨⟨⟨-, hsize⟩, -⟩, hchars⟩ := hs
    rw [Json.utf8ByteSize_quote fun c hc => escape_of_identifier (hchars c hc)]
    exact Nat.add_le_add_right (of_decide_eq_true hsize) 2
  have hprovider : (Json.quote (providerName after.provider)).utf8ByteSize ≤ 12 := by
    cases after.provider <;> decide +kernel
  have hfrom := hlawful.stamp _ hstart
  have hto := hlawful.stamp _ hstop
  have hname := hquoted _ htarget.1
  have htext := hquoted _ hscope
  unfold positionBytes
  omega

end

/-! ## A reader of cursors -/

/-- The first hour of the epoch is written as dates, other instants as plain numbers. -/
def stampText (time : Time) : String :=
  if time = 0 then "1970-01-01T00:00:00Z"
  else if time = 3600 * nanosPerSecond then "1970-01-01T01:00:00Z"
  else String.ofList (Decimal.plain time 0).text

def readStamp (text : String) : Option Time :=
  if text = "1970-01-01T00:00:00Z" then some 0
  else if text = "1970-01-01T01:00:00Z" then some (3600 * nanosPerSecond)
  else (Decimal.read text.toList).map Prod.fst

/-- Thirty-six bytes without escapes. -/
abbrev IdText := { text : String // (Json.quote text).utf8ByteSize = 38 }

def readProvider (text : String) : Option Query.Provider :=
  [.gcp, .aws, .azure, .kubernetes, .github, .edge, .nats, .unknown].find? (providerName · == text)

def readWindow (l : List Char) : Option (Window × List Char) :=
  (Json.literal "\x7b\"from\":" l).bind fun l =>
    (Json.unquote l).bind fun start =>
      (Json.literal ",\"to\":" start.2).bind fun l =>
        (Json.unquote l).bind fun stop =>
          (Json.literal "\x7d" stop.2).bind fun l =>
            (readStamp start.1).bind fun start =>
              (readStamp stop.1).map fun stop => ({ start, stop }, l)

def readScope (l : List Char) : Option (Scope × List Char) :=
  (Json.literal "\x7b\"target\":" l).bind fun l =>
    (Json.unquote l).bind fun target =>
      (Json.literal ",\"provider\":" target.2).bind fun l =>
        (Json.unquote l).bind fun provider =>
          (Json.literal ",\"scope\":" provider.2).bind fun l =>
            (Json.unquote l).bind fun scope =>
              (Json.literal "\x7d" scope.2).bind fun l =>
                (readProvider provider.1).map fun provider =>
                  ({ target := target.1, provider, scope := scope.1 }, l)

def readId (text : String) : Option IdText :=
  if h : (Json.quote text).utf8ByteSize = 38 then some ⟨text, h⟩ else none

def readCursor (text : String) : Option (Cursor IdText) :=
  (Json.literal "\x7b\"version\":" text.toList).bind fun l =>
    (Json.literal ",\"fingerprint\":" (Json.number l).2).bind fun l' =>
      (Json.unquote l').bind fun fingerprint =>
        (Json.literal ",\"window\":" fingerprint.2).bind fun l' =>
          (readWindow l').bind fun window =>
            (Json.literal ",\"at\":" window.2).bind fun l' =>
              (Json.unquote l').bind fun stamp =>
                (Json.literal ",\"id\":" stamp.2).bind fun l' =>
                  (Json.unquote l').bind fun id =>
                    if id.2 = ['\x7d'] then
                      (readStamp stamp.1).bind fun stamp =>
                        (readId id.1).map fun id =>
                          { version := (Json.number l).1, fingerprint := fingerprint.1,
                            window := window.1, «at» := stamp, id }
                    else none

def readScopeCursor (text : String) : Option ScopeCursor :=
  (Json.literal "\x7b\"fingerprint\":" text.toList).bind fun l =>
    (Json.unquote l).bind fun fingerprint =>
      (Json.literal ",\"window\":" fingerprint.2).bind fun l =>
        (readWindow l).bind fun window =>
          (Json.literal ",\"after\":" window.2).bind fun l =>
            (readScope l).bind fun after =>
              if after.2 = ['\x7d'] then
                some { fingerprint := fingerprint.1, window := window.1, after := after.1 }
              else none

/-- Digests that tell one selection from the others, for two endpoints. -/
def digest (selection : Filter) (endpoint : String) (other : Filter) : String :=
  if other = selection ∧ endpoint = "findings" then
    "0f3c5a7e9b1d2f4a6c8e0b3d5f7a9c1e0f3c5a7e9b1d2f4a6c8e0b3d5f7a9c1e"
  else if other = selection ∧ endpoint = "scopes" then
    "a94a8fe5ccb19ba61c4c0873d391e987982fbbd3a94a8fe5ccb19ba61c4c0873"
  else "5df6e0e2761359d30a8275058e299fcc03815345d5df6e0e2761359d30a82750"

def reading (selection : Filter) : Codec IdText where
  digest := digest selection
  stamp := stampText
  idText := Subtype.val
  parseId := readId
  parseCursor := readCursor
  parseScope := readScopeCursor

theorem stampText_plain {time : Time} {text : String}
    (htext : ∃ c ∈ text.toList, ¬ (c.isDigit = true ∨ c = '.' ∨ c = '-')) :
    String.ofList (Decimal.plain time 0).text ≠ text := by
  rintro rfl
  obtain ⟨c, hc, hplain⟩ := htext
  rw [String.toList_ofList] at hc
  exact hplain (Decimal.mem_text_plain time 0 c hc)

theorem readStamp_stampText (time : Time) : readStamp (stampText time) = some time := by
  rw [stampText]
  split
  · next hzero => rw [hzero]; rfl
  split
  · next hhour => rw [hhour]; rfl
  have hfirst : String.ofList (Decimal.plain time 0).text ≠ "1970-01-01T00:00:00Z" :=
    stampText_plain ⟨'T', by decide, by decide⟩
  have hsecond : String.ofList (Decimal.plain time 0).text ≠ "1970-01-01T01:00:00Z" :=
    stampText_plain ⟨'T', by decide, by decide⟩
  rw [readStamp, if_neg hfirst, if_neg hsecond, String.toList_ofList,
    Decimal.Numeral.read_text (Decimal.wellFormed_plain time 0), Decimal.unscaled_plain,
    Option.map_some]
  simp

theorem stampText_size {time : Time} (h : Representable time) :
    (Json.quote (stampText time)).utf8ByteSize ≤ 35 := by
  rw [stampText]
  split
  · decide +kernel
  split
  · decide +kernel
  have hplain : ∀ c ∈ (Decimal.plain time 0).text, Json.escape c = [c] := by
    intro c hc
    obtain hdigit | rfl | rfl := Decimal.mem_text_plain time 0 c hc
    · have halnum : c.isAlphanum = true := by rw [Char.isAlphanum, hdigit, Bool.or_true]
      exact escape_of_identifier (by rw [halnum, Bool.true_or])
    · decide
    · decide
  have hlength : (Decimal.plain time 0).text.length ≤ 22 + (0 : Int).toNat + 2 := by
    refine Decimal.length_text_plain (by decide) ?_
    rw [Decimal.scaled_zero_right, ← Int.cast_abs]
    have habs : |time| < 10 ^ 22 := by
      obtain ⟨hfirst, hlast⟩ := h
      rw [Time.first] at hfirst
      rw [Time.last] at hlast
      exact abs_lt.mpr ⟨lt_of_lt_of_le (by norm_num) hfirst, lt_of_le_of_lt hlast (by norm_num)⟩
    exact_mod_cast habs
  rw [Json.utf8ByteSize_quote (by rwa [String.toList_ofList]), Decimal.utf8ByteSize_text_plain]
  rw [Int.toNat_zero] at hlength
  omega

theorem readProvider_providerName (provider : Query.Provider) :
    readProvider (providerName provider) = some provider := by
  cases provider <;> decide

theorem readWindow_windowJson (selection : Filter) (window : Window) (rest : List Char) :
    readWindow ((windowJson (reading selection) window).toList ++ rest) = some (window, rest) := by
  have htext : (windowJson (reading selection) window).toList ++ rest
      = "\x7b\"from\":".toList ++ ((Json.quote (stampText window.start)).toList
        ++ (",\"to\":".toList ++ ((Json.quote (stampText window.stop)).toList
        ++ ("\x7d".toList ++ rest)))) := by
    simp [windowJson, reading]
  rw [readWindow, htext, Json.literal_append, Option.bind_some, Json.unquote_quote,
    Option.bind_some, Json.literal_append, Option.bind_some, Json.unquote_quote, Option.bind_some,
    Json.literal_append, Option.bind_some, readStamp_stampText, Option.bind_some,
    readStamp_stampText, Option.map_some]

theorem readScope_scopeJson (scope : Scope) (rest : List Char) :
    readScope ((scopeJson scope).toList ++ rest) = some (scope, rest) := by
  have htext : (scopeJson scope).toList ++ rest
      = "\x7b\"target\":".toList ++ ((Json.quote scope.target).toList
        ++ (",\"provider\":".toList ++ ((Json.quote (providerName scope.provider)).toList
        ++ (",\"scope\":".toList ++ ((Json.quote scope.scope).toList
        ++ ("\x7d".toList ++ rest)))))) := by
    simp [scopeJson]
  rw [readScope, htext, Json.literal_append, Option.bind_some, Json.unquote_quote,
    Option.bind_some, Json.literal_append, Option.bind_some, Json.unquote_quote, Option.bind_some,
    Json.literal_append, Option.bind_some, Json.unquote_quote, Option.bind_some,
    Json.literal_append, Option.bind_some, readProvider_providerName, Option.map_some]

theorem cursorJson_toList (selection : Filter) (cursor : Cursor IdText) :
    (cursorJson (reading selection) cursor).toList
      = "\x7b\"version\":".toList ++ (cursor.version.repr.toList
        ++ (",\"fingerprint\":".toList ++ ((Json.quote cursor.fingerprint).toList
        ++ (",\"window\":".toList ++ ((windowJson (reading selection) cursor.window).toList
        ++ (",\"at\":".toList ++ ((Json.quote (stampText cursor.at)).toList
        ++ (",\"id\":".toList ++ ((Json.quote cursor.id.val).toList
        ++ "\x7d".toList))))))))) := by
  unfold cursorJson
  simp only [String.toList_append, List.append_assoc]
  rfl

theorem readCursor_cursorJson (selection : Filter) (cursor : Cursor IdText) :
    readCursor (cursorJson (reading selection) cursor) = some cursor := by
  have hnumber : ∀ l : List Char, Json.number (cursor.version.repr.toList
      ++ (",\"fingerprint\":".toList ++ l))
        = (cursor.version, ",\"fingerprint\":".toList ++ l) :=
    fun l => Json.number_append cursor.version (by decide) ("\"fingerprint\":".toList ++ l)
  have hid : readId cursor.id.val = some cursor.id := dif_pos cursor.id.property
  rw [readCursor, cursorJson_toList, Json.literal_append, Option.bind_some, hnumber,
    Json.literal_append, Option.bind_some, Json.unquote_quote, Option.bind_some,
    Json.literal_append, Option.bind_some, readWindow_windowJson, Option.bind_some,
    Json.literal_append, Option.bind_some, Json.unquote_quote, Option.bind_some,
    Json.literal_append, Option.bind_some, Json.unquote_quote, Option.bind_some,
    if_pos (show "\x7d".toList = ['\x7d'] by decide), readStamp_stampText, Option.bind_some, hid,
    Option.map_some]

theorem scopeCursorJson_toList (selection : Filter) (cursor : ScopeCursor) :
    (scopeCursorJson (reading selection) cursor).toList
      = "\x7b\"fingerprint\":".toList ++ ((Json.quote cursor.fingerprint).toList
        ++ (",\"window\":".toList ++ ((windowJson (reading selection) cursor.window).toList
        ++ (",\"after\":".toList ++ ((scopeJson cursor.after).toList ++ "\x7d".toList))))) := by
  unfold scopeCursorJson
  simp only [String.toList_append, List.append_assoc]

theorem readScopeCursor_scopeCursorJson (selection : Filter) (cursor : ScopeCursor) :
    readScopeCursor (scopeCursorJson (reading selection) cursor) = some cursor := by
  rw [readScopeCursor, scopeCursorJson_toList, Json.literal_append, Option.bind_some,
    Json.unquote_quote, Option.bind_some, Json.literal_append, Option.bind_some,
    readWindow_windowJson, Option.bind_some, Json.literal_append, Option.bind_some,
    readScope_scopeJson, Option.bind_some, if_pos (show "\x7d".toList = ['\x7d'] by decide)]

theorem digest_size (selection : Filter) (endpoint : String) (other : Filter) :
    (Json.quote (digest selection endpoint other)).utf8ByteSize = 66 := by
  rw [digest]
  split
  · decide +kernel
  split
  · decide +kernel
  · decide +kernel

@[simp] theorem reading_digest (selection : Filter) :
    (reading selection).digest = digest selection := rfl

@[simp] theorem reading_stamp (selection : Filter) : (reading selection).stamp = stampText := rfl

@[simp] theorem reading_idText (selection : Filter) :
    (reading selection).idText = Subtype.val := rfl

@[simp] theorem reading_parseCursor (selection : Filter) :
    (reading selection).parseCursor = readCursor := rfl

@[simp] theorem reading_parseScope (selection : Filter) :
    (reading selection).parseScope = readScopeCursor := rfl

theorem reading_lawful (selection : Filter) : (reading selection).Lawful := by
  constructor
  · intro endpoint filter
    rw [reading_digest, digest_size]
  · intro time htime
    rw [reading_stamp]
    exact stampText_size htime
  · intro id
    rw [reading_idText]
    exact id.property
  · intro cursor
    rw [reading_parseCursor, readCursor_cursorJson]
  · intro cursor
    rw [reading_parseScope, readScopeCursor_scopeCursorJson]
  · intro cursor
    have hfirst : ∀ l, Json.literal "\x7b\"fingerprint\":" ("\x7b\"version\":".toList ++ l)
        = none := by
      simp [Json.literal]
    rw [reading_parseScope, readScopeCursor, cursorJson_toList, hfirst, Option.bind_none]
  · intro cursor
    have hfirst : ∀ l, Json.literal "\x7b\"version\":" ("\x7b\"fingerprint\":".toList ++ l)
        = none := by
      simp [Json.literal]
    rw [reading_parseCursor, readCursor, scopeCursorJson_toList, hfirst, Option.bind_none]

theorem reading_distinct {selection : Filter} {endpoint : String}
    (h : endpoint = "findings" ∨ endpoint = "scopes") :
    Distinct (reading selection) endpoint selection := by
  intro other otherSelection hsame
  have hdigest : digest selection other otherSelection = digest selection endpoint selection :=
    hsame
  obtain rfl | rfl := h
  · rw [digest, digest, if_pos (And.intro rfl rfl : selection = selection ∧ _)] at hdigest
    split at hdigest
    · next h => exact ⟨h.2, h.1⟩
    split at hdigest
    · exact absurd hdigest (by decide)
    · exact absurd hdigest (by decide)
  · have hfirst : ¬ (selection = selection ∧ "scopes" = "findings") := fun h =>
      absurd h.2 (by decide)
    rw [digest, digest, if_neg hfirst, if_pos (And.intro rfl rfl : selection = selection ∧ _)]
      at hdigest
    split at hdigest
    · exact absurd hdigest (by decide)
    split at hdigest
    · next h => exact ⟨h.2, h.1⟩
    · exact absurd hdigest (by decide)

/-! ## Pages of the first hour -/

def hour : Window where
  start := 0
  stop := 3600 * nanosPerSecond

theorem representable_start : Representable hour.start := by
  rw [Representable, hour, Time.first, Time.last]
  decide

theorem representable_stop : Representable hour.stop := by
  rw [Representable, hour, Time.first, Time.last, nanosPerSecond]
  decide

def project : Filter := { project := some "acme", hostname := some "API.acme.example." }

def projectNormal : Filter :=
  { scope := some "acme", provider := some .gcp, hostname := some "api.acme.example" }

theorem projectNormal_distinct {endpoint : String}
    (h : endpoint = "findings" ∨ endpoint = "scopes") :
    Distinct (reading projectNormal) endpoint projectNormal.selection :=
  reading_distinct h

theorem resolve_project :
    resolve (reading projectNormal) project "findings" (3600 * nanosPerSecond)
      = .ok (projectNormal, hour, none) := rfl

end HealthMonitor.Server.QueryCursor
