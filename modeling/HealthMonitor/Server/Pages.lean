import HealthMonitor.Library.Groups
import HealthMonitor.Library.Json
import HealthMonitor.Library.Keyset
import HealthMonitor.Server.View
import Mathlib.Data.Prod.Lex
import Mathlib.Data.String.Basic

/-!
# Pages

Stable keyset cursors survive insertions and removals between page requests. A cursor is
the key of a row, and it is bound to the endpoint and the filters it was made for by a
digest of them. How cursors are read and scopes digested is a parameter, `Codec`; how
they are written is not.
-/

namespace HealthMonitor.Server.Pages

open Keyset

inductive Direction where
  | next | previous
  deriving DecidableEq, Repr

inductive ApiError where
  | badQuery | refresh
  deriving DecidableEq, Repr

/-- The tuples the rows are ordered by. -/
abbrev Key := Nat ×ₗ String ×ₗ String

structure Cursor where
  priority : Nat
  resource : String
  identity : String
  deriving DecidableEq, Repr

def Cursor.key (cursor : Cursor) : Key :=
  toLex (cursor.priority, toLex (cursor.resource, cursor.identity))

class Keyed (α : Type) where
  key : α → Key

instance : Keyed View.Resource where
  key row := toLex (0, toLex (row.id, ""))

instance : Keyed View.FindingView where
  key row :=
    let priority := match row.severity with
      | .error => 0
      | .warning => 1
      | .info => 2
    toLex (priority, toLex (row.resource, row.id))

structure Slice (α : Type) where
  items : List α
  next : Option String
  previous : Option String
  total : Nat
  deriving DecidableEq, Repr

structure ScopedCursor where
  scope : String
  position : String
  deriving DecidableEq, Repr

/-- The digest of a serialised scope in hexadecimal, and how texts are read as cursors. -/
structure Codec where
  digest : String → String
  parseCursor : String → Option Cursor
  parseScoped : String → Option ScopedCursor

/-! ## Writing cursors -/

def cursorJson (cursor : Cursor) : String :=
  "\x7b\"priority\":" ++ cursor.priority.repr ++ ",\"resource\":" ++ Json.quote cursor.resource
    ++ ",\"identity\":" ++ Json.quote cursor.identity ++ "\x7d"

def scopedJson (cursor : ScopedCursor) : String :=
  "\x7b\"scope\":" ++ Json.quote cursor.scope ++ ",\"position\":" ++ Json.quote cursor.position
    ++ "\x7d"

def cursorOf (key : Key) : Cursor where
  priority := (ofLex key).1
  resource := (ofLex (ofLex key).2).1
  identity := (ofLex (ofLex key).2).2

section

variable {α : Type} [Keyed α]

/-- The cursor of a row. -/
def cursor (row : α) : String :=
  cursorJson (cursorOf (Keyed.key row))

/-! ## Selecting a page -/

def sorted (rows : List α) : List α :=
  rows.insertionSort fun a b => Keyed.key a ≤ Keyed.key b

def boundary (codec : Codec) (after : Option String) : Except ApiError (Option Cursor) :=
  match after with
  | none => .ok none
  | some value =>
      if value.utf8ByteSize ≤ 16384 then
        match codec.parseCursor value with
        | none => .error .badQuery
        | some value =>
            if 2 < value.priority || 4096 < value.resource.utf8ByteSize
                || 8192 < value.identity.utf8ByteSize then
              .error .badQuery
            else .ok (some value)
      else .error .badQuery

/-- Where the page starts and ends in the sorted rows. -/
def window (rows : List α) (boundary : Option Cursor) (direction : Direction) (limit : Nat) :
    Nat × Nat :=
  match boundary, direction with
  | some boundary, .previous =>
      let stop := position (fun row => decide (Keyed.key row < boundary.key)) rows
      (stop - limit, stop)
  | _, _ =>
      let start := (boundary.map fun boundary =>
        position (fun row => decide (Keyed.key row ≤ boundary.key)) rows).getD 0
      -- `saturating_add` is past the end either way
      (start, min (start + limit) rows.length)

/-- What is served of sorted rows between two places. -/
def slice (rows : List α) (start stop : Nat) : Slice α where
  items := (rows.take stop).drop start
  next := if stop < rows.length then ((rows.take stop).drop start).getLast?.map cursor else none
  previous := if 0 < start then ((rows.take stop).drop start).head?.map cursor else none
  total := rows.length

def select (codec : Codec) (rows : List α) (after : Option String) (direction : Direction)
    (limit : Nat) : Except ApiError (Slice α) :=
  match boundary codec after with
  | .error error => .error error
  | .ok boundary =>
      let range := window (sorted rows) boundary direction limit
      .ok (slice (sorted rows) range.1 range.2)

/-- The position in a cursor of the scope. -/
def unscope (codec : Codec) (scope : String) (after : Option String) :
    Except ApiError (Option String) :=
  match after with
  | none => .ok none
  | some value =>
      if value.utf8ByteSize ≤ 32768 then
        match codec.parseScoped value with
        | none => .error .refresh
        | some cursor =>
            if cursor.scope ≠ codec.digest scope then .error .refresh
            else .ok (some cursor.position)
      else .error .badQuery

def encode (codec : Codec) (scope position : String) : String :=
  scopedJson { scope := codec.digest scope, position }

/-- The scope is given as it is serialised. -/
def selectScoped (codec : Codec) (rows : List α) (after : Option String) (direction : Direction)
    (limit : Nat) (scope : String) : Except ApiError (Slice α) :=
  match unscope codec scope after with
  | .error error => .error error
  | .ok position =>
      match select codec rows position direction limit with
      | .error error => .error error
      | .ok page =>
          .ok { page with
            next := page.next.map (encode codec scope)
            previous := page.previous.map (encode codec scope) }

/-! ## Following the cursors -/

/-- Next requests, each served from the rows there are by then, until there is no next
cursor. -/
def follow (codec : Codec) (limit : Nat) (scope : String) (after : Option String) :
    List (List α) → Except ApiError (List (Slice α))
  | [] => .ok []
  | rows :: later =>
      match selectScoped codec rows after .next limit scope with
      | .error error => .error error
      | .ok page =>
          match page.next with
          | none => .ok [page]
          | some next =>
              match follow codec limit scope (some next) later with
              | .error error => .error error
              | .ok pages => .ok (page :: pages)

/-- The keys that were returned, in order. -/
def keys (pages : List (Slice α)) : List Key :=
  pages.flatMap fun page => page.items.map Keyed.key

/-- The last page has no next cursor. -/
def Finished (pages : List (Slice α)) : Prop :=
  ∃ page, pages.getLast? = some page ∧ page.next = none

/-- The page holds rows of the list, as many as asked for while others follow. -/
structure Slice.Serves (limit : Nat) (page : Slice α) (rows : List α) : Prop where
  subset : page.items ⊆ rows
  length_le : page.items.length ≤ limit
  full : page.next.isSome → page.items.length = limit

end

/-! ## Cursors that are written are read -/

/-- What reading relies on: a text that was written is read as what it was written from. -/
structure Codec.Lawful (codec : Codec) : Prop where
  cursor : ∀ cursor, cursor.priority ≤ 255 → codec.parseCursor (cursorJson cursor) = some cursor
  whole : ∀ cursor, codec.parseScoped (scopedJson cursor) = some cursor

/-- The bounds a cursor is checked against when it comes back. -/
@[mk_iff]
structure Decodable (codec : Codec) (scope : String) (key : Key) : Prop where
  priority : (cursorOf key).priority ≤ 2
  resource : (cursorOf key).resource.utf8ByteSize ≤ 4096
  identity : (cursorOf key).identity.utf8ByteSize ≤ 8192
  position : (cursorJson (cursorOf key)).utf8ByteSize ≤ 16384
  whole : (encode codec scope (cursorJson (cursorOf key))).utf8ByteSize ≤ 32768

/-- Rows with distinct keys within these bounds. -/
@[mk_iff]
structure Servable {α : Type} [Keyed α] (codec : Codec) (scope : String) (rows : List α) :
    Prop where
  distinct : (rows.map Keyed.key).Nodup
  decodable : ∀ row ∈ rows, Decodable codec scope (Keyed.key row)

instance (codec : Codec) (scope : String) (key : Key) : Decidable (Decodable codec scope key) :=
  decidable_of_iff _ (decodable_iff codec scope key).symm

instance {α : Type} [Keyed α] (codec : Codec) (scope : String) (rows : List α) :
    Decidable (Servable codec scope rows) :=
  decidable_of_iff _ (servable_iff codec scope rows).symm

section

variable {α : Type} [Keyed α] {codec : Codec} {scope : String} {rows : List α} {row : α}
  {limit : Nat}

theorem boundary_cursor (hlawful : codec.Lawful) (h : Decodable codec scope (Keyed.key row)) :
    boundary codec (some (cursor row)) = .ok (some (cursorOf (Keyed.key row))) := by
  have hread := hlawful.cursor (cursorOf (Keyed.key row)) (h.priority.trans (by decide))
  have hfits : ¬(decide (2 < (cursorOf (Keyed.key row)).priority)
      || decide (4096 < (cursorOf (Keyed.key row)).resource.utf8ByteSize)
      || decide (8192 < (cursorOf (Keyed.key row)).identity.utf8ByteSize)) = true := by
    simp [Nat.not_lt.mpr h.priority, Nat.not_lt.mpr h.resource, Nat.not_lt.mpr h.identity]
  have hsize : (cursor row).utf8ByteSize ≤ 16384 := h.position
  simp only [boundary]
  rw [if_pos hsize]
  simp only [cursor, hread]
  rw [if_neg hfits]

theorem unscope_encode (hlawful : codec.Lawful) (h : Decodable codec scope (Keyed.key row)) :
    unscope codec scope (some (encode codec scope (cursor row))) = .ok (some (cursor row)) := by
  have hsize : (encode codec scope (cursor row)).utf8ByteSize ≤ 32768 := h.whole
  simp only [unscope]
  rw [if_pos hsize, encode]
  simp only [hlawful.whole]
  rw [if_neg (by simp)]

/-- A cursor says which scope it is of. -/
theorem unscope_other (hlawful : codec.Lawful) (h : Decodable codec scope (Keyed.key row))
    {other : String} (hother : codec.digest scope ≠ codec.digest other) :
    unscope codec other (some (encode codec scope (cursor row))) = .error .refresh := by
  have hsize : (encode codec scope (cursor row)).utf8ByteSize ≤ 32768 := h.whole
  simp only [unscope]
  rw [if_pos hsize, encode]
  simp only [hlawful.whole]
  rw [if_pos hother]

/-- A slice with its cursors bound to the scope. -/
def bind (codec : Codec) (scope : String) (page : Slice α) : Slice α :=
  { page with
    next := page.next.map (encode codec scope)
    previous := page.previous.map (encode codec scope) }

theorem selectScoped_none (direction : Direction) :
    selectScoped codec rows none direction limit scope
      = .ok (bind codec scope (slice (sorted rows) (window (sorted rows) none direction limit).1
          (window (sorted rows) none direction limit).2)) := rfl

theorem selectScoped_cursor (hlawful : codec.Lawful) (h : Decodable codec scope (Keyed.key row))
    (direction : Direction) :
    selectScoped codec rows (some (encode codec scope (cursor row))) direction limit scope
      = .ok (bind codec scope (slice (sorted rows)
          (window (sorted rows) (some (cursorOf (Keyed.key row))) direction limit).1
          (window (sorted rows) (some (cursorOf (Keyed.key row))) direction limit).2)) := by
  rw [selectScoped, unscope_encode hlawful h]
  simp only [select, boundary_cursor hlawful h]
  rfl

/-! ## The rows of a page -/

theorem ordered_sorted (h : (rows.map Keyed.key).Nodup) :
    Ordered Keyed.key (sorted rows) := by
  have hperm : (sorted rows).Perm rows := List.perm_insertionSort _ rows
  have hle : (sorted rows).Pairwise fun a b => Keyed.key a ≤ Keyed.key b := by
    have : Std.Total fun a b : α => Keyed.key a ≤ Keyed.key b :=
      ⟨fun a b => le_total (Keyed.key a) (Keyed.key b)⟩
    have : IsTrans α fun a b => Keyed.key a ≤ Keyed.key b := ⟨fun _ _ _ => le_trans⟩
    exact List.pairwise_insertionSort _ rows
  have hne : (sorted rows).Pairwise fun a b => Keyed.key a ≠ Keyed.key b :=
    List.pairwise_map.mp ((hperm.map Keyed.key).nodup_iff.mpr h)
  exact (hle.and hne).imp fun h => lt_of_le_of_ne h.1 h.2

theorem mem_sorted : row ∈ sorted rows ↔ row ∈ rows :=
  List.mem_insertionSort _

/-- Going on from a cursor leads to the rows above it, and to more while there are any. -/
theorem slice_next {l : List α} (hl : Ordered Keyed.key l) (bound : Option Cursor) :
    let page := bind codec scope
      (slice l (window l bound .next limit).1 (window l bound .next limit).2)
    page.items = Keyset.page Keyed.key limit (bound.map Cursor.key) l
      ∧ page.next =
        if limit < (rest Keyed.key (bound.map Cursor.key) l).length then
          page.items.getLast?.map fun row => encode codec scope (cursor row)
        else none := by
  have hstart : l.drop (window l bound .next limit).1 = rest Keyed.key (bound.map Cursor.key) l := by
    cases bound with
    | none =>
        exact (List.filter_eq_self.mpr fun _ _ => rfl).symm
    | some bound => exact hl.drop_boundary bound.key
  have hstop : (window l bound .next limit).2
      = min ((window l bound .next limit).1 + limit) l.length := by
    cases bound <;> rfl
  have hlength := congrArg List.length hstart
  rw [List.length_drop] at hlength
  have hitems : (l.take (window l bound .next limit).2).drop (window l bound .next limit).1
      = Keyset.page Keyed.key limit (bound.map Cursor.key) l := by
    rw [hstop, Keyset.page, ← hstart, List.drop_take, List.take_eq_take_iff, List.length_drop]
    omega
  refine ⟨hitems, ?_⟩
  show Option.map _ (if (window l bound .next limit).2 < l.length then Option.map cursor _ else none)
    = _
  by_cases hmore : limit < (rest Keyed.key (bound.map Cursor.key) l).length
  · rw [if_pos hmore, if_pos (by omega), Option.map_map]
    rfl
  · rw [if_neg hmore, if_neg (by omega), Option.map_none]

/-- A Next request with the cursor of a row, or with none. -/
theorem served_next (hlawful : codec.Lawful) (hrows : Servable codec scope rows)
    {last : Option α} (hlast : ∀ row ∈ last, Decodable codec scope (Keyed.key row)) :
    ∃ page, selectScoped codec rows (last.map fun row => encode codec scope (cursor row)) .next
        limit scope = .ok page
      ∧ page.items = Keyset.page Keyed.key limit (last.map Keyed.key) (sorted rows)
      ∧ page.next =
        if limit < (rest Keyed.key (last.map Keyed.key) (sorted rows)).length then
          page.items.getLast?.map fun row => encode codec scope (cursor row)
        else none := by
  have hl := ordered_sorted hrows.distinct
  cases last with
  | none => exact ⟨_, selectScoped_none .next, slice_next hl none⟩
  | some row =>
      exact ⟨_, selectScoped_cursor hlawful (hlast row rfl) .next,
        slice_next hl (some (cursorOf (Keyed.key row)))⟩

/-! ## Following the cursors of a walk -/

/-- What is returned from a boundary on: keys in increasing order, all above it, and at
the end every row above it that was in all the lists. A walk that has not ended returned a
full page for each list, and there is a row above them all. -/
structure Walked (limit : Nat) (bound : Option Key) (lists : List (List α))
    (pages : List (Slice α)) : Prop where
  served : List.Forall₂ (Slice.Serves limit) pages (lists.take pages.length)
  onward : lists ≠ [] → ¬Finished pages → (keys pages).length = lists.length * limit
    ∧ ∃ rows ∈ lists, ∃ row ∈ rows, Keyset.above bound (Keyed.key row) = true
      ∧ ∀ k ∈ keys pages, k < Keyed.key row
  increasing : (keys pages).Pairwise (· < ·)
  above : ∀ k ∈ keys pages, above bound k = true
  complete : Finished pages → ∀ k, Keyset.above bound k = true → ∀ p : α → Prop,
    (∀ rows ∈ lists.take pages.length, ∃ row ∈ rows, Keyed.key row = k ∧ p row) →
      ∃ row ∈ pages.flatMap Slice.items, Keyed.key row = k ∧ p row

theorem keys_cons (page : Slice α) (pages : List (Slice α)) :
    keys (page :: pages) = page.items.map Keyed.key ++ keys pages := rfl

theorem Walked.nil (bound : Option Key) : Walked limit bound ([] : List (List α)) [] := by
  refine ⟨.nil, fun hne => absurd rfl hne, .nil, fun k hk => (by cases hk), fun hfinished => ?_⟩
  obtain ⟨page, hpage, -⟩ := hfinished
  cases hpage

section

variable {bound : Option Key} {later : List (List α)} {page : Slice α}
  (hl : Ordered Keyed.key (sorted rows))
  (hitems : page.items = Keyset.page Keyed.key limit bound (sorted rows))

include hitems

theorem serves_of_page
    (hfull : page.next.isSome → limit < (rest Keyed.key bound (sorted rows)).length) :
    page.Serves limit rows := by
  refine ⟨fun row hrow => mem_sorted.mp (mem_of_mem_page (hitems ▸ hrow)), ?_, fun hnext => ?_⟩
  · rw [hitems]
    exact List.length_take_le _ _
  · rw [hitems, length_page (hfull hnext).le]

include hl

/-- Nothing is left above the last page. -/
theorem Walked.last (hnext : page.next = none)
    (hmore : ¬limit < (rest Keyed.key bound (sorted rows)).length) :
    Walked limit bound (rows :: later) [page] := by
  have hkeys : keys [page] = page.items.map Keyed.key := List.append_nil _
  have hfinished : Finished [page] := ⟨page, rfl, hnext⟩
  refine ⟨?_, fun _ hnot => absurd hfinished hnot, ?_, fun k hk => ?_, fun _ k hk p hthere => ?_⟩
  · exact .cons (serves_of_page hitems fun h => by simp [hnext] at h) .nil
  · rw [hkeys, hitems, List.pairwise_map]
    exact hl.page limit bound
  · rw [hkeys, hitems] at hk
    obtain ⟨row, hrow, rfl⟩ := List.mem_map.mp hk
    exact above_of_mem_page hrow
  · obtain ⟨row, hrow, rfl, hp⟩ := hthere rows (by simp)
    rcases @hl.mem_page_or _ _ _ _ _ limit _ _ (mem_sorted.mpr hrow) hk with hon | ⟨hlt, -⟩
    · exact ⟨row, by simp [hitems, hon], rfl, hp⟩
    · exact absurd hlt hmore

theorem Walked.onward_cons {pages : List (Slice α)} {final : α}
    (hfinal : page.items.getLast? = some final)
    (hmore : limit < (rest Keyed.key bound (sorted rows)).length)
    (hpages : Walked limit (some (Keyed.key final)) later pages)
    (hunfinished : ¬Finished (page :: pages)) :
    (keys (page :: pages)).length = (rows :: later).length * limit
      ∧ ∃ list ∈ rows :: later, ∃ row ∈ list, Keyset.above bound (Keyed.key row) = true
        ∧ ∀ k ∈ keys (page :: pages), k < Keyed.key row := by
  have hfull : (page.items.map Keyed.key).length = limit := by
    rw [List.length_map, hitems, length_page hmore.le]
  cases later with
  | nil =>
      obtain rfl : pages = [] := by
        have hserved := hpages.served
        rw [List.take_nil] at hserved
        exact List.forall₂_nil_right_iff.mp hserved
      obtain ⟨row, hrow, habove, hhigher⟩ := hl.exists_above_page hmore
      rw [keys_cons]
      refine ⟨by simp [keys, hfull], rows, List.mem_singleton_self rows, row,
        mem_sorted.mp hrow, habove, fun k hk => ?_⟩
      obtain ⟨other, hother, rfl⟩ := List.mem_map.mp (List.append_nil _ ▸ hk)
      exact hhigher other (hitems ▸ hother)
  | cons list rest =>
      have hrest : ¬Finished pages := by
        rintro ⟨stop, hstop, hnone⟩
        cases pages with
        | nil => cases hstop
        | cons second others => exact hunfinished ⟨stop, hstop, hnone⟩
      obtain ⟨hlength, list', hlist, row, hrow, habove, hhigher⟩ :=
        hpages.onward (List.cons_ne_nil _ _) hrest
      have hlt : Keyed.key final < Keyed.key row := of_decide_eq_true habove
      have hpage : Ordered Keyed.key page.items := hitems ▸ hl.page limit bound
      refine ⟨?_, list', List.mem_cons_of_mem _ hlist, row, hrow,
        above_trans (above_of_mem_page (hitems ▸ List.mem_of_getLast? hfinal)) hlt,
        fun k hk => ?_⟩
      · rw [keys_cons, List.length_append, hfull, hlength]
        simp only [List.length_cons, Nat.add_mul, Nat.one_mul]
        omega
      · rcases List.mem_append.mp hk with hk | hk
        · obtain ⟨other, hother, rfl⟩ := List.mem_map.mp hk
          exact (hpage.le_last hother hfinal).trans_lt hlt
        · exact hhigher k hk

/-- What is not on a page is above its last row, where the next one starts. -/
theorem Walked.cons {pages : List (Slice α)} {final : α} (hfinal : page.items.getLast? = some final)
    (hnext : page.next.isSome = true)
    (hmore : limit < (rest Keyed.key bound (sorted rows)).length)
    (hpages : Walked limit (some (Keyed.key final)) later pages) :
    Walked limit bound (rows :: later) (page :: pages) := by
  have hpage : Ordered Keyed.key page.items := hitems ▸ hl.page limit bound
  have hmem : final ∈ page.items := List.mem_of_getLast? hfinal
  have hhigher : ∀ k ∈ keys pages, Keyed.key final < k :=
    fun k hk => of_decide_eq_true (hpages.above k hk)
  have hserves : page.Serves limit rows := serves_of_page hitems fun _ => hmore
  have hrest : Finished (page :: pages) → Finished pages := by
    rintro ⟨stop, hstop, hnone⟩
    cases pages with
    | nil =>
        rw [List.getLast?_singleton, Option.some.injEq] at hstop
        rw [hstop, hnone] at hnext
        cases hnext
    | cons second others => exact ⟨stop, hstop, hnone⟩
  refine ⟨.cons hserves hpages.served, fun _ hunfinished => ?_, ?_, fun k hk => ?_,
    fun hfinished k hk p hthere => ?_⟩
  · exact Walked.onward_cons hl hitems hfinal hmore hpages hunfinished
  · rw [keys_cons, List.pairwise_append, List.pairwise_map]
    refine ⟨hpage, hpages.increasing, fun k hk other hother => ?_⟩
    obtain ⟨row, hrow, rfl⟩ := List.mem_map.mp hk
    exact (hpage.le_last hrow hfinal).trans_lt (hhigher other hother)
  · rcases List.mem_append.mp hk with hk | hk
    · obtain ⟨row, hrow, rfl⟩ := List.mem_map.mp hk
      exact above_of_mem_page (hitems ▸ hrow)
    · exact above_trans (above_of_mem_page (hitems ▸ hmem)) (hhigher k hk)
  · obtain ⟨row, hrow, rfl, hp⟩ := hthere rows (by simp)
    rcases @hl.mem_page_or _ _ _ _ _ limit _ _ (mem_sorted.mpr hrow) hk with hon | ⟨-, habove⟩
    · exact ⟨row, by simp [hitems, hon], rfl, hp⟩
    · obtain ⟨found, hfound, heq, hpfound⟩ := hpages.complete (hrest hfinished) (Keyed.key row)
        (decide_eq_true (habove final (hitems ▸ hmem))) p
        fun rows hrows => hthere rows (by simp [hrows])
      exact ⟨found, by simp [hfound], heq, hpfound⟩

end

theorem follow_walked (hlimit : 1 ≤ limit) (hlawful : codec.Lawful) (lists : List (List α))
    (hlists : ∀ rows ∈ lists, Servable codec scope rows) (last : Option α)
    (hlast : ∀ row ∈ last, Decodable codec scope (Keyed.key row)) :
    ∃ pages, follow codec limit scope (last.map fun row => encode codec scope (cursor row)) lists
        = .ok pages
      ∧ Walked limit (last.map Keyed.key) lists pages := by
  induction lists generalizing last with
  | nil => exact ⟨[], rfl, .nil _⟩
  | cons rows later ih =>
      have hrows := hlists rows (by simp)
      have hl := ordered_sorted hrows.distinct
      obtain ⟨page, hpage, hitems, hnext⟩ := @served_next _ _ _ _ _ limit hlawful hrows _ hlast
      by_cases hmore : limit < (rest Keyed.key (last.map Keyed.key) (sorted rows)).length
      · rw [if_pos hmore] at hnext
        obtain ⟨final, hfinal⟩ := Option.isSome_iff_exists.mp
          (List.getLast?_isSome.mpr (hitems ▸ page_ne_nil hlimit hmore))
        have hmem : final ∈ sorted rows :=
          mem_of_mem_page (hitems ▸ List.mem_of_getLast? hfinal)
        rw [hfinal, Option.map_some] at hnext
        obtain ⟨pages, hpages, hwalked⟩ := ih (fun rows h => hlists rows (by simp [h]))
          (some final) fun row h => Option.mem_some.mp h ▸ hrows.decodable final (mem_sorted.mp hmem)
        refine ⟨page :: pages, ?_, .cons hl hitems hfinal (by rw [hnext]; rfl) hmore hwalked⟩
        simp only [follow, hpage, hnext]
        rw [Option.map_some] at hpages
        rw [hpages]
      · rw [if_neg hmore] at hnext
        refine ⟨[page], ?_, .last hl hitems hnext hmore⟩
        simp only [follow, hpage, hnext]

/-- A walk ends when there are no more rows than its pages can hold. -/
theorem Walked.finished {lists : List (List α)} {pages : List (Slice α)}
    (h : Walked limit none lists pages) (hne : lists ≠ []) {stock : List Key}
    (hstock : ∀ rows ∈ lists, ∀ row ∈ rows, Keyed.key row ∈ stock)
    (hlength : stock.length ≤ lists.length * limit) : Finished pages := by
  by_contra hunfinished
  obtain ⟨hfull, rows, hrows, row, hrow, -, hhigher⟩ := h.onward hne hunfinished
  have hnodup : (Keyed.key row :: keys pages).Nodup :=
    List.nodup_cons.mpr ⟨fun hmem => lt_irrefl _ (hhigher _ hmem), h.increasing.imp ne_of_lt⟩
  have hsubset : Keyed.key row :: keys pages ⊆ stock := by
    intro k hk
    rcases List.mem_cons.mp hk with rfl | hk
    · exact hstock rows hrows row hrow
    · obtain ⟨page, hpage, hk⟩ := List.mem_flatMap.mp hk
      obtain ⟨item, hitem, rfl⟩ := List.mem_map.mp hk
      obtain ⟨list, hlist, hserves⟩ := Groups.exists_of_forall₂ h.served.flip page hpage
      exact hstock list (List.mem_of_mem_take hlist) item (hserves.subset hitem)
  have hle := (List.subperm_of_subset hnodup hsubset).length_le
  rw [List.length_cons, hfull] at hle
  omega

theorem follow_start (hlimit : 1 ≤ limit) (hlawful : codec.Lawful) (lists : List (List α))
    (hlists : ∀ rows ∈ lists, Servable codec scope rows) :
    ∃ pages, follow codec limit scope none lists = .ok pages ∧ Walked limit none lists pages :=
  follow_walked hlimit hlawful lists hlists none fun row h => by cases h

/-- A walk over rows that do not change ends when it has returned all of them. -/
theorem follow_unchanged (hlimit : 1 ≤ limit) (hlawful : codec.Lawful)
    (hrows : Servable codec scope rows) {n : Nat} (hn : 1 ≤ n) (hlength : rows.length ≤ n * limit) :
    ∃ pages, follow codec limit scope none (List.replicate n rows) = .ok pages
      ∧ Finished pages ∧ pages.flatMap Slice.items = sorted rows := by
  obtain ⟨pages, hpages, hwalked⟩ := follow_start hlimit hlawful (List.replicate n rows)
    fun list hlist => List.eq_of_mem_replicate hlist ▸ hrows
  have hsame : ∀ list ∈ (List.replicate n rows).take pages.length, list = rows :=
    fun list hlist => List.eq_of_mem_replicate (List.mem_of_mem_take hlist)
  have hfinished : Finished pages := by
    have hstock : ∀ list ∈ List.replicate n rows, ∀ row ∈ list,
        Keyed.key row ∈ rows.map Keyed.key := fun list hlist row hrow =>
      List.mem_map_of_mem (List.eq_of_mem_replicate hlist ▸ hrow)
    refine hwalked.finished (List.ne_nil_of_length_pos (by rwa [List.length_replicate])) hstock ?_
    rwa [List.length_map, List.length_replicate]
  refine ⟨pages, hpages, hfinished, ?_⟩
  have hincreasing := hwalked.increasing
  rw [keys, ← List.map_flatMap, List.pairwise_map] at hincreasing
  refine eq_of_ordered hincreasing (ordered_sorted hrows.distinct) fun row => ?_
  rw [mem_sorted]
  constructor
  · intro hrow
    obtain ⟨page, hpage, hitem⟩ := List.mem_flatMap.mp hrow
    obtain ⟨list, hlist, hserves⟩ := Groups.exists_of_forall₂ hwalked.served.flip page hpage
    exact hsame list hlist ▸ hserves.subset hitem
  · intro hrow
    obtain ⟨found, hfound, -, rfl⟩ := hwalked.complete hfinished (Keyed.key row) rfl (· = row)
      fun list hlist => ⟨row, hsame list hlist ▸ hrow, rfl, rfl⟩
    exact hfound

/-! ## Going back -/

/-- A page that does not start at the first row is full, or ends at the last. -/
theorem window_full {l : List α} {bound : Option Cursor} {direction : Direction}
    (h : 0 < (window l bound direction limit).1) :
    (window l bound direction limit).2
      = min ((window l bound direction limit).1 + limit) l.length := by
  have hprevious : ∀ cursor : Cursor, 0 < (window l (some cursor) .previous limit).1 →
      (window l (some cursor) .previous limit).2
        = min ((window l (some cursor) .previous limit).1 + limit) l.length := by
    intro cursor hpos
    have hle : position (fun row => decide (Keyed.key row < cursor.key)) l ≤ l.length :=
      List.findIdx_le_length
    simp only [window] at hpos ⊢
    omega
  cases bound with
  | none => rfl
  | some cursor =>
      cases direction with
      | next => rfl
      | previous => exact hprevious cursor h

/-- Every accepted request serves a slice of the sorted rows. -/
theorem selectScoped_ok {after : Option String} {direction : Direction} {page : Slice α}
    (h : selectScoped codec rows after direction limit scope = .ok page) :
    ∃ bound, page = bind codec scope (slice (sorted rows)
      (window (sorted rows) bound direction limit).1
      (window (sorted rows) bound direction limit).2) := by
  rw [selectScoped] at h
  cases hposition : unscope codec scope after with
  | error error => simp [hposition] at h
  | ok position =>
      rw [hposition] at h
      cases hbound : boundary codec position with
      | error error => simp [select, hbound] at h
      | ok bound =>
          simp only [select, hbound, Except.ok.injEq] at h
          exact ⟨bound, h.symm⟩

/-- The cursors of a page are those of rows. -/
theorem cursor_of_row {page : Slice α} {after : Option String} {direction : Direction}
    (h : selectScoped codec rows after direction limit scope = .ok page) {text : String}
    (htext : page.next = some text ∨ page.previous = some text) :
    ∃ row ∈ rows, text = encode codec scope (cursor row) := by
  obtain ⟨bound, rfl⟩ := selectScoped_ok h
  have hitem : ∀ row, row ∈ ((sorted rows).take (window (sorted rows) bound direction limit).2).drop
      (window (sorted rows) bound direction limit).1 → row ∈ rows :=
    fun row hrow => mem_sorted.mp (List.mem_of_mem_take (List.mem_of_mem_drop hrow))
  rcases htext with htext | htext
  · obtain ⟨position, hposition, rfl⟩ := Option.map_eq_some_iff.mp htext
    rw [slice] at hposition
    obtain ⟨-, hposition⟩ := Option.ite_none_right_eq_some.mp hposition
    obtain ⟨row, hrow, rfl⟩ := Option.map_eq_some_iff.mp hposition
    exact ⟨row, hitem row (List.mem_of_getLast? hrow), rfl⟩
  · obtain ⟨position, hposition, rfl⟩ := Option.map_eq_some_iff.mp htext
    rw [slice] at hposition
    obtain ⟨-, hposition⟩ := Option.ite_none_right_eq_some.mp hposition
    obtain ⟨row, hrow, rfl⟩ := Option.map_eq_some_iff.mp hposition
    exact ⟨row, hitem row (List.mem_of_head? hrow), rfl⟩

/-- Where a page has a previous cursor it starts at a row, which the cursor is of. -/
theorem previous_at {l : List α} {start stop : Nat} {text : String}
    (h : (bind codec scope (slice l start stop)).previous = some text) :
    0 < start ∧ ∃ hlt : start < l.length,
      start < stop ∧ text = encode codec scope (cursor l[start]) := by
  obtain ⟨position, hposition, rfl⟩ := Option.map_eq_some_iff.mp h
  rw [slice] at hposition
  obtain ⟨hpos, hposition⟩ := Option.ite_none_right_eq_some.mp hposition
  obtain ⟨row, hrow, rfl⟩ := Option.map_eq_some_iff.mp hposition
  rw [List.head?_drop] at hrow
  obtain ⟨hlt, rfl⟩ := List.getElem?_eq_some_iff.mp hrow
  rw [List.length_take] at hlt
  refine ⟨hpos, by omega, by omega, ?_⟩
  rw [List.getElem_take]

omit [Keyed α] in
theorem split_at_places (l : List α) {a b c : Nat} (hab : a ≤ b) (hbc : b ≤ c) :
    l = l.take a ++ (l.take b).drop a ++ (l.take c).drop b ++ l.drop c := by
  have hsplit : ∀ {i j}, i ≤ j → l.take i ++ (l.take j).drop i = l.take j := by
    intro i j hij
    have := List.take_append_drop i (l.take j)
    rwa [List.take_take, Nat.min_eq_left hij] at this
  rw [hsplit hab, hsplit hbc, List.take_append_drop]

/-- Previous leads to the rows before the page, and Next from there back to it. -/
theorem back_and_forth (hlimit : 1 ≤ limit) (hlawful : codec.Lawful)
    (hrows : Servable codec scope rows) {after : Option String} {direction : Direction}
    {page : Slice α} (hpage : selectScoped codec rows after direction limit scope = .ok page)
    {text : String} (htext : page.previous = some text) :
    ∃ before, selectScoped codec rows (some text) .previous limit scope = .ok before
      ∧ (∃ earlier later, sorted rows = earlier ++ before.items ++ page.items ++ later
        ∧ (before.items.length = limit ∨ earlier = [] ∧ before.items.length ≤ limit))
      ∧ ∃ next, before.next = some next
        ∧ selectScoped codec rows (some next) .next limit scope = .ok page := by
  obtain ⟨bound, hbound⟩ := selectScoped_ok hpage
  have hl := ordered_sorted hrows.distinct
  have hdecodable : ∀ {i} (hi : i < (sorted rows).length),
      Decodable codec scope (Keyed.key (sorted rows)[i]) :=
    fun hi => hrows.decodable _ (mem_sorted.mp (List.getElem_mem hi))
  have hfull := @window_full _ _ limit (sorted rows) bound direction
  generalize (window (sorted rows) bound direction limit).1 = start at hbound hfull
  generalize (window (sorted rows) bound direction limit).2 = stop at hbound hfull
  subst hbound
  obtain ⟨hpos, hstart, hlt, rfl⟩ := previous_at htext
  have hstop := hfull hpos
  generalize hrows' : sorted rows = l at *
  have hback : window l (some (cursorOf (Keyed.key l[start]))) .previous limit
      = (start - limit, start) := by
    have hplace : position (fun row => decide (Keyed.key row < (cursorOf (Keyed.key l[start])).key)) l
        = start := hl.position_lt hstart
    simp only [window, hplace]
  have hforth : window l (some (cursorOf (Keyed.key l[start - 1]))) .next limit = (start, stop) := by
    have hplace : position
        (fun row => decide (Keyed.key row ≤ (cursorOf (Keyed.key l[start - 1])).key)) l = start :=
      (hl.position_le (show start - 1 < l.length by omega)).trans (Nat.sub_add_cancel hpos)
    simp only [window, Option.map_some, Option.getD_some, hplace, hstop]
  have hlength : ((l.take start).drop (start - limit)).length = start - (start - limit) := by
    rw [List.length_drop, List.length_take]
    omega
  have hnext : (bind codec scope (slice l (start - limit) start)).next
      = some (encode codec scope (cursor l[start - 1])) := by
    have hlast : ((l.take start).drop (start - limit)).getLast? = some l[start - 1] := by
      rw [List.getLast?_eq_getElem?, hlength, List.getElem?_drop, List.getElem?_take,
        if_pos (by omega), List.getElem?_eq_getElem (by omega)]
      congr 2
      omega
    show Option.map _ (if start < l.length then _ else none) = _
    rw [if_pos hstart, hlast]
    rfl
  have hbefore := @selectScoped_cursor _ _ _ _ rows _ limit hlawful (hdecodable hstart)
    .previous
  have hagain := @selectScoped_cursor _ _ _ _ rows _ limit hlawful
    (hdecodable (show start - 1 < l.length by omega)) .next
  rw [hrows', hback] at hbefore
  rw [hrows', hforth] at hagain
  refine ⟨_, hbefore, ⟨l.take (start - limit), l.drop stop,
    split_at_places l (Nat.sub_le _ _) hlt.le, ?_⟩, _, hnext, hagain⟩
  show ((l.take start).drop (start - limit)).length = limit
    ∨ _ ∧ ((l.take start).drop (start - limit)).length ≤ limit
  rw [hlength]
  by_cases hfirst : start ≤ limit
  · refine .inr ⟨?_, by omega⟩
    rw [Nat.sub_eq_zero_of_le hfirst, List.take_zero]
  · exact .inl (by omega)

end

/-! ## Cursors that are read in the form they are written in -/

def readCursor (text : String) : Option Cursor :=
  (Json.literal "\x7b\"priority\":" text.toList).bind fun rest =>
    (Json.literal ",\"resource\":" (Json.number rest).2).bind fun rest' =>
      (Json.unquote rest').bind fun resource =>
        (Json.literal ",\"identity\":" resource.2).bind fun rest'' =>
          (Json.unquote rest'').bind fun identity =>
            if identity.2 = ['\x7d'] then
              some { priority := (Json.number rest).1, resource := resource.1, identity := identity.1 }
            else none

def readScoped (text : String) : Option ScopedCursor :=
  (Json.literal "\x7b\"scope\":" text.toList).bind fun rest =>
    (Json.unquote rest).bind fun scope =>
      (Json.literal ",\"position\":" scope.2).bind fun rest' =>
        (Json.unquote rest').bind fun position =>
          if position.2 = ['\x7d'] then some { scope := scope.1, position := position.1 } else none

theorem readCursor_cursorJson (cursor : Cursor) : readCursor (cursorJson cursor) = some cursor := by
  have htext : (cursorJson cursor).toList
      = "\x7b\"priority\":".toList ++ (cursor.priority.repr.toList
        ++ ',' :: ("\"resource\":".toList ++ ((Json.quote cursor.resource).toList
        ++ (",\"identity\":".toList ++ ((Json.quote cursor.identity).toList ++ ['\x7d']))))) := by
    simp [cursorJson]
  rw [readCursor, htext, Json.literal_append, Option.bind_some, Json.number_append _ (by decide)]
  have hcomma : ∀ l : List Char, ',' :: ("\"resource\":".toList ++ l)
      = ",\"resource\":".toList ++ l := by
    simp
  rw [hcomma, Json.literal_append, Option.bind_some, Json.unquote_quote, Option.bind_some,
    Json.literal_append, Option.bind_some, Json.unquote_quote, Option.bind_some, if_pos rfl]

theorem readScoped_scopedJson (cursor : ScopedCursor) :
    readScoped (scopedJson cursor) = some cursor := by
  have htext : (scopedJson cursor).toList
      = "\x7b\"scope\":".toList ++ ((Json.quote cursor.scope).toList
        ++ (",\"position\":".toList ++ ((Json.quote cursor.position).toList ++ ['\x7d']))) := by
    simp [scopedJson]
  rw [readScoped, htext, Json.literal_append, Option.bind_some, Json.unquote_quote,
    Option.bind_some, Json.literal_append, Option.bind_some, Json.unquote_quote, Option.bind_some,
    if_pos rfl]

/-- Whatever digests the scopes. -/
def reading (digest : String → String) : Codec where
  digest := digest
  parseCursor := readCursor
  parseScoped := readScoped

@[simp] theorem reading_parseCursor (digest : String → String) :
    (reading digest).parseCursor = readCursor := rfl

@[simp] theorem reading_parseScoped (digest : String → String) :
    (reading digest).parseScoped = readScoped := rfl

theorem reading_lawful (digest : String → String) : (reading digest).Lawful := by
  constructor
  · intro cursor _
    rw [reading_parseCursor, readCursor_cursorJson]
  · intro cursor
    rw [reading_parseScoped, readScoped_scopedJson]

/-! ## Pages while the data changes -/

/-- All resources, as their endpoint serialises its filters. -/
def resourcesScope : String :=
  "[\"resources\",\x7b\"target\":null,\"check\":null,\"resource\":null,\"q\":null,\"rule\":null,\"severity\":null,\"health\":null\x7d]"

def sha256 (scope : String) : String :=
  if scope = resourcesScope then
    "e61369227393e24965459e8a20e1c050cde56d6cdac6b1ee632ffcc9c9009c54"
  else "08b70855100b38d7630ec8d4a7e078bc9a9eb958b17a4002b845776167c54394"

def resource (id : String) : View.Resource where
  checks := [.inventory]
  context := none
  evidence := []
  id
  target := "production"
  check := .inventory
  health := .healthy
  expected := .active
  observedAt := 0
  expiresAt := 600
  facts := []

end HealthMonitor.Server.Pages
