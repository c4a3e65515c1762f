import HealthMonitor.History.Rows
import HealthMonitor.Library.Overlay
import HealthMonitor.Server.QueryCursor

/-!
# Scope pages

Scope discovery merges the scopes that history retains, of which the database returns one
more than a page holds, with the targets of the current view, all of which are at hand.
Pages are cut in the order of target, provider and scope, and followed by the cursors they
carry.
-/

namespace HealthMonitor.Server.ScopePages

open Query History QueryCursor
open Pages (ApiError)

structure Target where
  name : String
  provider : HealthMonitor.Provider
  scope : String

structure CheckView where
  target : String
  check : Check

structure View where
  targets : List Target
  checks : List CheckView

structure ScopeInfo where
  scope : Scope
  checks : List Check
  current : Bool

structure Page where
  items : List ScopeInfo
  nextCursor : Option String

/-! ## Orders -/

/-- The derived order of the providers. -/
def rank : Query.Provider → Nat
  | .gcp => 0
  | .aws => 1
  | .azure => 2
  | .kubernetes => 3
  | .github => 4
  | .edge => 5
  | .nats => 6
  | .unknown => 7

/-- The values of `query_provider` in their order; the last was added later. -/
def queryProvider : List Query.Provider :=
  [.gcp, .aws, .azure, .kubernetes, .github, .edge, .nats] ++ [.unknown]

def enumRank (provider : Query.Provider) : Nat := queryProvider.idxOf provider

abbrev Key := String ×ₗ Nat ×ₗ String

def key (scope : Scope) : Key := toLex (scope.target, toLex (rank scope.provider, scope.scope))

/-- The columns the database orders by. -/
def columns (scope : Scope) : Key :=
  toLex (scope.target, toLex (enumRank scope.provider, scope.scope))

/-- The condition that starts a page after a scope. -/
def follows (after scope : Scope) : Bool :=
  decide (after.target < scope.target)
    || decide (scope.target = after.target)
      && decide (enumRank after.provider < enumRank scope.provider)
    || decide (scope.target = after.target) && decide (scope.provider = after.provider)
      && decide (after.scope < scope.scope)

/-! ## The source -/

def rowScope (row : Row) : Scope where
  target := row.target
  provider := row.provider
  scope := row.scope

section

variable (search : String → Row → Bool)

/-- The scopes of the rows that a filter and a window select. -/
def retained (rows : List Row) (filter : Filter) (window : Window) : List Scope :=
  (rows.filter (selects search filter window none)).map rowScope

/-- `SELECT DISTINCT … ORDER BY … LIMIT`. -/
def queryScopes (rows : List Row) (filter : Filter) (window : Window) (after : Option Scope) :
    List Scope :=
  let scopes := (retained search rows filter window).filter fun scope =>
    after.all (follows · scope)
  (scopes.dedup.insertionSort fun a b => columns a ≤ columns b).take (filter.limit.getD 50 + 1)

end

def provider : HealthMonitor.Provider → Query.Provider
  | .gcp => .gcp
  | .aws => .aws
  | .azure => .azure
  | .kubernetes => .kubernetes
  | .github => .github
  | .edge => .edge
  | .nats => .nats

def scopeOf (target : Target) : Scope where
  target := target.name
  provider := provider target.provider
  scope := target.scope

def retainedInfo (scope : Scope) : ScopeInfo := { scope, checks := [], current := false }

def currentInfo (view : View) (target : Target) : ScopeInfo where
  scope := scopeOf target
  checks := (view.checks.filter (·.target == target.name)).map (·.check)
  current := true

/-- The targets of the current view that match, after a scope. -/
def currentInfos (filter : Filter) (after : Option Scope) (view : Option View) : List ScopeInfo :=
  view.elim [] fun view =>
    (view.targets.filter fun target => Matching.scope filter (scopeOf target) {}
      && after.all fun after => decide (key after < key (scopeOf target))).map (currentInfo view)

def entry (info : ScopeInfo) : Key × ScopeInfo := (key info.scope, info)

/-- The ordered map of a page before it is cut: current metadata replaces retained. -/
def merge (retained current : List ScopeInfo) : List (Key × ScopeInfo) :=
  Overlay.collect (retained.map entry ++ current.map entry)

section

variable {Id : Type} (codec : Codec Id)

def project (filter : Filter) (window : Window) (after : Option Scope) (view : Option View)
    (retained : List Scope) : Except ApiError Page :=
  let items := (merge (retained.map retainedInfo) (currentInfos filter after view)).map Prod.snd
  let limit := filter.limit.getD 50
  let more := decide (limit < items.length)
  let items := items.take limit
  if more then
    match items.getLast? with
    | none => .ok { items, nextCursor := none }
    | some row =>
        match nextScope codec filter window row.scope with
        | .error error => .error error
        | .ok text => .ok { items, nextCursor := some text }
  else .ok { items, nextCursor := none }

variable (search : String → Row → Bool) (rows : List Row) (view : Option View)

/-- A request that both history and the current view answer. -/
def scopes (filter : Filter) (now : Time) : Except ApiError Page :=
  match resolveScope codec filter now with
  | .error error => .error error
  | .ok (filter, window, after) =>
      project codec filter window after view (queryScopes search rows filter window after)

/-- Requests at the given instants, each with the cursor of the page before it, until there
is none. -/
def follow (filter : Filter) : List Time → Except ApiError (List Page)
  | [] => .ok []
  | now :: later =>
      match scopes codec search rows view filter now with
      | .error error => .error error
      | .ok page =>
          match page.nextCursor with
          | none => .ok [page]
          | some cursor =>
              match follow (filter.carrying cursor) later with
              | .error error => .error error
              | .ok pages => .ok (page :: pages)

end

/-! ## One order -/

theorem enumRank_eq (provider : Query.Provider) : enumRank provider = rank provider := by
  cases provider <;> decide

theorem columns_eq (scope : Scope) : columns scope = key scope := by
  rw [columns, key, enumRank_eq]

theorem rank_inj {a b : Query.Provider} (h : rank a = rank b) : a = b := by
  revert h
  cases a <;> cases b <;> decide

theorem key_inj {a b : Scope} (h : key a = key b) : a = b := by
  cases a
  cases b
  rw [key, key, EmbeddingLike.apply_eq_iff_eq, Prod.mk.injEq, EmbeddingLike.apply_eq_iff_eq,
    Prod.mk.injEq] at h
  rw [Scope.mk.injEq]
  exact ⟨h.1, rank_inj h.2.1, h.2.2⟩

/-- The database starts a page where the merge in memory does. -/
theorem follows_eq (after scope : Scope) :
    follows after scope = decide (key after < key scope) := by
  rw [Bool.eq_iff_iff, decide_eq_true_eq, key, key, Prod.Lex.toLex_lt_toLex,
    Prod.Lex.toLex_lt_toLex, follows]
  simp only [Bool.or_eq_true, Bool.and_eq_true, decide_eq_true_eq, enumRank_eq]
  constructor
  · rintro ((hlt | ⟨heq, hlt⟩) | ⟨⟨heq, hprovider⟩, hlt⟩)
    · exact .inl hlt
    · exact .inr ⟨heq.symm, .inl hlt⟩
    · exact .inr ⟨heq.symm, .inr ⟨by rw [hprovider], hlt⟩⟩
  · rintro (hlt | ⟨heq, hlt | ⟨hrank, hlt⟩⟩)
    · exact .inl (.inl hlt)
    · exact .inl (.inr ⟨heq.symm, hlt⟩)
    · exact .inr ⟨⟨heq.symm, (rank_inj hrank).symm⟩, hlt⟩

/-! ## One merge -/

section

variable (search : String → Row → Bool) (rows : List Row) (view : Option View)

/-- The merge of all that is retained with all that is current. -/
def whole (filter : Filter) (window : Window) : List (Key × ScopeInfo) :=
  merge ((retained search rows filter window).map retainedInfo) (currentInfos filter none view)

end

theorem sorted_distinct (scopes : List Scope) :
    ((scopes.dedup.insertionSort fun a b => columns a ≤ columns b).map key).Pairwise (· < ·) := by
  have hperm := List.perm_insertionSort (fun a b => columns a ≤ columns b) scopes.dedup
  have hnodup := hperm.nodup_iff.mpr (List.nodup_dedup scopes)
  have hsorted := List.pairwise_insertionSort (fun a b => columns a ≤ columns b) scopes.dedup
  rw [List.pairwise_map]
  refine (hsorted.and hnodup).imp fun {a b} hab => ?_
  rw [columns_eq, columns_eq] at hab
  exact lt_of_le_of_ne hab.1 fun heq => hab.2 (key_inj heq)

theorem currentInfos_after (filter : Filter) (after : Option Scope) (view : Option View) :
    (currentInfos filter after view).map entry
      = ((currentInfos filter none view).map entry).filter
          fun e => Keyset.above (after.map key) e.1 := by
  cases view with
  | none => rfl
  | some view =>
      rw [currentInfos, currentInfos, Option.elim_some, Option.elim_some, List.map_map,
        List.map_map, List.filter_map, List.filter_filter]
      congr 1
      refine List.filter_congr fun target _ => ?_
      rw [Option.all_none, Bool.and_true, Bool.and_comm]
      cases after <;> rfl

theorem retained_after (after : Option Scope) (scopes : List Scope) :
    ((scopes.filter fun scope => after.all (follows · scope)).map retainedInfo).map entry
      = ((scopes.map retainedInfo).map entry).filter
          fun e => Keyset.above (after.map key) e.1 := by
  rw [List.map_map, List.map_map, List.filter_map]
  congr 1
  refine List.filter_congr fun scope _ => ?_
  cases after with
  | none => rfl
  | some after => exact follows_eq after scope

/-- Cut after one row more than a page holds, the merge of a page is what lies above the
cursor. -/
theorem take_merge (search : String → Row → Bool) (rows : List Row) (view : Option View)
    (filter : Filter) (window : Window) (after : Option Scope) :
    (merge ((queryScopes search rows filter window after).map retainedInfo)
        (currentInfos filter after view)).take (filter.limit.getD 50 + 1)
      = (Keyset.rest Prod.fst (after.map key) (whole search rows view filter window)).take
          (filter.limit.getD 50 + 1) := by
  let scopes := (retained search rows filter window).filter fun scope =>
    after.all (follows · scope)
  let listed := scopes.dedup.insertionSort fun a b => columns a ≤ columns b
  have hsorted : Groups.Sorted ((listed.map retainedInfo).map entry) := by
    rw [Groups.Sorted, List.map_map, List.map_map]
    exact sorted_distinct scopes
  have hmem : ∀ e, e ∈ (listed.map retainedInfo).map entry
      ↔ e ∈ (scopes.map retainedInfo).map entry := by
    have hscopes : ∀ scope, scope ∈ listed ↔ scope ∈ scopes := fun scope => by
      rw [List.mem_insertionSort, List.mem_dedup]
    simp only [List.map_map, List.mem_map, hscopes, implies_true]
  have hfun : ∀ e ∈ (listed.map retainedInfo).map entry,
      ∀ other ∈ (listed.map retainedInfo).map entry, e.1 = other.1 → e = other := by
    rw [List.map_map]
    intro e he other hother hkey
    obtain ⟨scope, -, rfl⟩ := List.mem_map.mp he
    obtain ⟨scope', -, rfl⟩ := List.mem_map.mp hother
    rw [key_inj (show key scope = key scope' from hkey)]
  have hcut : (queryScopes search rows filter window after).map retainedInfo
      = (listed.map retainedInfo).take (filter.limit.getD 50 + 1) := by
    rw [← List.map_take]
    rfl
  rw [merge, hcut, List.map_take, Overlay.take_collect_cut hsorted,
    Overlay.collect_append_congr _ hmem hfun, retained_after, currentInfos_after,
    ← List.filter_append, Overlay.collect_filter]
  rfl

theorem key_of_mem_merge {retained current : List ScopeInfo} {e : Key × ScopeInfo}
    (h : e ∈ merge retained current) : e.1 = key e.2.scope := by
  have hmem := Overlay.mem_of_mem_collect h
  rw [← List.map_append] at hmem
  obtain ⟨info, -, rfl⟩ := List.mem_map.mp hmem
  rfl

/-! ## One page -/

section

variable {Id : Type} {codec : Codec Id} {search : String → Row → Bool} {rows : List Row}
  {view : Option View} {filter : Filter} {window : Window} {after : Option Scope}

/-- What lies above the cursor of a page. -/
def remaining (search : String → Row → Bool) (rows : List Row) (view : Option View)
    (filter : Filter) (window : Window) (after : Option Scope) : List (Key × ScopeInfo) :=
  Keyset.rest Prod.fst (after.map key) (whole search rows view filter window)

theorem take_merge_limit :
    (merge ((queryScopes search rows filter window after).map retainedInfo)
        (currentInfos filter after view)).take (filter.limit.getD 50)
      = (remaining search rows view filter window after).take (filter.limit.getD 50) := by
  have htake := congrArg (List.take (filter.limit.getD 50))
    (take_merge search rows view filter window after)
  rwa [List.take_take, List.take_take, min_eq_left (Nat.le_succ _)] at htake

theorem lt_length_merge :
    filter.limit.getD 50 < (merge ((queryScopes search rows filter window after).map retainedInfo)
        (currentInfos filter after view)).length
      ↔ filter.limit.getD 50 < (remaining search rows view filter window after).length := by
  have hlength := congrArg List.length (take_merge search rows view filter window after)
  rw [List.length_take, List.length_take] at hlength
  rw [remaining]
  omega

theorem project_last
    (h : (remaining search rows view filter window after).length ≤ filter.limit.getD 50) :
    project codec filter window after view (queryScopes search rows filter window after)
      = .ok { items := (remaining search rows view filter window after).map Prod.snd
              nextCursor := none } := by
  have hnot := (not_congr lt_length_merge).mpr (not_lt.mpr h)
  rw [project, List.length_map, decide_eq_false hnot, if_neg Bool.false_ne_true, ← List.map_take,
    take_merge_limit, List.take_of_length_le h]

theorem project_more (hlimit : 0 < filter.limit.getD 50)
    (h : filter.limit.getD 50 < (remaining search rows view filter window after).length) :
    ∃ last text, ((remaining search rows view filter window after).take
        (filter.limit.getD 50)).getLast? = some last
      ∧ nextScope codec filter window last.2.scope = .ok text
      ∧ project codec filter window after view (queryScopes search rows filter window after)
        = .ok { items := ((remaining search rows view filter window after).take
                  (filter.limit.getD 50)).map Prod.snd
                nextCursor := some text } := by
  have hnonempty : (remaining search rows view filter window after).take
      (filter.limit.getD 50) ≠ [] := Keyset.page_ne_nil hlimit h
  refine ⟨_, _, List.getLast?_eq_some_getLast hnonempty, rfl, ?_⟩
  rw [project, List.length_map, decide_eq_true (lt_length_merge.mpr h), if_pos rfl,
    ← List.map_take, take_merge_limit, List.getLast?_map, List.getLast?_eq_some_getLast hnonempty]
  rfl

/-- The next page starts where this one ended. -/
theorem remaining_last {last : Key × ScopeInfo}
    (hlast : ((remaining search rows view filter window after).take
      (filter.limit.getD 50)).getLast? = some last) :
    remaining search rows view filter window (some last.2.scope)
      = (remaining search rows view filter window after).drop (filter.limit.getD 50) := by
  have hordered : Keyset.Ordered Prod.fst (whole search rows view filter window) :=
    Overlay.ordered_of_sorted (Overlay.sorted_collect _)
  have hmem : last ∈ whole search rows view filter window :=
    Keyset.mem_of_mem_page (List.mem_of_getLast? hlast)
  have hrest := hordered.rest_last hlast
  rw [key_of_mem_merge hmem] at hrest
  exact hrest

/-! ## All pages -/

/-- The last page has no cursor. -/
def Finished (pages : List Page) : Prop :=
  ∃ page, pages.getLast? = some page ∧ page.nextCursor = none

/-- The cursor of every scope that ends a page before others is short enough to come
back. -/
def Returnable (codec : Codec Id) (window : Window) (limit : Nat) (scopes : List Scope) : Prop :=
  ∀ k scope, scopes[k * limit + (limit - 1)]? = some scope → (k + 1) * limit < scopes.length →
    positionBytes codec window scope ≤ 1900

theorem returnable_short {limit : Nat} {scopes : List Scope} (h : scopes.length ≤ limit) :
    Returnable codec window limit scopes := by
  intro k scope _ hmore
  have hle : limit ≤ (k + 1) * limit := Nat.le_mul_of_pos_left limit k.succ_pos
  omega

theorem returnable_iff {limit : Nat} {scopes : List Scope} (hmore : limit < scopes.length)
    {last : Scope} (hlast : scopes[limit - 1]? = some last) :
    Returnable codec window limit scopes
      ↔ positionBytes codec window last ≤ 1900
        ∧ Returnable codec window limit (scopes.drop limit) := by
  have hindex : ∀ k, (k + 1) * limit + (limit - 1) = limit + (k * limit + (limit - 1)) := by
    intro k
    rw [Nat.succ_mul]
    omega
  constructor
  · intro h
    refine ⟨h 0 last (by rwa [Nat.zero_mul, Nat.zero_add]) (by rwa [Nat.zero_add, Nat.one_mul]),
      fun k scope hscope hk => ?_⟩
    rw [List.getElem?_drop, ← hindex] at hscope
    rw [List.length_drop] at hk
    refine h (k + 1) scope hscope ?_
    rw [Nat.succ_mul]
    omega
  · rintro ⟨hfirst, hrest⟩ k scope hscope hk
    cases k with
    | zero =>
        rw [Nat.zero_mul, Nat.zero_add, hlast, Option.some.injEq] at hscope
        rwa [← hscope]
    | succ k =>
        rw [hindex, ← List.getElem?_drop] at hscope
        refine hrest k scope hscope ?_
        rw [List.length_drop]
        rw [Nat.succ_mul] at hk
        omega

/-- The pages are all that remains, unless a cursor does not come back. -/
theorem follow_spec (hlawful : codec.Lawful) {later : List Time} :
    ∀ {now : Time} {filter normal : Filter} {after : Option Scope},
      resolveScope codec filter now = .ok (normal, window, after) →
      (remaining search rows view normal window after).length ≤ later.length →
      (Returnable codec window (normal.limit.getD 50)
          ((remaining search rows view normal window after).map (·.2.scope)) →
        ∃ pages, follow codec search rows view filter (now :: later) = .ok pages
          ∧ Finished pages ∧ pages.flatMap Page.items
            = (remaining search rows view normal window after).map Prod.snd)
      ∧ (¬ Returnable codec window (normal.limit.getD 50)
          ((remaining search rows view normal window after).map (·.2.scope)) →
        follow codec search rows view filter (now :: later) = .error .badQuery) := by
  induction later with
  | nil =>
      intro now filter normal after hresolve hlength
      have hnil := List.eq_nil_of_length_eq_zero (Nat.le_zero.mp hlength)
      have hpage : scopes codec search rows view filter now
          = .ok { items := [], nextCursor := none } := by
        have hshort : (remaining search rows view normal window after).length
            ≤ normal.limit.getD 50 := hlength.trans (Nat.zero_le _)
        rw [scopes, hresolve]
        dsimp only
        rw [project_last hshort, hnil]
        rfl
      rw [hnil]
      refine ⟨fun _ => ⟨[{ items := [], nextCursor := none }], ?_, ⟨_, rfl, rfl⟩, rfl⟩,
        fun hnot => absurd (returnable_short (Nat.zero_le _)) hnot⟩
      rw [follow, hpage]
  | cons next later ih =>
      intro now filter normal after hresolve hlength
      obtain ⟨hnormal, hwindow⟩ := resolveScope_serves hresolve
      have hlimit := Filter.normalize_limit hnormal
      by_cases hmore : normal.limit.getD 50
          < (remaining search rows view normal window after).length
      · obtain ⟨last, text, hlast, htext, hproject⟩ :=
          @project_more Id codec search rows view normal window after hlimit hmore
        have hpage : scopes codec search rows view filter now
            = .ok { items := ((remaining search rows view normal window after).take
                      (normal.limit.getD 50)).map Prod.snd
                    nextCursor := some text } := by
          rw [scopes, hresolve]
          exact hproject
        have hnext := remaining_last hlast
        have hindex : ((remaining search rows view normal window after).map (·.2.scope))[
            normal.limit.getD 50 - 1]? = some last.2.scope := by
          rw [List.getLast?_eq_getElem?, List.length_take, min_eq_left hmore.le,
            List.getElem?_take_of_lt (Nat.sub_lt hlimit Nat.one_pos)] at hlast
          rw [List.getElem?_map, hlast, Option.map_some]
        have hiff := @returnable_iff Id codec window _ _ (by rwa [List.length_map]) _ hindex
        rw [← List.map_drop, ← hnext] at hiff
        rw [follow, hpage, hiff]
        dsimp only
        by_cases hfits : positionBytes codec window last.2.scope ≤ 1900
        · obtain ⟨_, hsame, hcomes⟩ :=
            (resolveScope_nextScope hlawful hnormal hwindow last.2.scope).mpr hfits
          rw [htext, Except.ok.injEq] at hsame
          subst hsame
          have hshorter : (remaining search rows view (normal.carrying text) window
              (some last.2.scope)).length ≤ later.length := by
            show (remaining search rows view normal window (some last.2.scope)).length ≤ _
            rw [hnext, List.length_drop]
            rw [List.length_cons] at hlength
            omega
          obtain ⟨hgood, hbad⟩ := ih (hcomes next) hshorter
          constructor
          · intro hreturnable
            obtain ⟨pages, hpages, ⟨page, hfinal, hnone⟩, hitems⟩ := hgood hreturnable.2
            rw [hpages]
            refine ⟨_, rfl, ⟨page, ?_, hnone⟩, ?_⟩
            · rw [List.getLast?_cons, hfinal, Option.getD_some]
            · have hrest : pages.flatMap Page.items
                  = (remaining search rows view normal window (some last.2.scope)).map Prod.snd :=
                hitems
              rw [List.flatMap_cons, hrest, hnext, ← List.map_append, List.take_append_drop]
          · intro hnot
            rw [hbad fun h => hnot ⟨hfits, h⟩]
        · obtain ⟨_, hsame, hstranded⟩ :=
            nextScope_stranded hlawful filter normal (not_le.mp hfits)
          rw [htext, Except.ok.injEq] at hsame
          subst hsame
          refine ⟨fun h => absurd h.1 hfits, fun _ => ?_⟩
          rw [follow, scopes, hstranded]
      · have hpage : scopes codec search rows view filter now
            = .ok { items := (remaining search rows view normal window after).map Prod.snd
                    nextCursor := none } := by
          rw [scopes, hresolve]
          exact project_last (not_lt.mp hmore)
        refine ⟨fun _ => ?_, fun hnot => absurd (returnable_short ?_) hnot⟩
        · rw [follow, hpage]
          exact ⟨_, rfl, ⟨_, rfl, rfl⟩, List.append_nil _⟩
        · rw [List.length_map]
          exact not_lt.mp hmore

/-! ## The union -/

/-- The scopes of the targets of the current view that match. -/
def currentScopes (filter : Filter) (view : Option View) : List Scope :=
  (view.elim [] fun view => view.targets.map scopeOf).filter fun scope =>
    Matching.scope filter scope {}

/-- Every scope that is retained or current, once and in order. -/
def union (search : String → Row → Bool) (rows : List Row) (view : Option View) (filter : Filter)
    (window : Window) : List Scope :=
  (retained search rows filter window ++ currentScopes filter view).dedup.insertionSort
    fun a b => columns a ≤ columns b

theorem mem_union {scope : Scope} :
    scope ∈ union search rows view filter window
      ↔ scope ∈ retained search rows filter window ∨ scope ∈ currentScopes filter view := by
  rw [union, List.mem_insertionSort, List.mem_dedup, List.mem_append]

theorem currentInfos_scopes :
    (currentInfos filter none view).map (·.scope) = currentScopes filter view := by
  cases view with
  | none => rfl
  | some view =>
      rw [currentInfos, currentScopes, Option.elim_some, Option.elim_some, List.map_map,
        List.filter_map]
      congr 1
      exact List.filter_congr fun target _ => Bool.and_true _

theorem currentInfos_current {info : ScopeInfo} (h : info ∈ currentInfos filter none view) :
    info.current = true := by
  cases view with
  | none => cases h
  | some view =>
      obtain ⟨target, -, rfl⟩ := List.mem_map.mp h
      rfl

theorem map_key_whole :
    (whole search rows view filter window).map Prod.fst
      = ((whole search rows view filter window).map (·.2.scope)).map key := by
  rw [List.map_map]
  exact List.map_congr_left fun e he => key_of_mem_merge he

theorem whole_scopes :
    (whole search rows view filter window).map (·.2.scope)
      = union search rows view filter window := by
  refine List.map_injective_iff.mpr (fun a b => key_inj) ?_
  rw [← map_key_whole]
  refine Groups.eq_of_mem_iff (Overlay.sorted_collect _) (sorted_distinct _) fun k => ?_
  rw [whole, merge, Overlay.mem_keys_collect, ← List.map_append, List.map_map,
    show Prod.fst ∘ entry = key ∘ ScopeInfo.scope from rfl, ← List.map_map, List.map_append,
    currentInfos_scopes, List.map_map, show ScopeInfo.scope ∘ retainedInfo = id from rfl,
    List.map_id, List.mem_map, List.mem_map]
  exact exists_congr fun scope => and_congr_left fun _ => List.mem_append.trans mem_union.symm

/-- What is current is marked so, also where it is retained. -/
theorem whole_current {e : Key × ScopeInfo} (h : e ∈ whole search rows view filter window) :
    e.2.current = true ↔ e.2.scope ∈ currentScopes filter view := by
  rw [← currentInfos_scopes]
  obtain hcurrent | ⟨hnot, hretained⟩ := Overlay.mem_of_mem_collect_append h
  · obtain ⟨info, hinfo, rfl⟩ := List.mem_map.mp hcurrent
    exact ⟨fun _ => List.mem_map_of_mem hinfo, fun _ => currentInfos_current hinfo⟩
  · rw [List.map_map, show Prod.fst ∘ entry = key ∘ ScopeInfo.scope from rfl, ← List.map_map,
      key_of_mem_merge h] at hnot
    obtain ⟨info, hinfo, rfl⟩ := List.mem_map.mp hretained
    obtain ⟨scope, -, rfl⟩ := List.mem_map.mp hinfo
    exact ⟨fun habsurd => absurd habsurd Bool.false_ne_true,
      fun hmem => absurd (List.mem_map_of_mem hmem) hnot⟩

theorem remaining_none :
    remaining search rows view filter window none = whole search rows view filter window :=
  List.filter_eq_self.mpr fun _ _ => rfl

/-! ## Discovery -/

/-- Pages that are the union of what is retained and what is current. -/
structure Complete (search : String → Row → Bool) (rows : List Row) (view : Option View)
    (filter : Filter) (window : Window) (items : List ScopeInfo) : Prop where
  increasing : (items.map fun info => key info.scope).Pairwise (· < ·)
  exact : ∀ scope, scope ∈ items.map (·.scope)
    ↔ scope ∈ retained search rows filter window ∨ scope ∈ currentScopes filter view
  current : ∀ info ∈ items, info.current = true ↔ info.scope ∈ currentScopes filter view

theorem complete_whole :
    Complete search rows view filter window
      ((whole search rows view filter window).map Prod.snd) where
  increasing := by
    have hsorted : Groups.Sorted (whole search rows view filter window) :=
      Overlay.sorted_collect _
    rw [Groups.Sorted, map_key_whole, List.map_map] at hsorted
    rw [List.map_map]
    exact hsorted
  exact scope := by
    have hscopes : ((whole search rows view filter window).map Prod.snd).map (·.scope)
        = union search rows view filter window := by
      rw [List.map_map, ← whole_scopes]
      rfl
    rw [hscopes, mem_union]
  current info hinfo := by
    obtain ⟨e, he, rfl⟩ := List.mem_map.mp hinfo
    exact whole_current he

/-- However often a reader asks, once it may ask often enough it has been given the union
and no further cursor. -/
def Discovers (codec : Codec Id) (search : String → Row → Bool) (rows : List Row)
    (view : Option View) (filter normal : Filter) (window : Window) (now : Time) : Prop :=
  ∀ later : List Time, (union search rows view normal window).length ≤ later.length →
    ∃ pages, follow codec search rows view filter (now :: later) = .ok pages ∧ Finished pages
      ∧ Complete search rows view normal window (pages.flatMap Page.items)

theorem discovers_of_returnable {now : Time} {normal : Filter} (hlawful : codec.Lawful)
    (hfirst : resolveScope codec filter now = .ok (normal, window, none))
    (h : Returnable codec window (normal.limit.getD 50) (union search rows view normal window)) :
    Discovers codec search rows view filter normal window now := by
  intro later hlater
  rw [← whole_scopes, ← remaining_none] at h hlater
  rw [List.length_map] at hlater
  obtain ⟨pages, hpages, hfinished, hitems⟩ := (follow_spec hlawful hfirst hlater).1 h
  refine ⟨pages, hpages, hfinished, ?_⟩
  rw [hitems, remaining_none]
  exact complete_whole

theorem returnable_of_discovers {now : Time} {normal : Filter} (hlawful : codec.Lawful)
    (hfirst : resolveScope codec filter now = .ok (normal, window, none))
    (h : Discovers codec search rows view filter normal window now) :
    Returnable codec window (normal.limit.getD 50) (union search rows view normal window) := by
  by_contra hnot
  rw [← whole_scopes, ← remaining_none] at hnot
  let later : List Time :=
    List.replicate (remaining search rows view normal window none).length now
  have hlater : (remaining search rows view normal window none).length ≤ later.length :=
    List.length_replicate.ge
  have herror := (follow_spec hlawful hfirst hlater).2 hnot
  obtain ⟨pages, hpages, -⟩ := h later (by
    rwa [← whole_scopes, ← remaining_none, List.length_map])
  rw [hpages] at herror
  cases herror

/-- The scopes of configured targets do not stand in the way. -/
theorem returnable_of_configured (hlawful : codec.Lawful) (hstart : Representable window.start)
    (hstop : Representable window.stop) (limit : Nat) {scopes : List Scope}
    (h : ∀ scope ∈ scopes, Configured scope) : Returnable codec window limit scopes :=
  fun _ scope hscope _ => positionBytes_configured hlawful hstart hstop
    (h scope (List.mem_of_getElem? hscope))

/-- Scope discovery gives the union if and only if the cursor of every scope that ends a
page before others is short enough to come back. -/
theorem discovers_iff {now : Time} {normal : Filter} (hlawful : codec.Lawful)
    (hfirst : resolveScope codec filter now = .ok (normal, window, none)) :
    Discovers codec search rows view filter normal window now
      ↔ Returnable codec window (normal.limit.getD 50) (union search rows view normal window) :=
  ⟨returnable_of_discovers hlawful hfirst, discovers_of_returnable hlawful hfirst⟩

end

/-! ## A retained scope and a current one -/

namespace Sample

def single : Filter := { limit := some 1 }

def shop : View where
  targets := [{ name := "web", provider := .azure, scope := "shop" }]
  checks := [{ target := "web", check := .inventory }]

/-- A finding of the first hour. -/
def retainedRow : Row := Row.project "key"
  { History.Sample.current with
    observedAt := 10 * nanosPerSecond, lastObservedAt := 15 * nanosPerSecond }

theorem resolveScope_single : resolveScope (reading {}) single (3600 * nanosPerSecond)
    = .ok (single, hour, none) := rfl

end Sample

example : (union (fun _ _ => false) [Sample.retainedRow] (some Sample.shop) Sample.single
    hour).length = 2 := by decide +kernel

end HealthMonitor.Server.ScopePages
