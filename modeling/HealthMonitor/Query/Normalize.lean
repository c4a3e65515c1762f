import Mathlib.Data.List.DropRight
import HealthMonitor.Library.Padding
import HealthMonitor.Query.Filter

/-!
# Normalize

Provider aliases of the scope are resolved and hostnames are written one way before a
filter is executed or bound to a cursor. `normalize_eq_ok_iff` says all of what a filter
normalizes to and when it does; the rest follows from it.
-/

namespace HealthMonitor.Query

/-! ## The source -/

/-- `trim_end_matches('.')` and `to_ascii_lowercase`. -/
def hostName (host : String) : String :=
  String.ofList ((host.toList.rdropWhile (· == '.')).map Char.toLower)

namespace Filter

def aliases (filter : Filter) : List (Option String × Provider) :=
  [(filter.project, .gcp), (filter.account, .aws), (filter.subscription, .azure)]

/-- The scope and the provider held so far, with one alias more. -/
def resolveAlias (held : Option String × Option Provider) (named : Option String × Provider) :
    Except Error (Option String × Option Provider) :=
  match named.1 with
  | none => .ok held
  | some scope =>
      if held.1.any (· != scope) || held.2.any (· != named.2) then .error .filter
      else .ok (some scope, some named.2)

def resolveAliases (filter : Filter) : Except Error (Option String × Option Provider) :=
  filter.aliases.foldlM resolveAlias (filter.scope, filter.provider)

def badText (value : String) : Bool :=
  value == "" || decide (2048 < value.utf8ByteSize) || value.toList.any isControl

/-- The texts a filter compares with. -/
def badTexts (filter : Filter) : Bool :=
  [filter.target, filter.scope, filter.region, filter.cluster, filter.namespace, filter.service,
    filter.resource, filter.hostname, filter.q].any (·.any badText)

/-- A hostname that is written one way, but is none. -/
def badHost (host : String) : Bool :=
  host == "" || decide (253 < host.utf8ByteSize)
    || !host.toList.all fun c => c.isAlphanum || c == '.' || c == '-'

def badBounds (filter : Filter) : Bool :=
  !(decide (1 ≤ filter.limit.getD 50) && decide (filter.limit.getD 50 ≤ 100))
    || filter.q.any (fun q => decide (128 < q.utf8ByteSize))
    || filter.cursor.any fun cursor => decide (2048 < cursor.utf8ByteSize)

/-- The filter without aliases. -/
def withScope (filter : Filter) (held : Option String × Option Provider) : Filter :=
  { filter with
    project := none, account := none, subscription := none, scope := held.1, provider := held.2 }

def normalize (filter : Filter) : Except Error Filter :=
  match filter.resolveAliases with
  | .error error => .error error
  | .ok held =>
      let filter := filter.withScope held
      if filter.badTexts then .error .filter
      else
        let filter := { filter with hostname := filter.hostname.map hostName }
        if filter.hostname.any badHost then .error .filter
        else if filter.badBounds then .error .filter
        else .ok filter

/-- Thirty-one days, in nanoseconds. -/
def longest : Int := 31 * 86400 * nanosPerSecond

/-- The window of a filter, an hour back by default. -/
def window (filter : Filter) (now : Time) : Except Error Window :=
  if filter.lookbackSeconds.isSome && (filter.start.isSome || filter.stop.isSome) then
    .error .filter
  else
    let stop := filter.stop.getD now
    match (match filter.start with
      | some start => some start
      | none => checkedSub stop (filter.lookbackSeconds.getD 3600)) with
    | none => .error .filter
    | some start =>
        if (checkedSub stop (31 * 86400)).isNone then .error .filter
        else if decide (stop ≤ start) || decide (now + 30 * nanosPerSecond < stop)
            || decide (longest < stop - start) then
          .error .filter
        else .ok { start, stop }

/-! ## Normal forms -/

/-- The filter a filter normalizes to. -/
def normalForm (filter : Filter) (held : Option String × Option Provider) : Filter :=
  { filter.withScope held with hostname := filter.hostname.map hostName }

theorem normalize_eq_ok_iff {filter normal : Filter} :
    filter.normalize = .ok normal ↔ ∃ held, filter.resolveAliases = .ok held
      ∧ (filter.withScope held).badTexts = false
      ∧ (filter.hostname.map hostName).any badHost = false
      ∧ filter.badBounds = false ∧ normal = filter.normalForm held := by
  rw [normalize]
  cases hheld : filter.resolveAliases with
  | error error => simp
  | ok held =>
      have hbounds : { filter.withScope held with
          hostname := (filter.withScope held).hostname.map hostName }.badBounds
            = filter.badBounds := rfl
      simp only [hbounds, Except.ok.injEq, exists_eq_left']
      cases (filter.withScope held).badTexts
      · have hhost : (filter.withScope held).hostname = filter.hostname := rfl
        simp only [hhost, Bool.false_eq_true, if_false, true_and]
        cases (filter.hostname.map hostName).any badHost
        · cases filter.badBounds
          · simp only [Bool.false_eq_true, if_false, Except.ok.injEq, true_and]
            exact eq_comm
          · simp
        · simp
      · simp

theorem isControl_of_isAlphanum {c : Char} (h : c.isAlphanum = true) : isControl c = false := by
  have hbounds := Padding.toNat_of_isAlphanum h
  rw [isControl, Bool.or_eq_false_iff, Bool.and_eq_false_iff, decide_eq_false_iff_not,
    decide_eq_false_iff_not, decide_eq_false_iff_not]
  omega

/-- A text that is a hostname is a text a filter may compare with. -/
theorem badText_of_badHost {host : String} (h : badHost host = false) : badText host = false := by
  rw [badHost, Bool.or_eq_false_iff, Bool.or_eq_false_iff, Bool.not_eq_false',
    List.all_eq_true] at h
  obtain ⟨⟨hempty, hlong⟩, hchars⟩ := h
  rw [badText, hempty, Bool.false_or, Bool.or_eq_false_iff]
  rw [decide_eq_false_iff_not] at hlong ⊢
  refine ⟨by omega, List.any_eq_false.mpr fun c hc => ?_⟩
  have hplain := hchars c hc
  rw [Bool.or_eq_true, Bool.or_eq_true, beq_iff_eq, beq_iff_eq] at hplain
  obtain (halnum | rfl) | rfl := hplain
  · exact Bool.eq_false_iff.mp (isControl_of_isAlphanum halnum)
  · decide
  · decide

theorem trim_toLower (l : List Char) :
    (l.map Char.toLower).rdropWhile (· == '.') = (l.rdropWhile (· == '.')).map Char.toLower := by
  have hsame : ((· == '.') ∘ Char.toLower) = (· == '.') := by
    funext c
    rw [Function.comp_apply, Bool.eq_iff_iff, beq_iff_eq, beq_iff_eq]
    exact Padding.toLower_eq_iff (by decide) (by decide)
  rw [List.rdropWhile, List.rdropWhile, ← List.map_reverse, List.dropWhile_map, hsame,
    List.map_reverse]

/-- Writing a hostname one way is done once. -/
theorem hostName_hostName (host : String) : hostName (hostName host) = hostName host := by
  have hlower : Char.toLower ∘ Char.toLower = Char.toLower := funext Padding.toLower_toLower
  rw [hostName, hostName, String.toList_ofList, trim_toLower, List.rdropWhile_idempotent,
    List.map_map, hlower]

theorem resolveAliases_normalForm (filter : Filter) (held : Option String × Option Provider) :
    (filter.normalForm held).resolveAliases = .ok held := rfl

theorem badTexts_normalForm {filter : Filter} {held : Option String × Option Provider}
    (htexts : (filter.withScope held).badTexts = false)
    (hhost : (filter.hostname.map hostName).any badHost = false) :
    (filter.normalForm held).badTexts = false := by
  have hname : (filter.hostname.map hostName).any badText = false := by
    cases hf : filter.hostname.map hostName with
    | none => rfl
    | some host =>
        rw [hf] at hhost
        exact badText_of_badHost hhost
  simp only [badTexts, List.any_cons, List.any_nil, Bool.or_false, Bool.or_eq_false_iff] at htexts ⊢
  exact ⟨htexts.1, htexts.2.1, htexts.2.2.1, htexts.2.2.2.1, htexts.2.2.2.2.1,
    htexts.2.2.2.2.2.1, htexts.2.2.2.2.2.2.1, hname, htexts.2.2.2.2.2.2.2.2⟩

/-- Normalizing is done once. -/
theorem normalize_normalize {filter normal : Filter} (h : filter.normalize = .ok normal) :
    normal.normalize = .ok normal := by
  obtain ⟨held, hheld, htexts, hhost, hbounds, rfl⟩ := normalize_eq_ok_iff.mp h
  refine normalize_eq_ok_iff.mpr ⟨held, resolveAliases_normalForm filter held,
    badTexts_normalForm htexts hhost, ?_, hbounds, ?_⟩
  · show ((filter.hostname.map hostName).map hostName).any badHost = false
    rw [Option.map_map, show hostName ∘ hostName = hostName from funext hostName_hostName]
    exact hhost
  · simp only [normalForm, withScope, Option.map_map,
      show hostName ∘ hostName = hostName from funext hostName_hostName]

theorem normalize_limit {filter normal : Filter} (h : filter.normalize = .ok normal) :
    0 < normal.limit.getD 50 := by
  obtain ⟨held, -, -, -, hbounds, rfl⟩ := normalize_eq_ok_iff.mp h
  rw [badBounds, Bool.or_eq_false_iff, Bool.or_eq_false_iff, Bool.not_eq_false', Bool.and_eq_true,
    decide_eq_true_eq] at hbounds
  exact hbounds.1.1.1

/-! ## Cursors -/

/-- A filter with a cursor. -/
def carrying (filter : Filter) (cursor : String) : Filter := { filter with cursor := some cursor }

/-- What a cursor is bound to. -/
def selection (filter : Filter) : Filter := { filter with cursor := none, limit := none }

/-- A cursor changes nothing but that it must not be too long. -/
theorem normalize_carrying {filter normal : Filter} (h : filter.normalize = .ok normal)
    {cursor : String} (hsize : cursor.utf8ByteSize ≤ 2048) :
    (filter.carrying cursor).normalize = .ok (normal.carrying cursor) := by
  obtain ⟨held, hheld, htexts, hhost, hbounds, rfl⟩ := normalize_eq_ok_iff.mp h
  refine normalize_eq_ok_iff.mpr ⟨held, hheld, htexts, hhost, ?_, rfl⟩
  rw [badBounds, Bool.or_eq_false_iff] at hbounds ⊢
  refine ⟨hbounds.1, ?_⟩
  show decide (2048 < cursor.utf8ByteSize) = false
  exact decide_eq_false (not_lt.mpr hsize)

theorem normalize_long {filter : Filter} {cursor : String} (hsize : 2048 < cursor.utf8ByteSize)
    (normal : Filter) : (filter.carrying cursor).normalize ≠ .ok normal := by
  intro h
  obtain ⟨held, -, -, -, hbounds, -⟩ := normalize_eq_ok_iff.mp h
  rw [badBounds, Bool.or_eq_false_iff] at hbounds
  exact absurd hsize (decide_eq_false_iff_not.mp hbounds.2)

/-! ## Spellings -/

/-- Filters that differ by the aliases of their scope, by how their hostname is written and
by where their pages start and end. -/
structure Respelled (filter other : Filter) : Prop where
  aliases : filter.resolveAliases = other.resolveAliases
  hostname : filter.hostname.map hostName = other.hostname.map hostName
  rest : { filter.selection.withScope (none, none) with hostname := none }
    = { other.selection.withScope (none, none) with hostname := none }

/-- Filters that are respelled normalize to the same selection. -/
theorem Respelled.selection_eq {filter other normal otherNormal : Filter}
    (h : Respelled filter other) (hnormal : filter.normalize = .ok normal)
    (hother : other.normalize = .ok otherNormal) : normal.selection = otherNormal.selection := by
  obtain ⟨held, hheld, -, -, -, rfl⟩ := normalize_eq_ok_iff.mp hnormal
  obtain ⟨held', hheld', -, -, -, rfl⟩ := normalize_eq_ok_iff.mp hother
  rw [h.aliases, hheld', Except.ok.injEq] at hheld
  subst hheld
  have hrest := h.rest
  have hhost := h.hostname
  cases filter
  cases other
  simp only [selection, withScope, normalForm, Filter.mk.injEq] at hrest hhost ⊢
  simp_all

end Filter

/-! ## Windows -/

/-- What is checked of a window before it is used. -/
structure Window.Sound (window : Window) : Prop where
  some : window.start < window.stop
  representable : (checkedSub window.stop (31 * 86400)).isNone = false
  short : window.stop - window.start ≤ Filter.longest

theorem Filter.window_sound {filter : Filter} {now : Time} {window : Window}
    (h : filter.window now = .ok window) : window.Sound := by
  rw [Filter.window] at h
  split at h
  · cases h
  · dsimp only at h
    split at h
    · cases h
    · split at h
      · cases h
      · next hrepresentable =>
          split at h
          · cases h
          · next hbounds =>
              cases h
              simp only [Bool.or_eq_true, decide_eq_true_eq, not_or] at hbounds
              exact ⟨Int.not_le.mp hbounds.1.1, Bool.eq_false_iff.mpr hrepresentable,
                Int.not_lt.mp hbounds.2⟩

end HealthMonitor.Query
