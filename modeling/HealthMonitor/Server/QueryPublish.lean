import HealthMonitor.History.QueryWrite
import HealthMonitor.Server.Versions

/-!
# Query publish

From a published view to the rows of the query ledger. An update forgets the releases
whose resource is gone, feeds the recorder with what was observed and what was closed,
and hands the rows the recorder emits to the journal in one batch. Batches can be lost,
and so can single rows of a batch that find no room; a process that ends loses its
recorder, and the next one starts with an empty one.

A recorder that forgot a version never closes its row, and neither does one that
never knew it. The ledger still has one open row of an identity at most
(`one_open_row`): the batch that starts another interval of the identity closes what
was open.
-/

namespace HealthMonitor.Server.Recorder

open Query History

variable {δ : Type}

/-! ## An update -/

/-- What an update feeds to the recorder. A projected observation is open. -/
inductive Input where
  | observation (record : Record) (isOpen : record.closedAt = none)
  | closure (finding : String) (time : Time) (removed : Bool)

def Input.call (capturedAt : Time) : Input → Call
  | .observation record _ => .capture record capturedAt
  | .closure finding time removed => .close finding time removed

/-- The rows a recorder emits for the inputs; a rejected capture emits none. -/
def emitted [DecidableEq δ] (enc : History.Encoding δ) (capturedAt : Time) (r : Recorder δ) :
    List Input → Recorder δ × List (QueryRecord δ)
  | [] => (r, [])
  | input :: inputs =>
      let next := r.call enc (input.call capturedAt)
      let rest := emitted enc capturedAt next.1 inputs
      (rest.1, next.2.rows ++ rest.2)

/-- What an update of the bus hands to the recorder: the resources of the view, the time
the snapshot was captured at, and the inputs. -/
structure Update where
  resources : List String
  capturedAt : Time
  inputs : List Input

/-- `Bus::update` for the recorder, with `query_publish::records`. -/
def publish [DecidableEq δ] (enc : History.Encoding δ) (r : Recorder δ) (update : Update) :
    Recorder δ × List (QueryRecord δ) :=
  emitted enc update.capturedAt (retain r update.resources) update.inputs

/-- The recorder of a process after its updates. -/
def afterUpdates [DecidableEq δ] (enc : History.Encoding δ) (updates : List Update) : Recorder δ :=
  updates.foldl (fun r update => (publish enc r update).1) empty

/-- The key of the open version of an identity. -/
def keyOf (r : Recorder δ) (identity : String) : Option δ :=
  r.active[identity]?.map (·.row.key)

/-! ## Keys and what they are made of -/

/-- A key of a row of that category and identity. -/
inductive Named (enc : History.Encoding δ) : Category → String → δ → Prop
  | version {category : Category} {identity : String} (fingerprint : δ) (time : Time)
      (h : category = .finding ∨ category = .release) :
      Named enc category identity
        (enc.digest (.version (categoryName category ++ "/" ++ identity) fingerprint time))
  | observation {category : Category} {identity : String} (time : Time) (details : Details)
      (h : category = .check ∨ category = .diagnostic) :
      Named enc category identity (enc.digest (.observation category identity time details))

/-- Category and identity can be told from the identity of a version. -/
theorem version_identity_inj {category category' : Category} {identity identity' : String}
    (h : categoryName category ++ "/" ++ identity = categoryName category' ++ "/" ++ identity') :
    category = category' ∧ identity = identity' := by
  have hlist := congrArg String.toList h
  simp only [String.toList_append] at hlist
  cases category <;> cases category' <;>
    simp [categoryName, String.toList_inj] at hlist ⊢ <;> exact hlist

/-- A key tells the category and the identity of its row. -/
theorem Named.unique {enc : History.Encoding δ} (henc : Function.Injective enc.digest)
    {category category' : Category} {identity identity' : String} {key : δ}
    (h : Named enc category identity key) (h' : Named enc category' identity' key) :
    category = category' ∧ identity = identity' := by
  generalize hkey : key = key' at h'
  cases h with
  | version fingerprint time _ =>
      cases h' with
      | version fingerprint' time' _ =>
          have hversion := henc hkey
          injection hversion with hname
          exact version_identity_inj hname
      | observation _ _ _ => cases henc hkey
  | observation time details _ =>
      cases h' with
      | version _ _ _ => cases henc hkey
      | observation _ _ _ =>
          have hobservation := henc hkey
          injection hobservation with hcategory hidentity
          exact ⟨hcategory, hidentity⟩

/-- A row that was admitted, under a key of its category and identity. -/
structure Proper (enc : History.Encoding δ) (row : QueryRecord δ) : Prop where
  named : Named enc row.record.category row.record.identity row.key
  storable : Storable row.record

/-- The versions of a recorder are findings and releases under their identities. -/
structure Sound (enc : History.Encoding δ) (r : Recorder δ) : Prop where
  stored : ∀ (identity : String) (v : Version δ), r.active[identity]? = some v →
    continuing v.row.record ∧ identityOf v.row.record = identity ∧ Proper enc v.row

/-! ## What an input does -/

/-- What an input changes, and the rows it emits. -/
inductive Effect (r r' : Recorder δ) : List (QueryRecord δ) → Prop
  | silent (hkeys : r'.keyOf = r.keyOf) : Effect r r' []
  | observed (row : QueryRecord δ) (hkeys : r'.keyOf = r.keyOf)
      (hrow : ¬continuing row.record) : Effect r r' [row]
  | extended (row : QueryRecord δ) (hkeys : r'.keyOf = r.keyOf)
      (hkey : r.keyOf (identityOf row.record) = some row.key) (hrow : continuing row.record)
      (hopen : row.record.closedAt = none) : Effect r r' [row]
  | started (row : QueryRecord δ) (hnone : r.keyOf (identityOf row.record) = none)
      (hkeys : r'.keyOf
        = Function.update r.keyOf (identityOf row.record) (some row.key))
      (hrow : continuing row.record) (hopen : row.record.closedAt = none) :
      Effect r r' [row]
  | replaced (old row : QueryRecord δ)
      (hsame : identityOf old.record = identityOf row.record)
      (hold : r.keyOf (identityOf row.record) = some old.key)
      (hclosed : old.record.closedAt ≠ none)
      (hkeys : r'.keyOf
        = Function.update r.keyOf (identityOf row.record) (some row.key))
      (hrow : continuing row.record) (hopen : row.record.closedAt = none) :
      Effect r r' [old, row]
  | ended (row : QueryRecord δ) (hold : r.keyOf (identityOf row.record) = some row.key)
      (hclosed : row.record.closedAt ≠ none)
      (hkeys : r'.keyOf = Function.update r.keyOf (identityOf row.record) none) :
      Effect r r' [row]

section Effects

variable {enc : History.Encoding δ} {r : Recorder δ}

theorem Proper.close {row : QueryRecord δ} (h : Proper enc row) (time : Time) :
    Proper enc (closedRow row time) :=
  have hrow := storable_iff.mp h.storable
  ⟨h.named, storable_iff.mpr hrow⟩

theorem Proper.settle {row : QueryRecord δ} (h : Proper enc row) (time : Time)
    (removed : Bool) : Proper enc (settledRow row time removed) := by
  obtain ⟨hkey, -, hcategory, hidentity, -, -⟩ := settledRow_settles row time removed
  refine ⟨by rw [hkey, hcategory, hidentity]; exact h.named, ?_⟩
  have hrow := storable_iff.mp h.storable
  rw [storable_iff]
  obtain ⟨key, record⟩ := row
  obtain ⟨id, identity, scope, location, check, resource, observedAt, lastObservedAt,
    validUntil, closedAt, stale, details⟩ := record
  cases details <;> exact hrow

theorem keyOf_insert (r : Recorder δ) (identity : String) (v : Version δ) (bytes : Nat) :
    keyOf ⟨r.active.insert identity v, bytes⟩
      = Function.update r.keyOf identity (some v.row.key) := by
  funext other
  unfold keyOf
  dsimp only
  by_cases h : other = identity
  · subst h
    simp
  · rw [Table.getElem?_insert_ne h, Function.update_of_ne h]

theorem keyOf_erase (r : Recorder δ) (identity : String) (bytes : Nat) :
    keyOf ⟨r.active.erase identity, bytes⟩ = Function.update r.keyOf identity none := by
  funext other
  unfold keyOf
  dsimp only
  by_cases h : other = identity
  · subst h
    simp
  · rw [Table.getElem?_erase_ne h, Function.update_of_ne h]

theorem keyOf_some {identity : String} {v : Version δ} (h : r.active[identity]? = some v) :
    r.keyOf identity = some v.row.key := by
  rw [keyOf, h]
  rfl

theorem Sound.empty : Sound enc (empty : Recorder δ) :=
  ⟨fun identity v h => by simp [Recorder.empty] at h⟩

theorem Sound.insert (h : Sound enc r) {identity : String} {v : Version δ}
    (hcontinuing : continuing v.row.record) (hid : identityOf v.row.record = identity)
    (hproper : Proper enc v.row) (bytes : Nat) :
    Sound enc ⟨r.active.insert identity v, bytes⟩ := by
  refine ⟨fun other w hw => ?_⟩
  by_cases hother : other = identity
  · subst hother
    simp only [Std.ExtTreeMap.getElem?_insert_self, Option.some.injEq] at hw
    subst hw
    exact ⟨hcontinuing, hid, hproper⟩
  · rw [Table.getElem?_insert_ne hother] at hw
    exact h.stored other w hw

theorem Sound.erase (h : Sound enc r) (identity : String) (bytes : Nat) :
    Sound enc ⟨r.active.erase identity, bytes⟩ := by
  refine ⟨fun other w hw => h.stored other w ?_⟩
  by_cases hother : other = identity
  · subst hother
    simp at hw
  · rwa [Table.getElem?_erase_ne hother] at hw

theorem Sound.retain (h : Sound enc r) (resources : List String) :
    Sound enc (retain r resources) :=
  ⟨fun identity v hv => h.stored identity v (Table.getElem?_retain_eq_some.mp hv).1⟩

theorem storable_forgotten {v : Version δ} :
    Storable (forgotten v).row.record ↔ Storable v.row.record := by
  rw [storable_iff, storable_iff]
  rfl

theorem Alike.keyOf {s : Recorder δ} (h : Alike s r) : s.keyOf = r.keyOf := by
  funext identity
  have hactive := congrArg (Option.map (·.row.key)) (h.active identity)
  rw [Option.map_map, Option.map_map] at hactive
  exact hactive

theorem Alike.sound {s : Recorder δ} (h : Alike s r) (hr : Sound enc r) : Sound enc s := by
  refine ⟨fun identity v hv => ?_⟩
  obtain ⟨w, hw, hvw⟩ := h.of_some hv
  obtain ⟨hcontinuing, hid, hproper⟩ := hr.stored identity w hw
  have hkey : v.row.key = w.row.key := congrArg (·.row.key) hvw
  have hidentity : v.row.record.identity = w.row.record.identity :=
    congrArg (·.row.record.identity) hvw
  have hcategory : v.row.record.category = w.row.record.category :=
    congrArg (·.row.record.category) hvw
  refine ⟨?_, ?_, ?_, ?_⟩
  · rw [continuing, hcategory]
    exact hcontinuing
  · rw [identityOf, hcategory, hidentity]
    exact hid
  · rw [hkey, hcategory, hidentity]
    exact hproper.named
  · rw [← storable_forgotten, hvw, storable_forgotten]
    exact hproper.storable

theorem insertVersion_storable {record : Record} {time : Time} {bytes : Nat}
    {output rows : List (QueryRecord δ)}
    (h : (insertVersion enc r record time bytes output).2 = .ok rows) : Storable record := by
  unfold insertVersion at h
  dsimp only at h
  cases hnew : QueryRecord.new enc.size _ record with
  | error error =>
      rw [hnew] at h
      cases h
  | ok row => exact storable_of_validate (QueryRecord.new_ok hnew).1

/-- A version that keeps the identity of another one keeps its key proper. -/
theorem Proper.of_same {row old : QueryRecord δ} (h : Proper enc old)
    (hkey : row.key = old.key) (hid : identityOf row.record = identityOf old.record)
    (hrow : Storable row.record) : Proper enc row := by
  obtain ⟨hcategory, hidentity⟩ := version_identity_inj hid
  exact ⟨by rw [hkey, hcategory, hidentity]; exact h.named, hrow⟩

theorem Proper.of_version {row : QueryRecord δ} {record : Record} {fingerprint : δ}
    {time : Time} (hcontinuing : continuing record)
    (hrow : row = ⟨enc.digest (.version (identityOf record) fingerprint time), record⟩)
    (hstorable : Storable row.record) : Proper enc row := by
  subst hrow
  exact ⟨.version fingerprint time hcontinuing, hstorable⟩

theorem close_effect (h : Sound enc r) (finding : String) (time : Time) (removed : Bool) :
    Effect r (close r finding time removed).1
        (Reply.closed (close r finding time removed).2).rows
      ∧ Sound enc (close r finding time removed).1
      ∧ ∀ row ∈ (Reply.closed (close r finding time removed).2).rows, Proper enc row := by
  unfold close
  cases hr : r.active["Finding/" ++ finding]? with
  | none => exact ⟨.silent rfl, h, fun row hrow => by cases hrow⟩
  | some old =>
      obtain ⟨hkey, hshut, hcategory, hidentity, -, -⟩ :=
        settledRow_settles old.row time removed
      obtain ⟨-, hid, hproper⟩ := h.stored _ old hr
      have hsame : identityOf (settledRow old.row time removed).record
          = "Finding/" ++ finding := by
        rw [identityOf, hcategory, hidentity]
        exact hid
      refine ⟨.ended _ ?_ hshut ?_, h.erase _ _, fun row hrow => ?_⟩
      · rw [hsame, hkey]
        exact keyOf_some hr
      · rw [hsame]
        exact keyOf_erase r _ _
      · obtain rfl := List.mem_singleton.mp hrow
        exact hproper.settle time removed

variable [DecidableEq δ]

/-- The version an accepted capture leaves can be inserted. -/
theorem capture_storable {record : Record} {time : Time} {rows : List (QueryRecord δ)}
    (hcontinuing : continuing record) (h : (capture enc r record time).2 = .ok rows)
    {v : Version δ} (hv : (capture enc r record time).1.active[identityOf record]? = some v) :
    Storable v.row.record := by
  have hcategory := continuing_iff.mp hcontinuing
  have hinserted : ∀ {s : Recorder δ} {bytes : Nat} {output : List (QueryRecord δ)},
      (insertVersion enc s record time bytes output).2 = .ok rows →
      (insertVersion enc s record time bytes output).1.active[identityOf record]? = some v →
        Storable v.row.record := by
    intro s bytes output hok hactive
    obtain ⟨new, hstate, -, hrow, -⟩ := insertVersion_ok hok
    rw [hstate] at hactive
    simp only [Std.ExtTreeMap.getElem?_insert_self, Option.some.injEq] at hactive
    rw [← hactive, hrow]
    exact insertVersion_storable hok
  cases hr : r.active[identityOf record]? with
  | none =>
      rw [capture_none hcategory hr] at h hv
      by_cases hfull : byteLimit < saturatingAdd r.bytes (bytesOf enc record)
          ∨ versionLimit ≤ r.active.size
      · rw [if_pos hfull] at h
        cases h
      rw [if_neg hfull] at h hv
      exact hinserted h hv
  | some old =>
      rw [capture_some hcategory hr] at h hv
      by_cases hfull : byteLimit < saturatingAdd (r.bytes - old.bytes) (bytesOf enc record)
      · rw [if_pos hfull] at h
        cases h
      rw [if_neg hfull] at h hv
      by_cases hsame : old.fingerprint = fingerprintOf enc record
      · rw [if_pos hsame] at h hv
        unfold extendVersion at h hv
        dsimp only at h hv
        cases hnew : QueryRecord.new enc.size old.row.key _ with
        | error error =>
            rw [hnew] at h
            cases h
        | ok row =>
            obtain ⟨hvalid, rfl⟩ := QueryRecord.new_ok hnew
            rw [hnew] at hv
            simp only [Std.ExtTreeMap.getElem?_insert_self, Option.some.injEq] at hv
            rw [← hv]
            exact storable_of_validate hvalid
      · rw [if_neg hsame] at h hv
        exact hinserted h hv

/-- An accepted capture of an open finding or release. -/
theorem capture_continuing (h : Sound enc r) {record : Record}
    (hopen : record.closedAt = none) {time : Time} (hcontinuing : continuing record)
    {rows : List (QueryRecord δ)} (hok : (capture enc r record time).2 = .ok rows) :
    Effect r (capture enc r record time).1 rows ∧ Sound enc (capture enc r record time).1
      ∧ ∀ row ∈ rows, Proper enc row ∧ identityOf row.record = identityOf record := by
  obtain ⟨new, hstate, -, hid, hnew, hclosed, hchange⟩ := capture_ok hcontinuing hok
  have hactive : (capture enc r record time).1.active[identityOf record]? = some new := by
    rw [hstate]
    simp
  have hstorable := capture_storable hcontinuing hok hactive
  rw [hstate]
  rw [hopen] at hclosed
  have hkeys : ∀ bytes, keyOf ⟨r.active.insert (identityOf record) new, bytes⟩
      = Function.update r.keyOf (identityOf new.row.record) (some new.row.key) := by
    intro bytes
    rw [hid]
    exact keyOf_insert r _ new bytes
  cases hchange with
  | extended old hold hkey _ _ =>
      obtain ⟨-, holdid, hproper⟩ := h.stored _ old hold
      have hnewproper := hproper.of_same hkey (hid.trans holdid.symm) hstorable
      have hheld : r.keyOf (identityOf new.row.record) = some new.row.key := by
        rw [hid, keyOf_some hold, hkey]
      have hsame : ∀ bytes,
          keyOf ⟨r.active.insert (identityOf record) new, bytes⟩ = r.keyOf := by
        intro bytes
        rw [hkeys, ← hheld, Function.update_eq_self]
      refine ⟨?_, h.insert hnew hid hnewproper _, fun row hrow => ?_⟩
      · split
        · exact .extended new.row (hsame _) hheld hnew hclosed
        · exact .silent (hsame _)
      · split at hrow
        · rw [List.mem_singleton] at hrow
          subst hrow
          exact ⟨hnewproper, hid⟩
        · cases hrow
  | replaced old hold hrow =>
      obtain ⟨-, holdid, hproper⟩ := h.stored _ old hold
      have hnewproper := Proper.of_version hcontinuing hrow hstorable
      refine ⟨.replaced _ new.row (holdid.trans hid.symm) ?_ (Option.some_ne_none _)
        (hkeys _) hnew hclosed, h.insert hnew hid hnewproper _, ?_⟩
      · rw [hid]
        exact keyOf_some hold
      · intro row hmem
        simp only [List.mem_cons, List.not_mem_nil, or_false] at hmem
        rcases hmem with rfl | rfl
        · exact ⟨hproper.close time, holdid⟩
        · exact ⟨hnewproper, hid⟩
  | opened hnone _ hrow =>
      have hnewproper := Proper.of_version hcontinuing hrow hstorable
      refine ⟨.started new.row ?_ (hkeys _) hnew hclosed, h.insert hnew hid hnewproper _, ?_⟩
      · rw [hid, keyOf, hnone]
        rfl
      · intro row hmem
        rw [List.mem_singleton] at hmem
        subst hmem
        exact ⟨hnewproper, hid⟩

/-- What a capture of an open record does. -/
theorem capture_effect (h : Sound enc r) {record : Record} (hopen : record.closedAt = none)
    (time : Time) :
    Effect r (capture enc r record time).1
        (Reply.captured (capture enc r record time).2).rows
      ∧ Sound enc (capture enc r record time).1
      ∧ ∀ row ∈ (Reply.captured (capture enc r record time).2).rows,
        Proper enc row ∧ identityOf row.record = identityOf record := by
  cases hreply : (capture enc r record time).2 with
  | error error =>
      have halike := capture_failed hreply
      exact ⟨.silent halike.keyOf, halike.sound h, fun row hrow => by cases hrow⟩
  | ok rows =>
      by_cases hcontinuing : continuing record
      · exact capture_continuing h hopen hcontinuing hreply
      have hcategory : record.category = .check ∨ record.category = .diagnostic := by
        rw [continuing_iff, not_not] at hcontinuing
        exact hcontinuing
      rw [capture_observation hcategory] at hreply ⊢
      cases hnew : QueryRecord.new enc.size (observationKey enc record) record with
      | error error =>
          rw [hnew] at hreply
          cases hreply
      | ok row =>
          rw [hnew] at hreply
          cases hreply
          obtain ⟨hvalid, rfl⟩ := QueryRecord.new_ok hnew
          refine ⟨.observed _ rfl hcontinuing, h, fun row hrow => ?_⟩
          obtain rfl := List.mem_singleton.mp hrow
          exact ⟨⟨.observation _ _ hcategory, storable_of_validate hvalid⟩, rfl⟩

/-- What an input does. -/
theorem input_effect (h : Sound enc r) (capturedAt : Time) (input : Input) :
    Effect r (r.call enc (input.call capturedAt)).1
        (r.call enc (input.call capturedAt)).2.rows
      ∧ Sound enc (r.call enc (input.call capturedAt)).1
      ∧ ∀ row ∈ (r.call enc (input.call capturedAt)).2.rows, Proper enc row := by
  cases input with
  | observation record isOpen =>
      obtain ⟨heffect, hsound, hrows⟩ := capture_effect h isOpen capturedAt
      exact ⟨heffect, hsound, fun row hrow => (hrows row hrow).1⟩
  | closure finding time removed => exact close_effect h finding time removed

theorem emitted_sound (h : Sound enc r) (capturedAt : Time) (inputs : List Input) :
    Sound enc (emitted enc capturedAt r inputs).1
      ∧ ∀ row ∈ (emitted enc capturedAt r inputs).2, Proper enc row := by
  induction inputs generalizing r with
  | nil => exact ⟨h, fun row hrow => by cases hrow⟩
  | cons input inputs ih =>
      obtain ⟨-, hsound, hrows⟩ := input_effect h capturedAt input
      obtain ⟨hend, hrest⟩ := ih hsound
      refine ⟨hend, fun row hrow => ?_⟩
      rcases List.mem_append.mp hrow with hmem | hmem
      · exact hrows row hmem
      · exact hrest row hmem

variable (enc) in
theorem afterUpdates_sound (updates : List Update) :
    Sound enc (afterUpdates enc updates) := by
  induction updates using List.reverseRecOn with
  | nil => exact .empty
  | append_singleton updates update ih =>
      rw [afterUpdates, List.foldl_append]
      exact (emitted_sound (ih.retain _) _ _).1

end Effects

/-! ## The rows of one batch -/

section Batch

variable {enc : History.Encoding δ}

/-- Rows of one key are of one category and identity. -/
theorem Proper.same (henc : Function.Injective enc.digest) {row row' : QueryRecord δ}
    (h : Proper enc row) (h' : Proper enc row') (hkey : row.key = row'.key) :
    row.record.category = row'.record.category
      ∧ row.record.identity = row'.record.identity := by
  have hnamed := h.named
  rw [hkey] at hnamed
  exact hnamed.unique henc h'.named

theorem Proper.same_identity (henc : Function.Injective enc.digest)
    {row row' : QueryRecord δ} (h : Proper enc row) (h' : Proper enc row')
    (hkey : row.key = row'.key) : identityOf row.record = identityOf row'.record := by
  obtain ⟨hcategory, hidentity⟩ := h.same henc h' hkey
  rw [identityOf, identityOf, hcategory, hidentity]

variable [DecidableEq δ]

/-- The open rows of a batch are versions that are held, and the versions of the identities
it mentions are among its open rows. -/
structure Mirrors (held : String → Option δ) (rows : List (QueryRecord δ)) : Prop where
  held_of_open : ∀ key row, Upsert.last (·.key) rows key = some row →
    continuing row.record → row.record.closedAt = none →
      held (identityOf row.record) = some key
  open_of_held : ∀ row ∈ rows, continuing row.record → ∀ key,
    held (identityOf row.record) = some key →
      ∃ row', Upsert.last (·.key) rows key = some row' ∧ continuing row'.record
        ∧ identityOf row'.record = identityOf row.record ∧ row'.record.closedAt = none

theorem last_snoc (rows : List (QueryRecord δ)) (row : QueryRecord δ) (key : δ) :
    Upsert.last (·.key) (rows ++ [row]) key
      = if row.key = key then some row else Upsert.last (·.key) rows key := by
  rw [Upsert.last_append, Upsert.last_cons, Upsert.last_nil, Option.none_or]
  split <;> rfl

namespace Mirrors

variable {held : String → Option δ} {rows : List (QueryRecord δ)} {row : QueryRecord δ}

theorem nil (held : String → Option δ) : Mirrors held [] :=
  ⟨fun _ row h => (Option.some_ne_none row h.symm).elim, fun _ h => by cases h⟩

/-- A row that is not a version changes nothing. -/
theorem observe (henc : Function.Injective enc.digest) (h : Mirrors held rows)
    (hrows : ∀ r ∈ rows, Proper enc r) (hproper : Proper enc row)
    (hrow : ¬continuing row.record) : Mirrors held (rows ++ [row]) := by
  constructor
  · intro key last hlast hcontinuing hopen
    rw [last_snoc] at hlast
    split at hlast
    · cases hlast
      exact absurd hcontinuing hrow
    · exact h.held_of_open key last hlast hcontinuing hopen
  · intro mentioned hmem hcontinuing key hheld
    rcases List.mem_append.mp hmem with hmem | hmem
    · obtain ⟨last, hlast, hlastc, hid, hopen⟩ :=
        h.open_of_held mentioned hmem hcontinuing key hheld
      obtain ⟨hlastmem, hkey⟩ := Upsert.last_spec hlast
      refine ⟨last, ?_, hlastc, hid, hopen⟩
      rw [last_snoc, if_neg, hlast]
      intro heq
      have hcategory := (hproper.same henc (hrows last hlastmem) (heq.trans hkey.symm)).1
      rw [continuing, hcategory] at hrow
      exact hrow hlastc
    · obtain rfl := List.mem_singleton.mp hmem
      exact absurd hcontinuing hrow

/-- A version that is held is written again. -/
theorem extend (henc : Function.Injective enc.digest) (h : Mirrors held rows)
    (hrows : ∀ r ∈ rows, Proper enc r) (hproper : Proper enc row)
    (hkey : held (identityOf row.record) = some row.key) (hrow : continuing row.record)
    (hopen : row.record.closedAt = none) : Mirrors held (rows ++ [row]) := by
  constructor
  · intro key last hlast hcontinuing hlastopen
    rw [last_snoc] at hlast
    split at hlast
    · next heq =>
        cases hlast
        rw [hkey, heq]
    · exact h.held_of_open key last hlast hcontinuing hlastopen
  · intro mentioned hmem hcontinuing key hheld
    rw [last_snoc]
    rcases List.mem_append.mp hmem with hmem | hmem
    · obtain ⟨last, hlast, hlastc, hid, hlastopen⟩ :=
        h.open_of_held mentioned hmem hcontinuing key hheld
      obtain ⟨hlastmem, hlastkey⟩ := Upsert.last_spec hlast
      by_cases heq : row.key = key
      · have hsame := hproper.same_identity henc (hrows last hlastmem)
          (heq.trans hlastkey.symm)
        exact ⟨row, if_pos heq, hrow, hsame.trans hid, hopen⟩
      · exact ⟨last, by rw [if_neg heq, hlast], hlastc, hid, hlastopen⟩
    · obtain rfl := List.mem_singleton.mp hmem
      have heq : mentioned.key = key := Option.some.inj (hkey.symm.trans hheld)
      exact ⟨mentioned, if_pos heq, hrow, rfl, hopen⟩

/-- A version starts where none was held. -/
theorem start (henc : Function.Injective enc.digest) (h : Mirrors held rows)
    (hrows : ∀ r ∈ rows, Proper enc r) (hproper : Proper enc row)
    (hnone : held (identityOf row.record) = none) (hrow : continuing row.record)
    (hopen : row.record.closedAt = none) :
    Mirrors (Function.update held (identityOf row.record) (some row.key)) (rows ++ [row]) := by
  constructor
  · intro key last hlast hcontinuing hlastopen
    rw [last_snoc] at hlast
    split at hlast
    · next heq =>
        cases hlast
        rw [Function.update_self, heq]
    · have hold := h.held_of_open key last hlast hcontinuing hlastopen
      have hne : identityOf last.record ≠ identityOf row.record := by
        intro hid
        rw [hid, hnone] at hold
        cases hold
      rw [Function.update_of_ne hne, hold]
  · intro mentioned hmem hcontinuing key hheld
    rw [last_snoc]
    by_cases hid : identityOf mentioned.record = identityOf row.record
    · rw [hid, Function.update_self] at hheld
      exact ⟨row, if_pos (Option.some.inj hheld), hrow, hid.symm, hopen⟩
    · rw [Function.update_of_ne hid] at hheld
      rcases List.mem_append.mp hmem with hmem | hmem
      · obtain ⟨last, hlast, hlastc, hlastid, hlastopen⟩ :=
          h.open_of_held mentioned hmem hcontinuing key hheld
        obtain ⟨hlastmem, hlastkey⟩ := Upsert.last_spec hlast
        have hne : row.key ≠ key := by
          intro heq
          have hsame := hproper.same_identity henc (hrows last hlastmem)
            (heq.trans hlastkey.symm)
          exact hid (hlastid.symm.trans hsame.symm)
        exact ⟨last, by rw [if_neg hne, hlast], hlastc, hlastid, hlastopen⟩
      · obtain rfl := List.mem_singleton.mp hmem
        exact absurd rfl hid

/-- The version that is held is closed. -/
theorem finish (henc : Function.Injective enc.digest) (h : Mirrors held rows)
    (hrows : ∀ r ∈ rows, Proper enc r) (hproper : Proper enc row)
    (hold : held (identityOf row.record) = some row.key)
    (hclosed : row.record.closedAt ≠ none) :
    Mirrors (Function.update held (identityOf row.record) none) (rows ++ [row]) := by
  constructor
  · intro key last hlast hcontinuing hlastopen
    rw [last_snoc] at hlast
    split at hlast
    · cases hlast
      exact absurd hlastopen hclosed
    · next hne =>
        have hheld := h.held_of_open key last hlast hcontinuing hlastopen
        have hid : identityOf last.record ≠ identityOf row.record := by
          intro hid
          rw [hid, hold] at hheld
          exact hne (Option.some.inj hheld)
        rw [Function.update_of_ne hid, hheld]
  · intro mentioned hmem hcontinuing key hheld
    rw [last_snoc]
    by_cases hid : identityOf mentioned.record = identityOf row.record
    · rw [hid, Function.update_self] at hheld
      cases hheld
    · rw [Function.update_of_ne hid] at hheld
      rcases List.mem_append.mp hmem with hmem | hmem
      · obtain ⟨last, hlast, hlastc, hlastid, hlastopen⟩ :=
          h.open_of_held mentioned hmem hcontinuing key hheld
        obtain ⟨hlastmem, hlastkey⟩ := Upsert.last_spec hlast
        have hne : row.key ≠ key := by
          intro heq
          have hsame := hproper.same_identity henc (hrows last hlastmem)
            (heq.trans hlastkey.symm)
          exact hid (hlastid.symm.trans hsame.symm)
        exact ⟨last, by rw [if_neg hne, hlast], hlastc, hlastid, hlastopen⟩
      · obtain rfl := List.mem_singleton.mp hmem
        exact absurd rfl hid

/-- What an input does is mirrored by the rows it emits. -/
theorem step (henc : Function.Injective enc.digest) {r r' : Recorder δ}
    (h : Mirrors r.keyOf rows) (hrows : ∀ row ∈ rows, Proper enc row)
    {added : List (QueryRecord δ)} (hadded : ∀ row ∈ added, Proper enc row)
    (heffect : Effect r r' added) : Mirrors r'.keyOf (rows ++ added) := by
  cases heffect with
  | silent hkeys =>
      rw [hkeys, List.append_nil]
      exact h
  | observed row hkeys hrow =>
      rw [hkeys]
      exact h.observe henc hrows (hadded row (by simp)) hrow
  | extended row hkeys hkey hrow hopen =>
      rw [hkeys]
      exact h.extend henc hrows (hadded row (by simp)) hkey hrow hopen
  | started row hnone hkeys hrow hopen =>
      rw [hkeys]
      exact h.start henc hrows (hadded row (by simp)) hnone hrow hopen
  | ended row hold hclosed hkeys =>
      rw [hkeys]
      exact h.finish henc hrows (hadded row (by simp)) hold hclosed
  | replaced old row hsame hold hclosed hkeys hrow hopen =>
      -- The old version ends, and the new one starts without a predecessor.
      rw [← hsame] at hold
      have hended := h.finish henc hrows (hadded old (by simp)) hold hclosed
      have hmid : ∀ r ∈ rows ++ [old], Proper enc r := by
        intro r hr
        rcases List.mem_append.mp hr with hr | hr
        · exact hrows r hr
        · exact hadded r (by simp_all)
      have hstarted := hended.start henc hmid (hadded row (by simp))
        (by rw [hsame, Function.update_self]) hrow hopen
      rw [hsame, Function.update_idem, List.append_assoc] at hstarted
      rw [hkeys]
      exact hstarted

/-- The rows of an update mirror the versions the recorder holds after it. -/
theorem emitted (henc : Function.Injective enc.digest) {r : Recorder δ} (hsound : Sound enc r)
    (h : Mirrors r.keyOf rows) (hrows : ∀ row ∈ rows, Proper enc row) (capturedAt : Time)
    (inputs : List Input) :
    Mirrors (emitted enc capturedAt r inputs).1.keyOf
      (rows ++ (emitted enc capturedAt r inputs).2) := by
  induction inputs generalizing r rows with
  | nil =>
      show Mirrors r.keyOf (rows ++ [])
      rwa [List.append_nil]
  | cons input inputs ih =>
      obtain ⟨heffect, hnext, hadded⟩ := input_effect hsound capturedAt input
      have hmirrors := h.step henc hrows hadded heffect
      have hrest := ih hnext hmirrors fun row hrow => by
        rcases List.mem_append.mp hrow with hrow | hrow
        · exact hrows row hrow
        · exact hadded row hrow
      rw [List.append_assoc] at hrest
      exact hrest

end Mirrors

def Input.observes (identity : String) : Input → Bool
  | .observation record _ => identityOf record = identity
  | .closure .. => false

/-- How often the inputs observe a version. -/
def observations (inputs : List Input) (identity : String) : Nat :=
  inputs.countP (·.observes identity)

/-- The rows of a batch that reach the database. The journal can drop any of them; it is
assumed to drop none of a version that is observed more than once in the batch. -/
structure Admitted (inputs : List Input) (rows kept : List (QueryRecord δ)) : Prop where
  sublist : kept.Sublist rows
  complete : ∀ identity, observations inputs identity ≤ 1
    ∨ kept.filter (identityOf ·.record = identity)
      = rows.filter (identityOf ·.record = identity)

omit [DecidableEq δ] in
theorem Admitted.whole (inputs : List Input) (rows : List (QueryRecord δ)) :
    Admitted inputs rows rows :=
  ⟨.refl rows, fun _ => .inr rfl⟩

/-- The open rows of a version. -/
def openRows (rows : List (QueryRecord δ)) (identity : String) : List (QueryRecord δ) :=
  rows.filter fun row => continuing row.record ∧ row.record.closedAt = none
    ∧ identityOf row.record = identity

theorem openRows_capture {r : Recorder δ} (hsound : Sound enc r) {record : Record}
    (hopen : record.closedAt = none) (time : Time) (identity : String) :
    (openRows (Reply.captured (capture enc r record time).2).rows identity).length
      ≤ if identityOf record = identity then 1 else 0 := by
  obtain ⟨heffect, -, hrows⟩ := capture_effect hsound hopen time
  split
  · generalize (Reply.captured (capture enc r record time).2).rows = rows at heffect
    cases heffect with
    | silent _ => exact Nat.zero_le 1
    | observed row _ _ => exact List.length_filter_le _ [row]
    | extended row _ _ _ _ => exact List.length_filter_le _ [row]
    | started row _ _ _ _ => exact List.length_filter_le _ [row]
    | ended row _ _ _ => exact List.length_filter_le _ [row]
    | replaced old row _ _ hclosed _ _ _ =>
        unfold openRows
        rw [List.filter_cons_of_neg (by simp [hclosed])]
        exact List.length_filter_le _ [row]
  · next hne =>
      have hnil : openRows (Reply.captured (capture enc r record time).2).rows identity
          = [] := by
        refine List.filter_eq_nil_iff.mpr fun row hrow => ?_
        have hid := (hrows row hrow).2
        rw [decide_eq_true_eq]
        rintro ⟨-, -, hsame⟩
        exact hne (hid.symm.trans hsame)
      rw [hnil]
      exact Nat.le_refl 0

omit [DecidableEq δ] in
theorem openRows_close (r : Recorder δ) (finding : String) (time : Time) (removed : Bool)
    (identity : String) :
    openRows (Reply.closed (close r finding time removed).2).rows identity = [] := by
  unfold close
  cases hr : r.active["Finding/" ++ finding]? with
  | none => rfl
  | some old =>
      obtain ⟨-, hshut, -⟩ := settledRow_settles old.row time removed
      refine List.filter_eq_nil_iff.mpr fun row hrow => ?_
      obtain rfl := List.mem_singleton.mp hrow
      simp [hshut]

/-- An update emits an open row of a version as often as it observes it at most. -/
theorem openRows_emitted {r : Recorder δ} (hsound : Sound enc r) (capturedAt : Time)
    (inputs : List Input) (identity : String) :
    (openRows (emitted enc capturedAt r inputs).2 identity).length
      ≤ observations inputs identity := by
  induction inputs generalizing r with
  | nil => exact Nat.le_refl 0
  | cons input inputs ih =>
      obtain ⟨-, hnext, -⟩ := input_effect hsound capturedAt input
      have hrest := ih hnext
      have hsplit : (openRows (emitted enc capturedAt r (input :: inputs)).2 identity).length
          = (openRows (r.call enc (input.call capturedAt)).2.rows identity).length
            + (openRows (emitted enc capturedAt (r.call enc (input.call capturedAt)).1
                inputs).2 identity).length := by
        rw [← List.length_append]
        exact congrArg List.length (List.filter_append ..)
      rw [hsplit, observations, List.countP_cons]
      cases input with
      | observation record isOpen =>
          have hfirst := openRows_capture hsound isOpen capturedAt identity
          simp only [Input.observes, decide_eq_true_eq]
          exact (Nat.add_le_add hfirst hrest).trans (Nat.le_of_eq (Nat.add_comm ..))
      | closure finding time removed =>
          have hfirst := openRows_close r finding time removed identity
          rw [show (r.call enc ((Input.closure finding time removed).call capturedAt)).2
            = Reply.closed (close r finding time removed).2 from rfl, hfirst,
            List.length_nil, Nat.zero_add]
          exact hrest

theorem eq_of_length_le_one {α : Type} {l : List α} {a b : α} (h : l.length ≤ 1) (ha : a ∈ l)
    (hb : b ∈ l) : a = b := by
  match l, h with
  | [only], _ => rw [List.mem_singleton.mp ha, List.mem_singleton.mp hb]

/-- The last row of a key is among the rows of its identity. -/
theorem last_ofIdentity (henc : Function.Injective enc.digest) {rows : List (QueryRecord δ)}
    (hrows : ∀ row ∈ rows, Proper enc row) {row : QueryRecord δ} (hproper : Proper enc row) :
    Upsert.last (·.key) (rows.filter (identityOf ·.record = identityOf row.record)) row.key
      = Upsert.last (·.key) rows row.key := by
  refine Upsert.last_filter fun other hother hkey => ?_
  rw [decide_eq_true_eq]
  exact (hrows other hother).same_identity henc hproper hkey

/-- Of the rows of a batch that reach the database one at most opens a version. -/
theorem Admitted.unique (henc : Function.Injective enc.digest) {r : Recorder δ}
    (hsound : Sound enc r) {capturedAt : Time} {inputs : List Input}
    {kept : List (QueryRecord δ)}
    (h : Admitted inputs (emitted enc capturedAt r inputs).2 kept) {key key' : δ}
    {row row' : QueryRecord δ} (hlast : Upsert.last (·.key) kept key = some row)
    (hlast' : Upsert.last (·.key) kept key' = some row') (hrow : continuing row.record)
    (hrow' : continuing row'.record) (hopen : row.record.closedAt = none)
    (hopen' : row'.record.closedAt = none)
    (hid : identityOf row.record = identityOf row'.record) : key = key' := by
  obtain ⟨-, hproper⟩ := emitted_sound hsound capturedAt inputs
  obtain ⟨hmem, hkey⟩ := Upsert.last_spec hlast
  obtain ⟨hmem', hkey'⟩ := Upsert.last_spec hlast'
  rcases h.complete (identityOf row.record) with hone | hall
  · -- The rows of the version hold one open row, so the two are the same.
    have hcount : (openRows kept (identityOf row.record)).length ≤ 1 :=
      (h.sublist.filter _).length_le.trans ((openRows_emitted hsound _ _ _).trans hone)
    have hfirst : row ∈ openRows kept (identityOf row.record) :=
      List.mem_filter.mpr ⟨hmem, by simp [hrow, hopen]⟩
    have hsecond : row' ∈ openRows kept (identityOf row.record) :=
      List.mem_filter.mpr ⟨hmem', by simp [hrow', hopen', hid]⟩
    rw [← hkey, ← hkey', eq_of_length_le_one hcount hfirst hsecond]
  · -- The batch has every row of the version, so the last ones mirror the recorder.
    have hmirrors := (Mirrors.nil r.keyOf).emitted henc hsound (by simp) capturedAt inputs
    have hwhole : ∀ {k : δ} {last : QueryRecord δ}, Upsert.last (·.key) kept k = some last →
        identityOf last.record = identityOf row.record →
          Upsert.last (·.key) (emitted enc capturedAt r inputs).2 k = some last := by
      intro k last hk hlastid
      obtain ⟨hlastmem, rfl⟩ := Upsert.last_spec hk
      have hlastproper := hproper last (h.sublist.subset hlastmem)
      rw [← hlastid] at hall
      rw [← last_ofIdentity henc hproper hlastproper, ← hall,
        last_ofIdentity henc (fun other hother => hproper other (h.sublist.subset hother))
          hlastproper, hk]
    have hheld := hmirrors.held_of_open key row (hwhole hlast rfl) hrow hopen
    have hheld' := hmirrors.held_of_open key' row' (hwhole hlast' hid.symm) hrow' hopen'
    rw [← hid, hheld] at hheld'
    exact Option.some.inj hheld'

end Batch

/-! ## The ledger -/

section Ledger

variable {enc : History.Encoding δ} {text : δ → String} [DecidableEq δ]

/-- The rows of the ledger under their keys, and one open row of a version at most. -/
structure Consistent (enc : History.Encoding δ) (ledger : QueryLedger δ) : Prop where
  named : ∀ key row, ledger key = some row → Named enc row.category row.identity key
  unique : ∀ key key' row row', ledger key = some row → ledger key' = some row' →
    row.category = .finding ∨ row.category = .release → row.category = row'.category →
    row.identity = row'.identity → row.closedAt = none → row'.closedAt = none → key = key'

/-- The ledgers that processes leave behind. A process can end at any time, and so can the
next one; retention deletes some rows. -/
inductive Reachable (enc : History.Encoding δ) (text : δ → String) : QueryLedger δ → Prop
  | empty : Reachable enc text fun _ => none
  | written {ledger after : QueryLedger δ} (h : Reachable enc text ledger)
      (updates : List Update) (update : Update) (kept : List (QueryRecord δ)) (now : Time)
      (hkept : Admitted update.inputs (publish enc (afterUpdates enc updates) update).2 kept)
      (hwrite : write text ledger now kept = .ok after) : Reachable enc text after
  | retained {ledger : QueryLedger δ} (h : Reachable enc text ledger) (gone : δ → Bool) :
      Reachable enc text fun key => if gone key then none else ledger key

/-- Where a row of the ledger after a write comes from. -/
theorem row_of_write (henc : Function.Injective enc.digest) {ledger after : QueryLedger δ}
    (h : Consistent enc ledger) {now : Time} {kept : List (QueryRecord δ)}
    (hproper : ∀ row ∈ kept, Proper enc row) (hwrite : write text ledger now kept = .ok after)
    {key : δ} {row : Row} (hrow : after key = some row) :
    (∃ last, Upsert.last (·.key) kept key = some last
        ∧ row.category = last.record.category ∧ row.identity = last.record.identity
        ∧ (row.closedAt = none ↔ last.record.closedAt = none))
      ∨ (Upsert.last (·.key) kept key = none
        ∧ ∃ held, ledger key = some held ∧ Superseded kept now held row) := by
  have hspec := write_spec hwrite
  cases hlast : Upsert.last (·.key) kept key with
  | some last =>
      obtain ⟨hmem, hkey⟩ := Upsert.last_spec hlast
      have hafter := hspec.inserted key last hlast
      rw [hrow] at hafter
      refine .inl ⟨last, rfl, ?_⟩
      cases hheld : ledger key with
      | none =>
          rw [hheld] at hafter
          cases hafter
          exact ⟨rfl, rfl, Option.map_eq_none_iff⟩
      | some held =>
          rw [hheld] at hafter
          cases hafter
          have hnamed := (hproper last hmem).named
          rw [hkey] at hnamed
          obtain ⟨hcategory, hidentity⟩ := (h.named key held hheld).unique henc hnamed
          exact ⟨hcategory, hidentity, Option.map_eq_none_iff⟩
  | none =>
      refine .inr ⟨rfl, ?_⟩
      cases hheld : ledger key with
      | none =>
          rw [hspec.absent key hlast hheld] at hrow
          cases hrow
      | some held =>
          obtain ⟨row', hrow', hsuperseded⟩ := hspec.others key held hlast hheld
          rw [hrow] at hrow'
          cases hrow'
          exact ⟨held, rfl, hsuperseded⟩

/-- A row that stays open without the batch is of an identity it does not continue. -/
theorem superseded_open {kept : List (QueryRecord δ)} {now : Time} {held row : Row}
    (h : Superseded kept now held row) (hopen : row.closedAt = none) :
    row = held ∧ ¬continuedIn kept row.identity := by
  cases h with
  | closed _ _ => cases hopen
  | kept hnot => exact ⟨rfl, fun hcontinued => hnot hcontinued hopen⟩

/-- A row that a batch opens continues its identity. -/
theorem continuedIn_of_last {kept : List (QueryRecord δ)} {key : δ} {last : QueryRecord δ}
    (hlast : Upsert.last (·.key) kept key = some last) (hcontinuing : continuing last.record) :
    continuedIn kept last.record.identity := by
  refine ⟨key, last, hlast, ?_, rfl⟩
  unfold QueryRecord.continues
  rcases hcontinuing with h | h
  · rw [h]
    rfl
  · rw [h]
    rfl

theorem Consistent.write (henc : Function.Injective enc.digest) {ledger after : QueryLedger δ}
    (h : Consistent enc ledger) {updates : List Update} {update : Update}
    {kept : List (QueryRecord δ)} {now : Time}
    (hkept : Admitted update.inputs (publish enc (afterUpdates enc updates) update).2 kept)
    (hwrite : write text ledger now kept = .ok after) : Consistent enc after := by
  have hsound := (afterUpdates_sound enc updates).retain update.resources
  obtain ⟨-, hrows⟩ := emitted_sound hsound update.capturedAt update.inputs
  have hproper : ∀ row ∈ kept, Proper enc row := fun row hrow =>
    hrows row (hkept.sublist.subset hrow)
  constructor
  · intro key row hrow
    rcases row_of_write henc h hproper hwrite hrow with
      ⟨last, hlast, hcategory, hidentity, -⟩ | ⟨-, held, hheld, hsuperseded⟩
    · obtain ⟨hmem, hkey⟩ := Upsert.last_spec hlast
      rw [hcategory, hidentity, ← hkey]
      exact (hproper last hmem).named
    · cases hsuperseded with
      | closed _ _ => exact h.named key held hheld
      | kept _ => exact h.named key row hheld
  · intro key key' row row' hrow hrow' hcontinuing hcategory hidentity hopen hopen'
    rcases row_of_write henc h hproper hwrite hrow with
      ⟨last, hlast, hc, hi, ho⟩ | ⟨-, held, hheld, hsuperseded⟩ <;>
    rcases row_of_write henc h hproper hwrite hrow' with
      ⟨last', hlast', hc', hi', ho'⟩ | ⟨-, held', hheld', hsuperseded'⟩
    · refine hkept.unique henc hsound hlast hlast' ?_ ?_ (ho.mp hopen) (ho'.mp hopen') ?_
      · rw [continuing, ← hc]
        exact hcontinuing
      · rw [continuing, ← hc', ← hcategory]
        exact hcontinuing
      · rw [identityOf, identityOf, ← hc, ← hc', ← hi, ← hi', hcategory, hidentity]
    · have hlastc : continuing last.record := by
        rw [continuing, ← hc]
        exact hcontinuing
      have hcontinued := continuedIn_of_last hlast hlastc
      rw [← hi, hidentity] at hcontinued
      exact absurd hcontinued (superseded_open hsuperseded' hopen').2
    · have hlastc : continuing last'.record := by
        rw [continuing, ← hc', ← hcategory]
        exact hcontinuing
      have hcontinued := continuedIn_of_last hlast' hlastc
      rw [← hi', ← hidentity] at hcontinued
      exact absurd hcontinued (superseded_open hsuperseded hopen).2
    · obtain ⟨rfl, -⟩ := superseded_open hsuperseded hopen
      obtain ⟨rfl, -⟩ := superseded_open hsuperseded' hopen'
      exact h.unique key key' row row' hheld hheld' hcontinuing hcategory hidentity hopen
        hopen'

theorem Reachable.consistent (henc : Function.Injective enc.digest) {ledger : QueryLedger δ}
    (h : Reachable enc text ledger) : Consistent enc ledger := by
  induction h with
  | empty =>
      exact ⟨fun key row hrow => (by cases hrow), fun key key' row row' hrow => (by cases hrow)⟩
  | written _ updates update kept now hkept hwrite ih => exact ih.write henc hkept hwrite
  | retained _ gone ih =>
      have hheld : ∀ {ledger : QueryLedger δ} {key : δ} {row : Row},
          (if gone key then none else ledger key) = some row → ledger key = some row := by
        intro ledger key row hrow
        split at hrow
        · cases hrow
        · exact hrow
      exact ⟨fun key row hrow => ih.named key row (hheld hrow),
        fun key key' row row' hrow hrow' =>
          ih.unique key key' row row' (hheld hrow) (hheld hrow')⟩

/-- The ledger has one open row of a finding or a release at most, whatever processes
ended, batches were lost or rows were deleted. -/
theorem one_open_row (henc : Function.Injective enc.digest) {ledger : QueryLedger δ}
    (h : Reachable enc text ledger) {key key' : δ} {row row' : Row}
    (hrow : ledger key = some row) (hrow' : ledger key' = some row')
    (hcontinuing : row.category = .finding ∨ row.category = .release)
    (hcategory : row.category = row'.category) (hidentity : row.identity = row'.identity)
    (hopen : row.closedAt = none) (hopen' : row'.closedAt = none) : key = key' :=
  (h.consistent henc).unique key key' row row' hrow hrow' hcontinuing hcategory hidentity
    hopen hopen'

namespace Sample

def hex : Symbol → String
  | .version identity _ time => identity ++ "@" ++ toString time
  | _ => "observation"

/-- A process observes the release at that time. -/
def observing (time : Time) : Update where
  resources := ["orders/api"]
  capturedAt := time
  inputs := [.observation (deployed time) rfl]

/-- Two processes observe a release one after the other, each with an empty recorder. -/
theorem restarted : ∃ ledger, Reachable encoding hex ledger
    ∧ (∃ row, ledger (keyAt 1) = some row ∧ row.closedAt = some (timestamptz 20))
    ∧ ∃ row, ledger (keyAt 2) = some row ∧ row.category = .release
      ∧ row.identity = "orders/api" ∧ row.closedAt = none := by
  have hrows : ∀ time, ∀ row ∈ (publish encoding (afterUpdates encoding [])
      (observing time)).2, Storable row.record := fun time row hrow =>
    ((emitted_sound ((afterUpdates_sound _ []).retain _) _ _).2 row hrow).storable
  obtain ⟨first, hfirst⟩ := write_ok hex (fun _ => none) 10 (hrows 1)
  obtain ⟨second, hsecond⟩ := write_ok hex first 20 (hrows 2)
  refine ⟨second, ((Reachable.empty.written [] (observing 1) _ 10 (.whole _ _)
    hfirst).written [] (observing 2) _ 20 (.whole _ _) hsecond), ?_, ?_⟩
  · rw [write_eq hsecond, write_eq hfirst]
    exact ⟨_, by rfl, by rfl⟩
  · rw [write_eq hsecond, write_eq hfirst]
    exact ⟨_, by rfl, by rfl, by rfl, by rfl⟩

end Sample

theorem one_open_row_restarted : ∃ ledger, Reachable Sample.encoding Sample.hex ledger
    ∧ (∃ row, ledger (Sample.keyAt 1) = some row ∧ row.closedAt = some (timestamptz 20))
    ∧ ∀ key row, ledger key = some row → row.category = .release →
      row.identity = "orders/api" → row.closedAt = none → key = Sample.keyAt 2 := by
  obtain ⟨ledger, hreachable, hclosed, last, hlast, hcategory, hidentity, hopen⟩ :=
    Sample.restarted
  exact ⟨ledger, hreachable, hclosed, fun key row hrow hc hi ho =>
    one_open_row Sample.digest_injective hreachable hrow hlast (.inr hc)
      (hc.trans hcategory.symm) (hi.trans hidentity.symm) ho hopen⟩

/-- A batch that is written whole settles the identities it mentions: their open rows are
the versions the recorder holds, whatever the ledger held before. Rows of other
identities stay as they are. -/
theorem publish_settles (henc : Function.Injective enc.digest) {ledger : QueryLedger δ}
    (h : Reachable enc text ledger) (updates : List Update) (update : Update) (now : Time) :
    ∃ after,
      write text ledger now (publish enc (afterUpdates enc updates) update).2 = .ok after
        ∧ (∀ record, continuing record →
          (∃ row ∈ (publish enc (afterUpdates enc updates) update).2,
            identityOf row.record = identityOf record) →
          ∀ key,
            (∃ row, after key = some row ∧ row.category = record.category
                ∧ row.identity = record.identity ∧ row.closedAt = none)
              ↔ (publish enc (afterUpdates enc updates) update).1.keyOf (identityOf record)
                = some key)
        ∧ ∀ key row, ledger key = some row →
          (∀ emitted ∈ (publish enc (afterUpdates enc updates) update).2,
            emitted.record.identity ≠ row.identity) →
          after key = some row := by
  have hsound := (afterUpdates_sound enc updates).retain update.resources
  obtain ⟨-, hproper⟩ := emitted_sound hsound update.capturedAt update.inputs
  have hmirrors := (Mirrors.nil _).emitted henc hsound (by simp) update.capturedAt
    update.inputs
  have hconsistent := h.consistent henc
  show ∃ after, write text ledger now (emitted enc update.capturedAt _ update.inputs).2
    = .ok after ∧ _
  unfold publish
  generalize emitted enc update.capturedAt
    (Recorder.retain (afterUpdates enc updates) update.resources) update.inputs = rows at *
  obtain ⟨after, hwrite⟩ := write_ok text ledger now fun row hrow => (hproper row hrow).storable
  rw [List.nil_append] at hmirrors
  refine ⟨after, hwrite, fun record hcontinuing ⟨mentioned, hmem, hid⟩ key => ?_,
    fun key row hrow hnone => ?_⟩
  · obtain ⟨hcategory, hidentity⟩ := version_identity_inj hid
    have hmentioned : continuing mentioned.record := by
      rw [continuing, hcategory]
      exact hcontinuing
    constructor
    · rintro ⟨row, hrow, hrowc, hrowi, hopen⟩
      rcases row_of_write henc hconsistent hproper hwrite hrow with
        ⟨last, hlast, hc, hi, ho⟩ | ⟨-, held, -, hsuperseded⟩
      · have hheld := hmirrors.held_of_open key last hlast
          (by rw [continuing, ← hc, hrowc]; exact hcontinuing) (ho.mp hopen)
        rwa [identityOf, ← hc, ← hi, hrowc, hrowi] at hheld
      · -- The batch mentions the identity, so a row it does not hold is closed.
        obtain ⟨last, hlast⟩ := Upsert.exists_last
          (List.mem_map_of_mem (f := fun row : QueryRecord δ => row.key) hmem)
        obtain ⟨hlastmem, hlastkey⟩ := Upsert.last_spec hlast
        obtain ⟨hsamec, hsamei⟩ := (hproper last hlastmem).same henc (hproper _ hmem) hlastkey
        have hcontinued := continuedIn_of_last hlast
          (by rw [continuing, hsamec]; exact hmentioned)
        rw [hsamei, hidentity, ← hrowi] at hcontinued
        exact absurd hcontinued (superseded_open hsuperseded hopen).2
    · intro hheld
      rw [← hid] at hheld
      obtain ⟨last, hlast, -, hlastid, hopen⟩ :=
        hmirrors.open_of_held mentioned hmem hmentioned key hheld
      have hrow := (write_spec hwrite).inserted key last hlast
      refine ⟨_, hrow, ?_⟩
      obtain ⟨hlastc, hlasti⟩ := version_identity_inj hlastid
      rcases row_of_write henc hconsistent hproper hwrite hrow with
        ⟨last', hlast', hc, hi, ho⟩ | ⟨hnot, -⟩
      · obtain rfl : last = last' := Option.some.inj (hlast.symm.trans hlast')
        exact ⟨hc.trans (hlastc.trans hcategory), hi.trans (hlasti.trans hidentity),
          ho.mpr hopen⟩
      · rw [hlast] at hnot
        cases hnot
  · cases hlast : Upsert.last (·.key) rows.2 key with
    | some last =>
        obtain ⟨hmem, hkey⟩ := Upsert.last_spec hlast
        have hnamed := (hproper last hmem).named
        rw [hkey] at hnamed
        exact absurd ((hnamed.unique henc (hconsistent.named key row hrow)).2) (hnone last hmem)
    | none =>
        obtain ⟨row', hrow', hsuperseded⟩ := (write_spec hwrite).others key row hlast hrow
        cases hsuperseded with
        | kept _ => exact hrow'
        | closed hcontinued _ =>
            obtain ⟨other, last, hother, -, hsame⟩ := hcontinued
            exact absurd hsame (hnone last (Upsert.last_spec hother).1)

/-- A third process observes the release: its version is the only open one. -/
theorem publish_settles_restarted : ∃ ledger after,
    Reachable Sample.encoding Sample.hex ledger
      ∧ write Sample.hex ledger 30
        (publish Sample.encoding (afterUpdates Sample.encoding []) (Sample.observing 3)).2
          = .ok after
      ∧ ∀ key, (∃ row, after key = some row ∧ row.category = .release
          ∧ row.identity = "orders/api" ∧ row.closedAt = none) ↔ key = Sample.keyAt 3 := by
  obtain ⟨ledger, hreachable, -⟩ := Sample.restarted
  obtain ⟨after, hwrite, hsettled, -⟩ :=
    publish_settles Sample.digest_injective hreachable [] (Sample.observing 3) 30
  have hheld : (publish Sample.encoding (afterUpdates Sample.encoding [])
      (Sample.observing 3)).1.keyOf (identityOf (Sample.deployed 3))
        = some (Sample.keyAt 3) := by
    rfl
  refine ⟨ledger, after, hreachable, hwrite, fun key => ?_⟩
  rw [eq_comm (a := key), ← Option.some.injEq, ← hheld]
  exact hsettled (Sample.deployed 3) (.inr rfl)
    ⟨⟨Sample.keyAt 3, Sample.deployed 3⟩, List.mem_singleton.mpr rfl, rfl⟩ key

end Ledger

end HealthMonitor.Server.Recorder
