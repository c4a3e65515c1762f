import HealthMonitor.Server.Recorder

/-!
# Versions

What the rows of a recorder add up to. Upserting the emitted rows by key gives a
ledger; an open row of the ledger is a version that has not been closed. Over a run of
accepted calls, in which the capture times of each identity increase and no `retain`
drops a version, the open rows are the active versions of the recorder, one for each
identity at most, and a row of the ledger only ever grows until it is closed.

A `retain` that drops a release emits no row, so the row of that version stays open.
-/

namespace HealthMonitor.Server

open Query History

namespace Recorder

/-! ## The ledger -/

/-- The rows of a ledger, by key. -/
abbrev Ledger (δ : Type) := δ → Option Record

def upsert {δ : Type} [DecidableEq δ] (ledger : Ledger δ) (row : QueryRecord δ) : Ledger δ :=
  fun key => if row.key = key then some row.record else ledger key

end Recorder

/-- The rows a reply hands to the journal. -/
def Reply.rows {δ : Type} : Reply δ → List (QueryRecord δ)
  | .captured (.ok rows) => rows
  | .captured (.error _) => []
  | .closed row => row.toList
  | .retained => []

namespace Recorder

variable {δ : Type}

/-- The ledger after a run: every emitted row upserted in turn. -/
def ledger [DecidableEq δ] (log : List (Call × Reply δ)) : Ledger δ :=
  (log.flatMap (·.2.rows)).foldl upsert fun _ => none

/-- Findings and releases are kept as versions. -/
def continuing (record : Record) : Prop :=
  record.category = .finding ∨ record.category = .release

instance (record : Record) : Decidable (continuing record) := by
  unfold continuing
  infer_instance

theorem continuing_iff {record : Record} :
    continuing record ↔ ¬(record.category = .check ∨ record.category = .diagnostic) := by
  unfold continuing
  cases record.category <;> simp

/-- The ledger has a row of the identity under the key that has not been closed. -/
def IsOpen (ledger : Ledger δ) (identity : String) (key : δ) : Prop :=
  ∃ record, ledger key = some record ∧ continuing record ∧ identityOf record = identity
    ∧ record.closedAt = none

/-- The versions of a recorder and the rows of a ledger agree. -/
structure WellFormed (r : Recorder δ) (ledger : Ledger δ) : Prop where
  open_iff : ∀ identity key, IsOpen ledger identity key
    ↔ ∃ version, r.active[identity]? = some version ∧ version.row.key = key
  unique : ∀ identity key key', IsOpen ledger identity key → IsOpen ledger identity key' →
    key = key'
  bytes : r.bytes = r.active.total (·.bytes)
  capped : r.bytes ≤ byteLimit ∧ r.active.size ≤ versionLimit

/-- The rows of versions after more calls: they start when they did, were observed no
earlier than before, and stay as they are once closed. -/
def Grows (before after : Ledger δ) : Prop :=
  ∀ key record, before key = some record → continuing record →
    ∃ record', after key = some record' ∧ continuing record'
      ∧ record'.observedAt = record.observedAt
      ∧ record.lastObservedAt ≤ record'.lastObservedAt
      ∧ (record.closedAt ≠ none → record' = record)

/-- The call is not a capture of the same identity at that time or later. -/
def Earlier (record : Record) (time : Time) : Call → Prop
  | .capture record' time' => identityOf record' = identityOf record → time' < time
  | _ => True

instance (record : Record) (time : Time) : (call : Call) → Decidable (Earlier record time call)
  | .capture record' time' =>
      inferInstanceAs (Decidable (identityOf record' = identityOf record → time' < time))
  | .close .. => isTrue trivial
  | .retain _ => isTrue trivial

/-- A capture is later than every earlier capture of its identity. -/
def InOrder (before : List Call) : Call → Prop
  | .capture record time => ∀ earlier ∈ before, Earlier record time earlier
  | _ => True

instance (before : List Call) : (call : Call) → Decidable (InOrder before call)
  | .capture record time =>
      inferInstanceAs (Decidable (∀ earlier ∈ before, Earlier record time earlier))
  | .close .. => isTrue trivial
  | .retain _ => isTrue trivial

/-- The call succeeds after the calls before it, and comes in order. -/
def Accepted [DecidableEq δ] (enc : History.Encoding δ) (before : List Call) (call : Call) :
    Prop :=
  ((((process enc).run empty before).1).call enc call).2.failed = false ∧ InOrder before call

instance [DecidableEq δ] (enc : History.Encoding δ) (before : List Call) (call : Call) :
    Decidable (Accepted enc before call) :=
  inferInstanceAs (Decidable (_ ∧ _))

/-- A captured record is open, and a `retain` drops no version. -/
def Tidy (r : Recorder δ) : Call → Prop
  | .capture record _ => record.closedAt = none
  | .close .. => True
  | .retain resources => ∀ entry ∈ r.active.toList, keeps resources entry.1 entry.2 = true

instance (r : Recorder δ) : (call : Call) → Decidable (Tidy r call)
  | .capture record _ => inferInstanceAs (Decidable (record.closedAt = none))
  | .close .. => isTrue trivial
  | .retain resources =>
      inferInstanceAs (Decidable (∀ entry ∈ r.active.toList,
        keeps resources entry.1 entry.2 = true))

/-! ## What an accepted capture does -/

/-- How a capture changes the version of its identity to `new`, and the rows it
emits. -/
inductive Change (enc : History.Encoding δ) (r : Recorder δ) (record : Record) (time : Time)
    (new : Version δ) : List (QueryRecord δ) → Prop
  | extended (old : Version δ) (hold : r.active[identityOf record]? = some old)
      (hkey : new.row.key = old.row.key)
      (hobserved : new.row.record.observedAt = old.row.record.observedAt)
      (hlast : old.row.record.lastObservedAt ≤ new.row.record.lastObservedAt) :
      Change enc r record time new
        (if new.row.record.lastObservedAt ≠ old.row.record.lastObservedAt
          ∨ new.row.record.validUntil ≠ old.row.record.validUntil then [new.row] else [])
  | replaced (old : Version δ) (hold : r.active[identityOf record]? = some old)
      (hrow : new.row
        = ⟨enc.digest (.version (identityOf record) (fingerprintOf enc record) time), record⟩) :
      Change enc r record time new [closedRow old.row time, new.row]
  | opened (hnone : r.active[identityOf record]? = none)
      (hcount : r.active.size < versionLimit)
      (hrow : new.row
        = ⟨enc.digest (.version (identityOf record) (fingerprintOf enc record) time), record⟩) :
      Change enc r record time new [new.row]

variable {enc : History.Encoding δ} {r : Recorder δ} {record : Record} {time : Time}

theorem insertVersion_ok {r : Recorder δ} {previousBytes : Nat}
    {output rows : List (QueryRecord δ)}
    (h : (insertVersion enc r record time previousBytes output).2 = .ok rows) :
    ∃ new : Version δ,
      (insertVersion enc r record time previousBytes output).1
          = ⟨r.active.insert (identityOf record) new,
              saturatingAdd (r.bytes - previousBytes) new.bytes⟩
        ∧ new.bytes = bytesOf enc record
        ∧ new.row
          = ⟨enc.digest (.version (identityOf record) (fingerprintOf enc record) time),
              record⟩
        ∧ rows = output ++ [new.row] := by
  unfold insertVersion at h ⊢
  dsimp only at h ⊢
  cases hnew : QueryRecord.new enc.size _ record with
  | error error =>
      rw [hnew] at h
      cases h
  | ok row =>
      rw [hnew] at h
      obtain ⟨_, rfl⟩ := QueryRecord.new_ok hnew
      cases h
      exact ⟨⟨_, _, _⟩, rfl, rfl, rfl, rfl⟩

theorem insert_insert {α : Type} (m : Table α) (k : String) (v w : α) :
    (m.insert k v).insert k w = m.insert k w := by
  refine Std.ExtTreeMap.ext_getElem? fun j => ?_
  rw [Std.ExtTreeMap.getElem?_insert, Std.ExtTreeMap.getElem?_insert,
    Std.ExtTreeMap.getElem?_insert]
  split
  · rfl
  · rfl

/-- An accepted capture of a finding or a release changes its version and no other. -/
theorem capture_ok [DecidableEq δ] {rows : List (QueryRecord δ)} (hcontinuing : continuing record)
    (h : (capture enc r record time).2 = .ok rows) :
    ∃ new : Version δ,
      (capture enc r record time).1
          = ⟨r.active.insert (identityOf record) new,
              saturatingAdd (r.bytes - r.active[identityOf record]?.elim 0 (·.bytes))
                new.bytes⟩
        ∧ saturatingAdd (r.bytes - r.active[identityOf record]?.elim 0 (·.bytes)) new.bytes
          ≤ byteLimit
        ∧ identityOf new.row.record = identityOf record
        ∧ continuing new.row.record
        ∧ new.row.record.closedAt = record.closedAt
        ∧ Change enc r record time new rows := by
  have hcategory := continuing_iff.mp hcontinuing
  cases hr : r.active[identityOf record]? with
  | none =>
      rw [capture_none hcategory hr] at h ⊢
      by_cases hfull : byteLimit < saturatingAdd r.bytes (bytesOf enc record)
          ∨ versionLimit ≤ r.active.size
      · rw [if_pos hfull] at h
        cases h
      rw [if_neg hfull] at h ⊢
      obtain ⟨new, hstate, hbytes, hrow, rfl⟩ := insertVersion_ok h
      rw [not_or, Nat.not_lt, Nat.not_le] at hfull
      refine ⟨new, hstate, ?_, by rw [hrow], by rw [hrow]; exact hcontinuing, by rw [hrow],
        .opened hr hfull.2 hrow⟩
      rw [hbytes]
      exact hfull.1
  | some old =>
      rw [capture_some hcategory hr] at h ⊢
      by_cases hfull : byteLimit < saturatingAdd (r.bytes - old.bytes) (bytesOf enc record)
      · rw [if_pos hfull] at h
        cases h
      rw [if_neg hfull] at h ⊢
      rw [Nat.not_lt] at hfull
      by_cases hsame : old.fingerprint = fingerprintOf enc record
      · rw [if_pos hsame] at h ⊢
        unfold extendVersion at h ⊢
        dsimp only at h ⊢
        cases hnew : QueryRecord.new enc.size old.row.key _ with
        | error error =>
            rw [hnew] at h
            cases h
        | ok row =>
            rw [hnew] at h
            obtain ⟨_, rfl⟩ := QueryRecord.new_ok hnew
            cases h
            refine ⟨⟨old.fingerprint, ⟨old.row.key, _⟩, bytesOf enc record⟩, rfl, hfull, rfl,
              hcontinuing, rfl, ?_⟩
            exact .extended old hr rfl rfl (Int.le_max_right _ _)
      · rw [if_neg hsame] at h ⊢
        obtain ⟨new, hstate, hbytes, hrow, rfl⟩ := insertVersion_ok h
        refine ⟨new, ?_, ?_, by rw [hrow], by rw [hrow]; exact hcontinuing, by rw [hrow],
          .replaced old hr hrow⟩
        · rw [hstate, insert_insert]
          rfl
        · rw [hbytes]
          exact hfull

/-! ## Active versions and the ledger -/

/-- The active versions are the open rows of the ledger, and every row of a version
carries the key of a capture of its identity. -/
structure Agree (enc : History.Encoding δ) (before : List Call) (active : Table (Version δ))
    (l : Ledger δ) : Prop where
  stored : ∀ (identity : String) (v : Version δ), active[identity]? = some v →
    continuing v.row.record ∧ identityOf v.row.record = identity
      ∧ ∃ record, l v.row.key = some record ∧ continuing record
        ∧ identityOf record = identity ∧ record.closedAt = none
        ∧ record.observedAt = v.row.record.observedAt
        ∧ record.lastObservedAt = v.row.record.lastObservedAt
  active_of_open : ∀ key record, l key = some record → continuing record →
    record.closedAt = none → ∃ v, active[identityOf record]? = some v ∧ v.row.key = key
  keyed : ∀ key record, l key = some record → continuing record →
    ∃ fingerprint time captured, key = enc.digest (.version (identityOf record) fingerprint time)
      ∧ .capture captured time ∈ before ∧ identityOf captured = identityOf record

theorem upsert_self [DecidableEq δ] (l : Ledger δ) (row : QueryRecord δ) :
    upsert l row row.key = some row.record :=
  if_pos rfl

theorem upsert_ne [DecidableEq δ] (l : Ledger δ) {row : QueryRecord δ} {key : δ}
    (h : row.key ≠ key) : upsert l row key = l key :=
  if_neg h

theorem Grows.refl (l : Ledger δ) : Grows l l :=
  fun _ record h hcontinuing =>
    ⟨record, h, hcontinuing, rfl, Int.le_refl _, fun _ => rfl⟩

theorem Grows.trans {l m n : Ledger δ} (h : Grows l m) (h' : Grows m n) : Grows l n := by
  intro key record hrow hcontinuing
  obtain ⟨record', hrow', hkept, hobserved, hlast, hclosed⟩ := h key record hrow hcontinuing
  obtain ⟨record'', hrow'', hkept', hobserved', hlast', hclosed'⟩ :=
    h' key record' hrow' hkept
  refine ⟨record'', hrow'', hkept', hobserved'.trans hobserved, Int.le_trans hlast hlast',
    ?_⟩
  intro hsome
  have hsame := hclosed hsome
  rw [hclosed' (hsame ▸ hsome), hsame]

namespace Agree

variable {before : List Call} {active : Table (Version δ)} {l : Ledger δ}

theorem unique (h : Agree enc before active l) {identity identity' : String}
    {v w : Version δ} (hv : active[identity]? = some v) (hw : active[identity']? = some w)
    (hkey : v.row.key = w.row.key) : identity = identity' := by
  obtain ⟨_, _, record, hrow, _, hid, _⟩ := h.stored identity v hv
  obtain ⟨_, _, record', hrow', _, hid', _⟩ := h.stored identity' w hw
  rw [hkey, hrow'] at hrow
  cases hrow
  exact hid.symm.trans hid'

/-- A version that changes in nothing the ledger would show. -/
theorem still (h : Agree enc before active l) {identity : String} {v w : Version δ}
    (hv : active[identity]? = some v) (hkey : w.row.key = v.row.key)
    (hcontinuing : continuing w.row.record) (hid : identityOf w.row.record = identity)
    (hobserved : w.row.record.observedAt = v.row.record.observedAt)
    (hlast : w.row.record.lastObservedAt = v.row.record.lastObservedAt) :
    Agree enc before (active.insert identity w) l := by
  refine ⟨fun identity' u hu => ?_, fun key record hrow hcontinuing' hopen => ?_, h.keyed⟩
  · by_cases heq : identity = identity'
    · subst heq
      rw [Std.ExtTreeMap.getElem?_insert_self] at hu
      cases hu
      obtain ⟨_, _, record, hrow, hkept, hi, hopen, hstart, hstop⟩ := h.stored identity v hv
      exact ⟨hcontinuing, hid, record, hkey ▸ hrow, hkept, hi, hopen,
        hstart.trans hobserved.symm, hstop.trans hlast.symm⟩
    · rw [Table.getElem?_insert_ne (Ne.symm heq)] at hu
      exact h.stored identity' u hu
  · obtain ⟨u, hu, hukey⟩ := h.active_of_open key record hrow hcontinuing' hopen
    by_cases heq : identity = identityOf record
    · rw [← heq, hv] at hu
      cases hu
      exact ⟨w, by rw [← heq, Std.ExtTreeMap.getElem?_insert_self], hkey.trans hukey⟩
    · exact ⟨u, by rw [Table.getElem?_insert_ne (Ne.symm heq), hu], hukey⟩

theorem mono (h : Agree enc before active l) (call : Call) :
    Agree enc (before ++ [call]) active l := by
  refine ⟨h.stored, h.active_of_open, fun key record hrow hcontinuing => ?_⟩
  obtain ⟨fingerprint, time, captured, hdigest, hmem, hcaptured⟩ :=
    h.keyed key record hrow hcontinuing
  exact ⟨fingerprint, time, captured, hdigest, List.mem_append_left _ hmem, hcaptured⟩

variable [DecidableEq δ]

/-- A row that starts where the stored one does and was observed no earlier takes the
place of an open row. -/
theorem grows (h : Agree enc before active l) {identity : String} {v : Version δ}
    (hv : active[identity]? = some v) {row : QueryRecord δ} (hkey : row.key = v.row.key)
    (hcontinuing : continuing row.record)
    (hobserved : row.record.observedAt = v.row.record.observedAt)
    (hlast : v.row.record.lastObservedAt ≤ row.record.lastObservedAt) :
    Grows l (upsert l row) := by
  obtain ⟨_, _, stored, hstored, _, _, hopen, hstart, hstop⟩ := h.stored identity v hv
  intro key record hrow hkept
  by_cases heq : row.key = key
  · subst heq
    rw [hkey, hstored] at hrow
    cases hrow
    refine ⟨row.record, upsert_self l row, hcontinuing, hobserved.trans hstart.symm, ?_, ?_⟩
    · rw [hstop]
      exact hlast
    · intro hclosed
      exact absurd hopen hclosed
  · exact ⟨record, (upsert_ne l heq).trans hrow, hkept, rfl, Int.le_refl _, fun _ => rfl⟩

/-- Closing the row of a version that is no longer active. -/
theorem shut (h : Agree enc before active l) {identity : String} {v : Version δ}
    (hv : active[identity]? = some v) {row : QueryRecord δ} (hkey : row.key = v.row.key)
    (hclosed : row.record.closedAt ≠ none)
    (hid : identityOf row.record = identityOf v.row.record) :
    Agree enc before (active.erase identity) (upsert l row) := by
  obtain ⟨_, hidentity, stored, hstored, hkept, hstoredId, _⟩ := h.stored identity v hv
  refine ⟨fun identity' w hw => ?_, fun key record hrow hcontinuing hopen => ?_,
    fun key record hrow hcontinuing => ?_⟩
  · have hne : identity ≠ identity' := by
      intro heq
      rw [heq, Std.ExtTreeMap.getElem?_erase_self] at hw
      cases hw
    rw [Table.getElem?_erase_ne hne.symm] at hw
    obtain ⟨hc, hi, record, hrow, hrest⟩ := h.stored identity' w hw
    refine ⟨hc, hi, record, ?_, hrest⟩
    rw [upsert_ne l fun heq => hne (h.unique hv hw (hkey ▸ heq)), hrow]
  · by_cases heq : row.key = key
    · subst heq
      rw [upsert_self] at hrow
      cases hrow
      exact absurd hopen hclosed
    · rw [upsert_ne l heq] at hrow
      obtain ⟨w, hw, hwkey⟩ := h.active_of_open key record hrow hcontinuing hopen
      refine ⟨w, ?_, hwkey⟩
      rw [Table.getElem?_erase_ne, hw]
      intro hsame
      rw [hsame, hv] at hw
      cases hw
      exact heq (hkey.trans hwkey)
  · by_cases heq : row.key = key
    · subst heq
      rw [upsert_self] at hrow
      cases hrow
      obtain ⟨fingerprint, time, captured, hdigest, hmem, hcaptured⟩ :=
        h.keyed _ stored hstored hkept
      rw [hstoredId] at hdigest hcaptured
      exact ⟨fingerprint, time, captured, by rw [hkey, hid, hidentity]; exact hdigest, hmem,
        by rw [hid, hidentity]; exact hcaptured⟩
    · exact h.keyed key record ((upsert_ne l heq).symm.trans hrow) hcontinuing

/-- A version of an identity that has none, under a key that is not in the ledger. -/
theorem start (h : Agree enc before active l) {identity : String}
    (hnone : active[identity]? = none) {v : Version δ} {call : Call}
    (hcontinuing : continuing v.row.record) (hid : identityOf v.row.record = identity)
    (hopen : v.row.record.closedAt = none)
    (hfresh : ∀ record, l v.row.key = some record → ¬continuing record)
    (hkeyed : ∃ fingerprint time captured,
      v.row.key = enc.digest (.version identity fingerprint time)
        ∧ .capture captured time ∈ before ++ [call] ∧ identityOf captured = identity) :
    Agree enc (before ++ [call]) (active.insert identity v) (upsert l v.row)
      ∧ Grows l (upsert l v.row) := by
  refine ⟨⟨fun identity' w hw => ?_, fun key record hrow hcontinuing' hopen' => ?_,
    fun key record hrow hcontinuing' => ?_⟩, fun key record hrow hcontinuing' => ?_⟩
  · by_cases heq : identity = identity'
    · subst heq
      rw [Std.ExtTreeMap.getElem?_insert_self] at hw
      cases hw
      exact ⟨hcontinuing, hid, v.row.record, upsert_self l v.row, hcontinuing, hid, hopen, rfl,
        rfl⟩
    · rw [Table.getElem?_insert_ne (Ne.symm heq)] at hw
      obtain ⟨hc, hi, record, hrow, hkept, hrest⟩ := h.stored identity' w hw
      refine ⟨hc, hi, record, ?_, hkept, hrest⟩
      rw [upsert_ne l fun hkey => hfresh record (hkey ▸ hrow) hkept, hrow]
  · by_cases heq : v.row.key = key
    · subst heq
      rw [upsert_self] at hrow
      cases hrow
      exact ⟨v, by rw [hid, Std.ExtTreeMap.getElem?_insert_self], rfl⟩
    · rw [upsert_ne l heq] at hrow
      obtain ⟨w, hw, hwkey⟩ := h.active_of_open key record hrow hcontinuing' hopen'
      refine ⟨w, ?_, hwkey⟩
      rw [Table.getElem?_insert_ne, hw]
      intro hsame
      rw [hsame, hnone] at hw
      cases hw
  · by_cases heq : v.row.key = key
    · subst heq
      rw [upsert_self] at hrow
      cases hrow
      rw [hid]
      exact hkeyed
    · rw [upsert_ne l heq] at hrow
      obtain ⟨fingerprint, time, captured, hdigest, hmem, hcaptured⟩ :=
        h.keyed key record hrow hcontinuing'
      exact ⟨fingerprint, time, captured, hdigest, List.mem_append_left _ hmem, hcaptured⟩
  · have hne : v.row.key ≠ key := by
      intro heq
      exact hfresh record (heq ▸ hrow) hcontinuing'
    exact ⟨record, (upsert_ne l hne).trans hrow, hcontinuing', rfl, Int.le_refl _,
      fun _ => rfl⟩

/-- Another row for the version of an identity, under the same key. -/
theorem extend (h : Agree enc before active l) {identity : String} {v w : Version δ}
    (hv : active[identity]? = some v) (hkey : w.row.key = v.row.key)
    (hcontinuing : continuing w.row.record) (hid : identityOf w.row.record = identity)
    (hopen : w.row.record.closedAt = none) :
    Agree enc before (active.insert identity w) (upsert l w.row) := by
  obtain ⟨_, _, stored, hstored, hkept, hstoredId, _⟩ := h.stored identity v hv
  refine ⟨fun identity' u hu => ?_, fun key record hrow hcontinuing' hopen' => ?_,
    fun key record hrow hcontinuing' => ?_⟩
  · by_cases heq : identity = identity'
    · subst heq
      rw [Std.ExtTreeMap.getElem?_insert_self] at hu
      cases hu
      exact ⟨hcontinuing, hid, w.row.record, upsert_self l w.row, hcontinuing, hid, hopen, rfl,
        rfl⟩
    · rw [Table.getElem?_insert_ne (Ne.symm heq)] at hu
      obtain ⟨hc, hi, record, hrow, hrest⟩ := h.stored identity' u hu
      refine ⟨hc, hi, record, ?_, hrest⟩
      rw [upsert_ne l fun hsame => heq (h.unique hv hu (hkey ▸ hsame)), hrow]
  · by_cases heq : w.row.key = key
    · subst heq
      rw [upsert_self] at hrow
      cases hrow
      exact ⟨w, by rw [hid, Std.ExtTreeMap.getElem?_insert_self], rfl⟩
    · rw [upsert_ne l heq] at hrow
      obtain ⟨u, hu, hukey⟩ := h.active_of_open key record hrow hcontinuing' hopen'
      refine ⟨u, ?_, hukey⟩
      rw [Table.getElem?_insert_ne, hu]
      intro hsame
      rw [hsame, hv] at hu
      cases hu
      exact heq (hkey.trans hukey)
  · by_cases heq : w.row.key = key
    · subst heq
      rw [upsert_self] at hrow
      cases hrow
      obtain ⟨fingerprint, time, captured, hdigest, hmem, hcaptured⟩ :=
        h.keyed _ stored hstored hkept
      rw [hstoredId] at hdigest hcaptured
      exact ⟨fingerprint, time, captured, by rw [hkey, hid]; exact hdigest, hmem,
        by rw [hid]; exact hcaptured⟩
    · exact h.keyed key record ((upsert_ne l heq).symm.trans hrow) hcontinuing'

/-- Rows of observations have keys of their own. -/
theorem observe (henc : Function.Injective enc.digest) (h : Agree enc before active l)
    {row : QueryRecord δ} {record : Record} (hkey : row.key = observationKey enc record)
    (hrow : ¬continuing row.record) :
    Agree enc before active (upsert l row) ∧ Grows l (upsert l row) := by
  -- The key of a version is the digest of another kind of value.
  have hne : ∀ key record', l key = some record' → continuing record' → row.key ≠ key := by
    intro key record' hstored hcontinuing heq
    obtain ⟨fingerprint, time, captured, hdigest, _⟩ := h.keyed key record' hstored hcontinuing
    rw [← heq, hkey] at hdigest
    cases henc hdigest
  have hback : ∀ key record', upsert l row key = some record' → continuing record' →
      l key = some record' := by
    intro key record' hstored hcontinuing
    by_cases heq : row.key = key
    · subst heq
      rw [upsert_self] at hstored
      cases hstored
      exact absurd hcontinuing hrow
    · exact (upsert_ne l heq).symm.trans hstored
  refine ⟨⟨fun identity v hv => ?_, fun key record' hstored hcontinuing hopen => ?_,
    fun key record' hstored hcontinuing => ?_⟩, fun key record' hstored hcontinuing => ?_⟩
  · obtain ⟨hc, hi, record', hstored, hkept, hrest⟩ := h.stored identity v hv
    exact ⟨hc, hi, record', (upsert_ne l (hne _ _ hstored hkept)).trans hstored, hkept, hrest⟩
  · exact h.active_of_open key record' (hback _ _ hstored hcontinuing) hcontinuing hopen
  · exact h.keyed key record' (hback _ _ hstored hcontinuing) hcontinuing
  · exact ⟨record', (upsert_ne l (hne _ _ hstored hcontinuing)).trans hstored, hcontinuing,
      rfl, Int.le_refl _, fun _ => rfl⟩

end Agree

/-! ## Bytes -/

/-- The bytes of a recorder are those of its versions, within the bounds. -/
structure Counted (r : Recorder δ) : Prop where
  bytes : r.bytes = r.active.total (·.bytes)
  capped : r.bytes ≤ byteLimit
  size : r.active.size ≤ versionLimit

theorem Counted.empty : Counted (empty : Recorder δ) :=
  ⟨rfl, Nat.zero_le _, Nat.zero_le _⟩

/-- The bytes of the other versions. -/
theorem Counted.others (h : Counted r) (identity : String) :
    r.bytes - r.active[identity]?.elim 0 (·.bytes)
      = Table.total (r.active.erase identity) (·.bytes) := by
  rw [h.bytes]
  cases hr : r.active[identity]? with
  | none => rw [Table.erase_of_none hr, Option.elim, Nat.sub_zero]
  | some old =>
      have htotal := Table.total_erase_of_some hr (·.bytes)
      rw [Option.elim]
      omega

theorem Counted.insert (h : Counted r) {identity : String} {new : Version δ}
    (hfits : saturatingAdd (r.bytes - r.active[identity]?.elim 0 (·.bytes)) new.bytes
      ≤ byteLimit)
    (hsize : (r.active.insert identity new).size ≤ versionLimit) :
    Counted ⟨r.active.insert identity new,
      saturatingAdd (r.bytes - r.active[identity]?.elim 0 (·.bytes)) new.bytes⟩ := by
  refine ⟨?_, hfits, hsize⟩
  rw [h.others] at hfits ⊢
  show saturatingAdd _ _ = Table.total (r.active.insert identity new) (·.bytes)
  rw [Table.total_insert]
  -- Within the bound nothing saturates.
  have hlimit : byteLimit < u64Max := by decide
  unfold saturatingAdd at hfits ⊢
  omega

theorem Counted.erase (h : Counted r) {identity : String} {old : Version δ}
    (hr : r.active[identity]? = some old) :
    Counted ⟨r.active.erase identity, r.bytes - old.bytes⟩ := by
  have hothers := h.others identity
  rw [hr, Option.elim] at hothers
  exact ⟨hothers, (Nat.sub_le _ _).trans h.capped,
    (Table.size_erase_le _ _).trans h.size⟩

/-- A `retain` that drops nothing changes nothing. -/
theorem retain_of_tidy (h : Counted r) {resources : List String}
    (htidy : Tidy r (.retain resources)) : retain r resources = r := by
  have hactive : Table.retain r.active (keeps resources) = r.active :=
    Table.retain_eq_self fun k v hv => htidy (k, v) (Table.mem_toList.mpr hv)
  show (⟨_, _⟩ : Recorder δ) = r
  rw [hactive, ← h.bytes]

/-! ## Steps -/

/-- No version has the key of a capture that is later than every other one. -/
theorem Agree.fresh (henc : Function.Injective enc.digest) {before : List Call}
    {active : Table (Version δ)} {l : Ledger δ} (h : Agree enc before active l)
    (hlater : InOrder before (.capture record time)) {fingerprint : δ} :
    ∀ stored, l (enc.digest (.version (identityOf record) fingerprint time)) = some stored →
      ¬continuing stored := by
  intro stored hstored hcontinuing
  obtain ⟨fingerprint', time', captured, hdigest, hmem, hcaptured⟩ :=
    h.keyed _ stored hstored hcontinuing
  obtain ⟨hid, _, rfl⟩ := Digested.version.inj (henc hdigest)
  exact Int.lt_irrefl _ (hlater _ hmem (hcaptured.trans hid.symm))

/-- What one call keeps. -/
structure Keeps (enc : History.Encoding δ) (before : List Call) (r : Recorder δ) (l m : Ledger δ) :
    Prop where
  agree : Agree enc before r.active m
  counted : Counted r
  grows : Grows l m

theorem closedRow_settles (row : QueryRecord δ) (time : Time) :
    (closedRow row time).key = row.key ∧ (closedRow row time).record.closedAt ≠ none
      ∧ identityOf (closedRow row time).record = identityOf row.record
      ∧ (closedRow row time).record.observedAt = row.record.observedAt
      ∧ (closedRow row time).record.lastObservedAt = row.record.lastObservedAt :=
  ⟨rfl, Option.some_ne_none _, rfl, rfl, rfl⟩

theorem settledRow_settles (row : QueryRecord δ) (time : Time) (removed : Bool) :
    (settledRow row time removed).key = row.key
      ∧ (settledRow row time removed).record.closedAt ≠ none
      ∧ (settledRow row time removed).record.category = row.record.category
      ∧ (settledRow row time removed).record.identity = row.record.identity
      ∧ (settledRow row time removed).record.observedAt = row.record.observedAt
      ∧ (settledRow row time removed).record.lastObservedAt = row.record.lastObservedAt := by
  obtain ⟨key, record⟩ := row
  obtain ⟨id, identity, scope, location, check, resource, observedAt, lastObservedAt,
    validUntil, closedAt, stale, details⟩ := record
  cases details with
  | finding finding => exact ⟨rfl, Option.some_ne_none _, rfl, rfl, rfl, rfl⟩
  | diagnostic diagnostic => exact ⟨rfl, Option.some_ne_none _, rfl, rfl, rfl, rfl⟩
  | check check => exact ⟨rfl, Option.some_ne_none _, rfl, rfl, rfl, rfl⟩
  | release release => exact ⟨rfl, Option.some_ne_none _, rfl, rfl, rfl, rfl⟩

variable [DecidableEq δ]

theorem capture_step (henc : Function.Injective enc.digest) {before : List Call}
    {l : Ledger δ} (h : Agree enc before r.active l) (hcounted : Counted r)
    {rows : List (QueryRecord δ)} (hok : (capture enc r record time).2 = .ok rows)
    (hopen : record.closedAt = none) (hlater : InOrder before (.capture record time)) :
    Keeps enc (before ++ [.capture record time]) (capture enc r record time).1 l
      (rows.foldl upsert l) := by
  by_cases hcontinuing : continuing record
  · obtain ⟨new, hstate, hfits, hid, hnew, hclosed, hchange⟩ := capture_ok hcontinuing hok
    rw [hstate]
    rw [hopen] at hclosed
    have hmem : Call.capture record time ∈ before ++ [.capture record time] := by simp
    cases hchange with
    | extended old hold hkey hobserved hlast =>
        have hsize : (r.active.insert (identityOf record) new).size ≤ versionLimit := by
          rw [Table.size_insert_of_mem (Table.mem_iff_getElem?.mpr ⟨old, hold⟩)]
          exact hcounted.size
        split
        · exact ⟨(h.extend hold hkey hnew hid hclosed).mono _, hcounted.insert hfits hsize,
            h.grows hold hkey hnew hobserved hlast⟩
        · next hsame =>
            rw [not_or, not_not, not_not] at hsame
            exact ⟨(h.still hold hkey hnew hid hobserved hsame.1).mono _,
              hcounted.insert hfits hsize, .refl l⟩
    | replaced old hold hrow =>
        have hsize : (r.active.insert (identityOf record) new).size ≤ versionLimit := by
          rw [Table.size_insert_of_mem (Table.mem_iff_getElem?.mpr ⟨old, hold⟩)]
          exact hcounted.size
        obtain ⟨hkey, hshut, hsame, hobserved, hlast⟩ := closedRow_settles old.row time
        have hkept : continuing (closedRow old.row time).record := (h.stored _ old hold).1
        -- The old version is closed first; the new one then starts without a predecessor.
        have hclosedL := h.shut hold hkey hshut hsame
        obtain ⟨hagree, hgrows⟩ := hclosedL.start (v := new)
          Std.ExtTreeMap.getElem?_erase_self hnew hid hclosed
          (by rw [hrow]; exact hclosedL.fresh henc hlater)
          ⟨_, time, record, by rw [hrow], hmem, rfl⟩
        have herase : (r.active.erase (identityOf record)).insert (identityOf record) new
            = r.active.insert (identityOf record) new := by
          refine Std.ExtTreeMap.ext_getElem? fun j => ?_
          rw [Std.ExtTreeMap.getElem?_insert, Std.ExtTreeMap.getElem?_insert,
            Std.ExtTreeMap.getElem?_erase]
          split <;> rfl
        rw [herase] at hagree
        exact ⟨hagree, hcounted.insert hfits hsize,
          (h.grows hold hkey hkept hobserved (Int.le_of_eq hlast.symm)).trans hgrows⟩
    | opened hnone hcount hrow =>
        have hsize : (r.active.insert (identityOf record) new).size ≤ versionLimit :=
          (Table.size_insert_le _ _ _).trans hcount
        obtain ⟨hagree, hgrows⟩ := h.start (v := new) hnone hnew
          hid hclosed (by rw [hrow]; exact h.fresh henc hlater)
          ⟨_, time, record, by rw [hrow], hmem, rfl⟩
        exact ⟨hagree, hcounted.insert hfits hsize, hgrows⟩
  · have hcategory : record.category = .check ∨ record.category = .diagnostic := by
      rw [continuing_iff, not_not] at hcontinuing
      exact hcontinuing
    rw [capture_observation hcategory] at hok ⊢
    cases hrow : QueryRecord.new enc.size (observationKey enc record) record with
    | error error =>
        rw [hrow] at hok
        cases hok
    | ok row =>
        rw [hrow] at hok
        cases hok
        obtain ⟨_, rfl⟩ := QueryRecord.new_ok hrow
        have hkey : (⟨observationKey enc record, record⟩ : QueryRecord δ).key
            = observationKey enc record := rfl
        obtain ⟨hagree, hgrows⟩ := h.observe henc hkey hcontinuing
        exact ⟨hagree.mono _, hcounted, hgrows⟩

theorem close_step {before : List Call} {l : Ledger δ} (h : Agree enc before r.active l)
    (hcounted : Counted r) (finding : String) (time : Time) (removed : Bool) :
    Keeps enc (before ++ [.close finding time removed]) (close r finding time removed).1 l
      ((close r finding time removed).2.toList.foldl upsert l) := by
  unfold close
  cases hr : r.active["Finding/" ++ finding]? with
  | none => exact ⟨h.mono _, hcounted, .refl l⟩
  | some old =>
      obtain ⟨hkey, hshut, hcategory, hidentity, hobserved, hlast⟩ :=
        settledRow_settles old.row time removed
      have hkept : continuing (settledRow old.row time removed).record := by
        rw [continuing, hcategory]
        exact (h.stored _ old hr).1
      have hsame : identityOf (settledRow old.row time removed).record
          = identityOf old.row.record := by
        rw [identityOf, hcategory, hidentity, identityOf]
      exact ⟨(h.shut hr hkey hshut hsame).mono _, hcounted.erase hr,
        h.grows hr hkey hkept hobserved (Int.le_of_eq hlast.symm)⟩

theorem call_step (henc : Function.Injective enc.digest) {before : List Call}
    {l : Ledger δ} (h : Agree enc before r.active l) (hcounted : Counted r) {call : Call}
    (hok : (r.call enc call).2.failed = false) (horder : InOrder before call)
    (htidy : Tidy r call) :
    Keeps enc (before ++ [call]) (r.call enc call).1 l
      ((r.call enc call).2.rows.foldl upsert l) := by
  cases call with
  | capture record time =>
      cases hreply : (capture enc r record time).2 with
      | error error =>
          rw [show (r.call enc (.capture record time)).2 = .captured (.error error) from
            congrArg Reply.captured hreply] at hok
          cases hok
      | ok rows =>
          rw [show (r.call enc (.capture record time)).2 = .captured (.ok rows) from
            congrArg Reply.captured hreply]
          exact capture_step henc h hcounted hreply htidy horder
  | close finding time removed => exact close_step h hcounted finding time removed
  | retain resources =>
      show Keeps enc _ (retain r resources) l l
      rw [retain_of_tidy hcounted htidy]
      exact ⟨h.mono _, hcounted, .refl l⟩

/-! ## Runs -/

theorem run_snoc (calls : List Call) (call : Call) :
    ((process enc).run empty (calls ++ [call])).1
        = (((process enc).run empty calls).1.call enc call).1
      ∧ ledger ((process enc).run empty (calls ++ [call])).2
        = (((process enc).run empty calls).1.call enc call).2.rows.foldl upsert
            (ledger ((process enc).run empty calls).2) := by
  rw [Process.run_append, Process.run_singleton]
  refine ⟨rfl, ?_⟩
  rw [ledger, List.flatMap_append, List.foldl_append]
  simp [process, ledger]

/-- The run lemma: what every call keeps, a run of accepted and tidy calls keeps. -/
theorem run_keeps (henc : Function.Injective enc.digest) (calls : List Call)
    (haccepted : ∀ before call after, calls = before ++ call :: after →
      Accepted enc before call)
    (htidy : ∀ before call after, calls = before ++ call :: after →
      Tidy ((process enc).run empty before).1 call) :
    Agree enc calls ((process enc).run empty calls).1.active
        (ledger ((process enc).run empty calls).2)
      ∧ Counted ((process enc).run empty calls).1
      ∧ ∀ before after, calls = before ++ after →
        Grows (ledger ((process enc).run empty before).2)
          (ledger ((process enc).run empty calls).2) := by
  induction calls using List.reverseRecOn with
  | nil =>
      refine ⟨⟨fun identity v hv => ?_, fun key record hrow => ?_, fun key record hrow => ?_⟩,
        .empty, fun before after hsplit => ?_⟩
      · rw [Process.run_nil] at hv
        simp [empty] at hv
      · cases hrow
      · cases hrow
      · rw [List.nil_eq_append_iff] at hsplit
        rw [hsplit.1]
        exact .refl _
  | append_singleton calls call ih =>
      obtain ⟨hagree, hcounted, hgrows⟩ := ih
        (fun before b after hsplit => haccepted before b (after ++ [call]) (by
          rw [hsplit, List.append_assoc, List.cons_append]))
        (fun before b after hsplit => htidy before b (after ++ [call]) (by
          rw [hsplit, List.append_assoc, List.cons_append]))
      obtain ⟨hok, horder⟩ := haccepted calls call [] rfl
      have hstep := call_step henc hagree hcounted hok horder (htidy calls call [] rfl)
      obtain ⟨hstate, hledger⟩ := @run_snoc _ enc _ calls call
      rw [hstate, hledger]
      refine ⟨hstep.agree, hstep.counted, fun before after hsplit => ?_⟩
      rcases List.eq_nil_or_concat after with rfl | ⟨after, last, rfl⟩
      · rw [List.append_nil] at hsplit
        rw [← hsplit, hledger]
        exact .refl _
      · rw [List.concat_eq_append, ← List.append_assoc] at hsplit
        exact (hgrows before after (List.append_inj_left' hsplit rfl)).trans hstep.grows

/-- In a run of accepted calls in which captured records are open and no `retain` drops a
version, the open rows are the active versions, at most one for each identity, the bytes
are accounted for, and rows of versions only grow until they are closed. -/
theorem versions_well_formed (henc : Function.Injective enc.digest) (calls : List Call)
    (haccepted : ∀ before call after, calls = before ++ call :: after →
      Accepted enc before call)
    (htidy : ∀ before call after, calls = before ++ call :: after →
      Tidy ((process enc).run empty before).1 call) :
    WellFormed ((process enc).run empty calls).1 (ledger ((process enc).run empty calls).2)
      ∧ ∀ before after, calls = before ++ after →
        Grows (ledger ((process enc).run empty before).2)
          (ledger ((process enc).run empty calls).2) := by
  obtain ⟨hagree, hcounted, hgrows⟩ := run_keeps henc calls haccepted htidy
  have hopen : ∀ identity key, IsOpen (ledger ((process enc).run empty calls).2) identity key
      ↔ ∃ version, ((process enc).run empty calls).1.active[identity]? = some version
        ∧ version.row.key = key := by
    intro identity key
    constructor
    · rintro ⟨record, hrow, hcontinuing, rfl, hclosed⟩
      exact hagree.active_of_open key record hrow hcontinuing hclosed
    · rintro ⟨version, hversion, rfl⟩
      obtain ⟨_, _, record, hrow, hcontinuing, hid, hclosed, _⟩ :=
        hagree.stored identity version hversion
      exact ⟨record, hrow, hcontinuing, hid, hclosed⟩
  refine ⟨⟨hopen, ?_, hcounted.bytes, hcounted.capped, hcounted.size⟩, hgrows⟩
  intro identity key key' hkey hkey'
  obtain ⟨version, hversion, rfl⟩ := (hopen identity key).mp hkey
  obtain ⟨version', hversion', rfl⟩ := (hopen identity key').mp hkey'
  rw [hversion] at hversion'
  cases hversion'
  rfl

/-! ## A release that is removed -/

namespace Sample

/-- Digests as terms: two are equal when the values are. -/
inductive Symbol where
  | observation (category : Category) (identity : String) (observedAt : Time)
      (details : Details)
  | content (scope : Scope) (location : Location) (check : Option Check)
      (resource : Option String) (stale : Bool) (details : Details)
  | version (identity : String) (fingerprint : Symbol) (time : Time)
  deriving DecidableEq

def encoding : History.Encoding Symbol where
  digest
    | .observation category identity observedAt details =>
        .observation category identity observedAt details
    | .content scope location check resource stale details =>
        .content scope location check resource stale details
    | .version identity fingerprint time => .version identity fingerprint time
  size _ := 512

theorem digest_injective : Function.Injective encoding.digest := by
  intro a b h
  cases a <;> cases b <;> cases h <;> rfl

def deployed (last : Time) : Record where
  id := "release"
  identity := "orders/api"
  scope := { target := "orders", provider := .kubernetes, scope := "cluster" }
  location := {}
  check := some .releases
  resource := some "orders/api"
  observedAt := 1
  lastObservedAt := last
  validUntil := none
  closedAt := none
  stale := false
  details := .release
    { revision := some "v1", observedDigests := [], desiredDigest := none, pending := false,
      verified := true, facts := [], links := [] }

/-- The release is observed twice, and its resource is still there. -/
def kept : List Call :=
  [.capture (deployed 1) 1, .retain ["orders/api"], .capture (deployed 2) 2]

/-- The resource disappears between the observations. -/
def dropped : List Call :=
  [.capture (deployed 1) 1, .retain [], .capture (deployed 2) 2]

def keyAt (time : Time) : Symbol :=
  encoding.digest (.version "Release/orders/api" (fingerprintOf encoding (deployed 1)) time)

end Sample

theorem versions_well_formed_kept :
    WellFormed ((process Sample.encoding).run empty Sample.kept).1
        (ledger ((process Sample.encoding).run empty Sample.kept).2)
      ∧ ∀ before after, Sample.kept = before ++ after →
        Grows (ledger ((process Sample.encoding).run empty before).2)
          (ledger ((process Sample.encoding).run empty Sample.kept).2) :=
  versions_well_formed Sample.digest_injective Sample.kept
    (Process.forall_splits_iff.mpr (by decide +kernel))
    (Process.forall_splits_iff.mpr (by decide +kernel))

/-- A `retain` that drops a release leaves its row open: the identity has two open rows
once it is observed again. -/
theorem dropped_stays_open :
    ¬ ∀ calls : List Call,
      (∀ before call after, calls = before ++ call :: after →
        Accepted Sample.encoding before call) →
      WellFormed ((process Sample.encoding).run empty calls).1
        (ledger ((process Sample.encoding).run empty calls).2) := by
  intro h
  have hwell := h Sample.dropped (Process.forall_splits_iff.mpr (by decide +kernel))
  have hrows : ledger ((process Sample.encoding).run empty Sample.dropped).2 (Sample.keyAt 1)
        = some (Sample.deployed 1)
      ∧ ledger ((process Sample.encoding).run empty Sample.dropped).2 (Sample.keyAt 2)
        = some (Sample.deployed 2)
      ∧ Sample.keyAt 1 ≠ Sample.keyAt 2
      ∧ identityOf (Sample.deployed 1) = "Release/orders/api"
      ∧ identityOf (Sample.deployed 2) = "Release/orders/api" := by
    decide +kernel
  obtain ⟨hfirst, hsecond, hne, hid, hid'⟩ := hrows
  exact hne (hwell.unique "Release/orders/api" _ _
    ⟨_, hfirst, .inr rfl, hid, rfl⟩ ⟨_, hsecond, .inr rfl, hid', rfl⟩)

end Recorder

end HealthMonitor.Server
