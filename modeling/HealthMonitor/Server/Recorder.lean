import HealthMonitor.History.Records
import HealthMonitor.Library.Process
import HealthMonitor.Library.Table

/-!
# Recorder

Unchanged findings and releases are compacted into temporal intervals: the recorder
holds the version that is open for each identity, extends it while its content stays
the same, and closes it when the content changes, on recovery, or on removal. Checks
and diagnostic windows pass through it.

A capture closes the old version before the new row is checked, so one that fails can
leave a closing time behind in the version it did not replace. Two recorders are alike
when they differ in such times only: every call replies the same on both and leaves
them alike, and so a failed capture is as good as none.
-/

namespace HealthMonitor.Server

open Query History

/-- The row of a version with its closing time set. -/
def closedRow {δ : Type} (row : QueryRecord δ) (time : Time) : QueryRecord δ :=
  { row with record := { row.record with closedAt := some time } }

/-- The open version of an identity. -/
structure Version (δ : Type) where
  fingerprint : δ
  row : QueryRecord δ
  bytes : Nat

/-- A version with its closing time set. -/
def Version.close {δ : Type} (version : Version δ) (time : Time) : Version δ :=
  { version with row := closedRow version.row time }

structure Recorder (δ : Type) where
  active : Table (Version δ)
  bytes : Nat

namespace Recorder

variable {δ : Type} [DecidableEq δ]

/-- `Recorder::default()`. -/
def empty : Recorder δ where
  active := ∅
  bytes := 0

/-- The most bytes the active versions may take. -/
def byteLimit : Nat := 16 * 1024 * 1024

/-- The most active versions. -/
def versionLimit : Nat := 20000

/-- `{:?}` of a category. -/
def categoryName : Category → String
  | .finding => "Finding"
  | .diagnostic => "Diagnostic"
  | .check => "Check"
  | .release => "Release"

def identityOf (record : Record) : String :=
  categoryName record.category ++ "/" ++ record.identity

def observationKey (enc : History.Encoding δ) (record : Record) : δ :=
  enc.digest (.observation record.category record.identity record.observedAt record.details)

def fingerprintOf (enc : History.Encoding δ) (record : Record) : δ :=
  enc.digest (.content record.scope record.location record.check record.resource
    record.stale record.details)

def bytesOf (enc : History.Encoding δ) (record : Record) : Nat :=
  saturatingAdd (saturatingMul (enc.size record) 2) 1024

/-- The end of `capture`: a new version of the identity. -/
def insertVersion (enc : History.Encoding δ) (r : Recorder δ) (record : Record) (time : Time)
    (previousBytes : Nat) (output : List (QueryRecord δ)) :
    Recorder δ × Except History.Error (List (QueryRecord δ)) :=
  let identity := identityOf record
  let fingerprint := fingerprintOf enc record
  let bytes := bytesOf enc record
  match QueryRecord.new enc.size (enc.digest (.version identity fingerprint time)) record with
  | .error error => (r, .error error)
  | .ok row =>
      ({ active := r.active.insert identity { fingerprint, row, bytes }
         bytes := saturatingAdd (r.bytes - previousBytes) bytes },
        .ok (output ++ [row]))

/-- The branch of `capture` for a version whose content has not changed. -/
def extendVersion (enc : History.Encoding δ) (r : Recorder δ) (old : Version δ) (record : Record) :
    Recorder δ × Except History.Error (List (QueryRecord δ)) :=
  let extended :=
    { record with
      observedAt := old.row.record.observedAt
      lastObservedAt := max record.lastObservedAt old.row.record.lastObservedAt }
  match QueryRecord.new enc.size old.row.key extended with
  | .error error => (r, .error error)
  | .ok row =>
      ({ active := r.active.insert (identityOf record)
          { old with row := row, bytes := bytesOf enc record }
         bytes := saturatingAdd (r.bytes - old.bytes) (bytesOf enc record) },
        .ok (if row.record.lastObservedAt ≠ old.row.record.lastObservedAt
              ∨ row.record.validUntil ≠ old.row.record.validUntil then [row] else []))

/-- `Recorder::capture`. The state is returned also on an error: what was written to
it before the error stays. -/
def capture (enc : History.Encoding δ) (r : Recorder δ) (record : Record) (time : Time) :
    Recorder δ × Except History.Error (List (QueryRecord δ)) :=
  if record.category = .check ∨ record.category = .diagnostic then
    (r, (QueryRecord.new enc.size (observationKey enc record) record).map fun row => [row])
  else
    let previous := r.active[identityOf record]?
    let previousBytes := previous.elim 0 (·.bytes)
    if byteLimit < saturatingAdd (r.bytes - previousBytes) (bytesOf enc record) then
      (r, .error .capacity)
    else
      match previous with
      | some old =>
          if old.fingerprint = fingerprintOf enc record then
            extendVersion enc r old record
          else
            insertVersion enc
              { r with active := r.active.insert (identityOf record) (old.close time) }
              record time previousBytes [closedRow old.row time]
      | none =>
          if versionLimit ≤ r.active.size then (r, .error .capacity)
          else insertVersion enc r record time previousBytes []

section Capture

variable {enc : History.Encoding δ} {r : Recorder δ} {record : Record} {time : Time}

theorem capture_observation
    (h : record.category = .check ∨ record.category = .diagnostic) :
    capture enc r record time
      = (r, (QueryRecord.new enc.size (observationKey enc record) record).map
          fun row => [row]) :=
  if_pos h

theorem capture_none (h : ¬(record.category = .check ∨ record.category = .diagnostic))
    (hr : r.active[identityOf record]? = none) :
    capture enc r record time
      = if byteLimit < saturatingAdd r.bytes (bytesOf enc record)
          ∨ versionLimit ≤ r.active.size then (r, .error .capacity)
        else insertVersion enc r record time 0 [] := by
  simp only [capture, if_neg h, hr, Option.elim, Nat.sub_zero]
  by_cases hfull : byteLimit < saturatingAdd r.bytes (bytesOf enc record)
  · rw [if_pos hfull, if_pos (.inl hfull)]
  by_cases hcount : versionLimit ≤ r.active.size
  · rw [if_neg hfull, if_pos hcount, if_pos (.inr hcount)]
  · rw [if_neg hfull, if_neg hcount, if_neg (by simp [hfull, hcount])]

theorem capture_some (h : ¬(record.category = .check ∨ record.category = .diagnostic))
    {old : Version δ} (hr : r.active[identityOf record]? = some old) :
    capture enc r record time
      = if byteLimit < saturatingAdd (r.bytes - old.bytes) (bytesOf enc record) then
          (r, .error .capacity)
        else if old.fingerprint = fingerprintOf enc record then
          extendVersion enc r old record
        else
          insertVersion enc
            { r with active := r.active.insert (identityOf record) (old.close time) }
            record time old.bytes [closedRow old.row time] := by
  simp only [capture, if_neg h, hr, Option.elim]

end Capture

/-- The row of a finding that recovered or was removed. -/
def settledRow (row : QueryRecord δ) (time : Time) (removed : Bool) : QueryRecord δ :=
  let closed := closedRow row time
  match closed.record.details with
  | .finding finding =>
      { closed with
        record := { closed.record with
          details := .finding
            { finding with state := if removed then .removed else .recovered } } }
  | _ => closed

/-- `Recorder::close`. -/
def close (r : Recorder δ) (finding : String) (time : Time) (removed : Bool) :
    Recorder δ × Option (QueryRecord δ) :=
  match r.active["Finding/" ++ finding]? with
  | none => (r, none)
  | some version =>
      ({ active := r.active.erase ("Finding/" ++ finding), bytes := r.bytes - version.bytes },
        some (settledRow version.row time removed))

/-- The versions `retain` keeps. -/
def keeps (resources : List String) (key : String) (version : Version δ) : Bool :=
  Text.startsWith key "Finding/"
    || version.row.record.resource.any fun id => resources.contains id

/-- `Recorder::retain`. -/
def retain (r : Recorder δ) (resources : List String) : Recorder δ :=
  let active := Table.retain r.active (keeps resources)
  { active, bytes := active.total (·.bytes) }

end Recorder

/-! ## Calls -/

inductive Call where
  | capture (record : Record) (time : Time)
  | close (finding : String) (time : Time) (removed : Bool)
  | retain (resources : List String)
  deriving DecidableEq

inductive Reply (δ : Type) where
  | captured (rows : Except History.Error (List (QueryRecord δ)))
  | closed (row : Option (QueryRecord δ))
  | retained

/-- The reply of a rejected capture. -/
def Reply.failed {δ : Type} : Reply δ → Bool
  | .captured (.error _) => true
  | _ => false

namespace Recorder

variable {δ : Type}

def call [DecidableEq δ] (enc : History.Encoding δ) (r : Recorder δ) : Call → Recorder δ × Reply δ
  | .capture record time =>
      ((capture enc r record time).1, .captured (capture enc r record time).2)
  | .close finding time removed =>
      ((close r finding time removed).1, .closed (close r finding time removed).2)
  | .retain resources => (retain r resources, .retained)

/-- A recorder under its calls; each call is emitted with its reply. -/
def process [DecidableEq δ] (enc : History.Encoding δ) :
    Process (Recorder δ) Call (Call × Reply δ) where
  step r call := ((r.call enc call).1, [(call, (r.call enc call).2)])

/-! ## Closing times left behind -/

/-- A version without its closing time. -/
def forgotten (version : Version δ) : Version δ :=
  { version with
    row := { version.row with record := { version.row.record with closedAt := none } } }

/-- The same up to the closing times of the active versions. -/
structure Alike (r s : Recorder δ) : Prop where
  active : ∀ k : String, r.active[k]?.map forgotten = s.active[k]?.map forgotten
  bytes : r.bytes = s.bytes

@[simp] theorem forgotten_close (version : Version δ) (time : Time) :
    forgotten (version.close time) = forgotten version := rfl

namespace Alike

variable {r s t : Recorder δ}

theorem refl (r : Recorder δ) : Alike r r :=
  ⟨fun _ => rfl, rfl⟩

theorem symm (h : Alike r s) : Alike s r :=
  ⟨fun k => (h.active k).symm, h.bytes.symm⟩

theorem trans (h : Alike r s) (h' : Alike s t) : Alike r t :=
  ⟨fun k => (h.active k).trans (h'.active k), h.bytes.trans h'.bytes⟩

theorem of_none (h : Alike r s) {k : String} (hr : r.active[k]? = none) :
    s.active[k]? = none := by
  have hk := h.active k
  rw [hr] at hk
  exact Option.map_eq_none_iff.mp hk.symm

/-- An active version has a counterpart with the same content. -/
theorem of_some (h : Alike r s) {k : String} {v : Version δ} (hr : r.active[k]? = some v) :
    ∃ w, s.active[k]? = some w ∧ forgotten v = forgotten w := by
  have hk := h.active k
  rw [hr] at hk
  obtain ⟨w, hw, heq⟩ := Option.map_eq_some_iff.mp hk.symm
  exact ⟨w, hw, heq.symm⟩

theorem size_eq (h : Alike r s) : r.active.size = s.active.size := by
  have hle : ∀ {r s : Recorder δ}, Alike r s → r.active.size ≤ s.active.size := by
    intro r s h
    refine Table.size_le_of_subset fun k hk => ?_
    obtain ⟨v, hv⟩ := Table.mem_iff_getElem?.mp hk
    obtain ⟨w, hw, _⟩ := h.of_some hv
    exact Table.mem_iff_getElem?.mpr ⟨w, hw⟩
  exact Nat.le_antisymm (hle h) (hle h.symm)

/-- Inserting versions of the same content. -/
theorem insert (h : Alike r s) (k : String) {v w : Version δ}
    (hvw : forgotten v = forgotten w) {n m : Nat} (hnm : n = m) :
    Alike ⟨r.active.insert k v, n⟩ ⟨s.active.insert k w, m⟩ := by
  refine ⟨fun j => ?_, hnm⟩
  rw [Std.ExtTreeMap.getElem?_insert, Std.ExtTreeMap.getElem?_insert]
  split
  · exact congrArg some hvw
  · exact h.active j

end Alike

/-- The bytes of a table depend on the contents alone. -/
theorem total_of_alike {m n : Table (Version δ)}
    (h : ∀ k : String, m[k]?.map forgotten = n[k]?.map forgotten) :
    m.total (·.bytes) = n.total (·.bytes) := by
  have hle : ∀ {m n : Table (Version δ)},
      (∀ k : String, m[k]?.map forgotten = n[k]?.map forgotten) →
        m.total (·.bytes) ≤ n.total (·.bytes) := by
    intro m n h
    refine Table.total_le_total fun k v hv => ?_
    have hk := h k
    rw [hv] at hk
    obtain ⟨w, hw, heq⟩ := Option.map_eq_some_iff.mp hk.symm
    have hbytes : (forgotten w).bytes = (forgotten v).bytes := by rw [heq]
    exact ⟨w, hw, hbytes.ge⟩
  exact Nat.le_antisymm (hle h) (hle fun k => (h k).symm)

theorem closedRow_congr {v w : Version δ} (h : forgotten v = forgotten w) (time : Time) :
    closedRow v.row time = closedRow w.row time := by
  show closedRow (forgotten v).row time = closedRow (forgotten w).row time
  rw [h]

theorem settledRow_congr {v w : Version δ} (h : forgotten v = forgotten w) (time : Time)
    (removed : Bool) : settledRow v.row time removed = settledRow w.row time removed := by
  show settledRow (forgotten v).row time removed = settledRow (forgotten w).row time removed
  rw [h]

/-! ## Calls on alike recorders -/

variable {enc : History.Encoding δ} {r s : Recorder δ}

theorem insertVersion_alike (h : Alike r s) (record : Record) (time : Time)
    (previousBytes : Nat) (output : List (QueryRecord δ)) :
    (insertVersion enc r record time previousBytes output).2
        = (insertVersion enc s record time previousBytes output).2
      ∧ Alike (insertVersion enc r record time previousBytes output).1
        (insertVersion enc s record time previousBytes output).1 := by
  unfold insertVersion
  dsimp only
  cases QueryRecord.new enc.size _ record with
  | error error => exact ⟨rfl, h⟩
  | ok row => exact ⟨rfl, h.insert _ rfl (by rw [h.bytes])⟩

theorem extendVersion_alike (h : Alike r s) {v w : Version δ}
    (hvw : forgotten v = forgotten w) (record : Record) :
    (extendVersion enc r v record).2 = (extendVersion enc s w record).2
      ∧ Alike (extendVersion enc r v record).1 (extendVersion enc s w record).1 := by
  have hkey : v.row.key = w.row.key := congrArg (·.row.key) hvw
  have hobserved : v.row.record.observedAt = w.row.record.observedAt :=
    congrArg (·.row.record.observedAt) hvw
  have hlast : v.row.record.lastObservedAt = w.row.record.lastObservedAt :=
    congrArg (·.row.record.lastObservedAt) hvw
  have hvalid : v.row.record.validUntil = w.row.record.validUntil :=
    congrArg (·.row.record.validUntil) hvw
  have hfingerprint : v.fingerprint = w.fingerprint := congrArg (·.fingerprint) hvw
  have hbytes : v.bytes = w.bytes := congrArg (·.bytes) hvw
  unfold extendVersion
  dsimp only
  rw [hkey, hobserved, hlast, hvalid]
  cases QueryRecord.new enc.size _ _ with
  | error error => exact ⟨rfl, h⟩
  | ok row =>
      refine ⟨rfl, h.insert _ ?_ (by rw [h.bytes, hbytes])⟩
      simp only [forgotten, hfingerprint]

theorem close_alike (h : Alike r s) (finding : String) (time : Time) (removed : Bool) :
    (close r finding time removed).2 = (close s finding time removed).2
      ∧ Alike (close r finding time removed).1 (close s finding time removed).1 := by
  unfold close
  cases hr : r.active["Finding/" ++ finding]? with
  | none =>
      rw [h.of_none hr]
      exact ⟨rfl, h⟩
  | some v =>
      obtain ⟨w, hw, hvw⟩ := h.of_some hr
      have hbytes : v.bytes = w.bytes := congrArg (·.bytes) hvw
      rw [hw]
      refine ⟨congrArg some (settledRow_congr hvw time removed), ⟨fun k => ?_, ?_⟩⟩
      · dsimp only
        rw [Std.ExtTreeMap.getElem?_erase, Std.ExtTreeMap.getElem?_erase]
        split
        · rfl
        · exact h.active k
      · show r.bytes - v.bytes = s.bytes - w.bytes
        rw [h.bytes, hbytes]

theorem keeps_congr {v w : Version δ} (h : forgotten v = forgotten w)
    (resources : List String) (key : String) :
    keeps resources key v = keeps resources key w := by
  show keeps resources key (forgotten v) = keeps resources key (forgotten w)
  rw [h]

theorem retain_alike (h : Alike r s) (resources : List String) :
    Alike (retain r resources) (retain s resources) := by
  have hactive : ∀ k : String, (retain r resources).active[k]?.map forgotten
      = (retain s resources).active[k]?.map forgotten := by
    intro k
    show (Table.retain r.active _)[k]?.map forgotten = (Table.retain s.active _)[k]?.map _
    rw [Table.getElem?_retain, Table.getElem?_retain]
    cases hr : r.active[k]? with
    | none => rw [h.of_none hr]
    | some v =>
        obtain ⟨w, hw, hvw⟩ := h.of_some hr
        rw [hw, Option.filter_some, Option.filter_some, keeps_congr hvw]
        split
        · exact congrArg some hvw
        · rfl
  exact ⟨hactive, total_of_alike hactive⟩

theorem insertVersion_failed {record : Record} {time : Time} {bytes : Nat}
    {output : List (QueryRecord δ)} {error : History.Error}
    (h : (insertVersion enc r record time bytes output).2 = .error error) :
    (insertVersion enc r record time bytes output).1 = r := by
  unfold insertVersion at h ⊢
  dsimp only at h ⊢
  cases hnew : QueryRecord.new enc.size _ record with
  | error _ => rfl
  | ok row =>
      rw [hnew] at h
      cases h

theorem extendVersion_failed {old : Version δ} {record : Record} {error : History.Error}
    (h : (extendVersion enc r old record).2 = .error error) :
    (extendVersion enc r old record).1 = r := by
  unfold extendVersion at h ⊢
  dsimp only at h ⊢
  cases hnew : QueryRecord.new enc.size old.row.key _ with
  | error _ => rfl
  | ok row =>
      rw [hnew] at h
      cases h

variable [DecidableEq δ]

theorem capture_alike (h : Alike r s) (record : Record) (time : Time) :
    (capture enc r record time).2 = (capture enc s record time).2
      ∧ Alike (capture enc r record time).1 (capture enc s record time).1 := by
  by_cases hcategory : record.category = .check ∨ record.category = .diagnostic
  · rw [capture_observation hcategory, capture_observation hcategory]
    exact ⟨rfl, h⟩
  cases hr : r.active[identityOf record]? with
  | none =>
      rw [capture_none hcategory hr, capture_none hcategory (h.of_none hr), h.bytes,
        h.size_eq]
      by_cases hfull : byteLimit < saturatingAdd s.bytes (bytesOf enc record)
          ∨ versionLimit ≤ s.active.size
      · rw [if_pos hfull, if_pos hfull]
        exact ⟨rfl, h⟩
      · rw [if_neg hfull, if_neg hfull]
        exact insertVersion_alike h ..
  | some v =>
      obtain ⟨w, hw, hvw⟩ := h.of_some hr
      have hbytes : v.bytes = w.bytes := congrArg (·.bytes) hvw
      have hfingerprint : v.fingerprint = w.fingerprint := congrArg (·.fingerprint) hvw
      rw [capture_some hcategory hr, capture_some hcategory hw, h.bytes, hbytes,
        hfingerprint, closedRow_congr hvw]
      by_cases hfull : byteLimit < saturatingAdd (s.bytes - w.bytes) (bytesOf enc record)
      · rw [if_pos hfull, if_pos hfull]
        exact ⟨rfl, h⟩
      rw [if_neg hfull, if_neg hfull]
      by_cases hsame : w.fingerprint = fingerprintOf enc record
      · rw [if_pos hsame, if_pos hsame]
        exact extendVersion_alike h hvw record
      · rw [if_neg hsame, if_neg hsame]
        refine insertVersion_alike (h.insert _ ?_ rfl) ..
        rw [forgotten_close, forgotten_close, hvw]

theorem call_alike (h : Alike r s) (call : Call) :
    (r.call enc call).2 = (s.call enc call).2
      ∧ Alike (r.call enc call).1 (s.call enc call).1 := by
  cases call with
  | capture record time =>
      obtain ⟨hreply, hstate⟩ := @capture_alike _ enc _ _ _ h record time
      exact ⟨congrArg Reply.captured hreply, hstate⟩
  | close finding time removed =>
      obtain ⟨hreply, hstate⟩ := close_alike h finding time removed
      exact ⟨congrArg Reply.closed hreply, hstate⟩
  | retain resources => exact ⟨rfl, retain_alike h resources⟩

/-- A failed capture leaves the recorder as it was, up to a closing time. -/
theorem capture_failed {record : Record} {time : Time} {error : History.Error}
    (h : (capture enc r record time).2 = .error error) :
    Alike (capture enc r record time).1 r := by
  by_cases hcategory : record.category = .check ∨ record.category = .diagnostic
  · rw [capture_observation hcategory]
    exact .refl r
  cases hr : r.active[identityOf record]? with
  | none =>
      rw [capture_none hcategory hr] at h ⊢
      by_cases hfull : byteLimit < saturatingAdd r.bytes (bytesOf enc record)
          ∨ versionLimit ≤ r.active.size
      · rw [if_pos hfull]
        exact .refl r
      · rw [if_neg hfull] at h ⊢
        rw [insertVersion_failed h]
        exact .refl r
  | some old =>
      rw [capture_some hcategory hr] at h ⊢
      by_cases hfull : byteLimit < saturatingAdd (r.bytes - old.bytes) (bytesOf enc record)
      · rw [if_pos hfull]
        exact .refl r
      rw [if_neg hfull] at h ⊢
      by_cases hsame : old.fingerprint = fingerprintOf enc record
      · rw [if_pos hsame] at h ⊢
        rw [extendVersion_failed h]
        exact .refl r
      · -- Here the old version is marked closed although it stays active.
        rw [if_neg hsame] at h ⊢
        rw [insertVersion_failed h]
        refine ⟨fun k => ?_, rfl⟩
        dsimp only
        rw [Std.ExtTreeMap.getElem?_insert]
        split
        · next heq =>
            rw [← Std.LawfulEqCmp.eq_of_compare heq, hr]
            rfl
        · rfl

theorem call_failed {call : Call} (h : (r.call enc call).2.failed = true) :
    Alike (r.call enc call).1 r := by
  cases call with
  | capture record time =>
      cases hreply : (capture enc r record time).2 with
      | error error => exact capture_failed hreply
      | ok rows =>
          rw [show (r.call enc (.capture record time)).2 = .captured (.ok rows) from
            congrArg Reply.captured hreply] at h
          cases h
  | close finding time removed => cases h
  | retain resources => cases h

/-! ## Runs without the failed captures -/

/-- The calls of a log but for the failed captures, each with its reply. -/
def answered (log : List (Call × Reply δ)) : List (Call × Reply δ) :=
  log.filter fun entry => !entry.2.failed

/-- On alike recorders the remaining calls get the same replies and end alike. -/
theorem run_answered (calls : List Call) (h : Alike r s) :
    ((process enc).run s ((answered ((process enc).run r calls).2).map Prod.fst)).2
        = answered ((process enc).run r calls).2
      ∧ Alike ((process enc).run r calls).1
        ((process enc).run s ((answered ((process enc).run r calls).2).map Prod.fst)).1 := by
  induction calls generalizing r s with
  | nil => exact ⟨rfl, h⟩
  | cons call calls ih =>
      have hlog : answered ((process enc).run r (call :: calls)).2
          = answered [(call, (r.call enc call).2)]
            ++ answered ((process enc).run (r.call enc call).1 calls).2 :=
        List.filter_append ..
      cases hfailed : (r.call enc call).2.failed with
      | true =>
          have hskip : answered [(call, (r.call enc call).2)] = [] := by
            simp [answered, hfailed]
          rw [hlog, hskip]
          exact ih ((call_failed hfailed).trans h)
      | false =>
          have hkeep : answered [(call, (r.call enc call).2)]
              = [(call, (r.call enc call).2)] := by
            simp [answered, hfailed]
          obtain ⟨hreply, hstate⟩ := @call_alike _ enc _ _ _ h call
          obtain ⟨hrest, hend⟩ := ih hstate
          rw [hlog, hkeep, List.cons_append, List.nil_append, List.map_cons,
            Process.run_cons]
          refine ⟨?_, hend⟩
          rw [hreply]
          exact congrArg ((call, (s.call enc call).2) :: ·) hrest

/-- Failed captures are invisible: without them every other call of a run gets the
reply it got with them, and the bytes accounted for are the same. -/
theorem failed_captures_invisible (enc : History.Encoding δ) (r : Recorder δ) (calls : List Call) :
    ((process enc).run r ((answered ((process enc).run r calls).2).map Prod.fst)).2
        = answered ((process enc).run r calls).2
      ∧ ((process enc).run r ((answered ((process enc).run r calls).2).map Prod.fst)).1.bytes
        = ((process enc).run r calls).1.bytes := by
  obtain ⟨hreplies, hstate⟩ := @run_answered _ enc _ _ _ calls (Alike.refl r)
  exact ⟨hreplies, hstate.bytes.symm⟩

end Recorder

end HealthMonitor.Server
