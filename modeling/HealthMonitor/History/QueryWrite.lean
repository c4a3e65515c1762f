import HealthMonitor.History.Records
import HealthMonitor.Library.Upsert
import Mathlib.Data.List.DropRight

/-!
# Query write

How a batch of query records reaches the database. Of the rows of one key only the last
is written. A finding or a release that continues closes every other open row of its
identity first: a new process begins another interval of an identity without having
closed the one its predecessor left. A row that exists keeps the columns it was
inserted with and takes the end, the closing time, the state and the document of the
new one.

The transaction can commit although its reply is lost, or the retention after it can
fail, and the batch is then written again. That changes nothing (`write_again`) but rows
that retention has deleted in between.
-/

namespace HealthMonitor.History

open Query

variable {δ : Type}

/-- The table `query_record`, by its unique key. -/
abbrev QueryLedger (δ : Type) := δ → Option Row

/-- Findings and releases continue until they are closed. -/
def QueryRecord.continues (row : QueryRecord δ) : Bool :=
  row.record.category == .finding || row.record.category == .release

/-- The update that closes superseded rows; `now` is the time of the transaction. -/
def closeSuperseded [DecidableEq δ] (identities : List String) (keys : List δ) (now : Time)
    (ledger : QueryLedger δ) : QueryLedger δ := fun key =>
  (ledger key).map fun row =>
    if row.identity ∈ identities ∧ key ∉ keys ∧ row.closedAt = none then
      { row with closedAt := some (timestamptz now) }
    else row

/-- `ON CONFLICT … DO UPDATE`. -/
def Row.refresh (held new : Row) : Row :=
  { held with
    stop := new.stop
    closedAt := new.closedAt
    state := new.state
    payload := new.payload }

/-- The records as they are inserted; the first that cannot be projected fails them all. -/
def projected (text : δ → String) (records : List (QueryRecord δ)) :
    Except Error (List (δ × Row)) :=
  records.mapM fun row => (Row.ofRecord (text row.key) row.record).map (row.key, ·)

def insertRows [DecidableEq δ] (rows : List (δ × Row)) (ledger : QueryLedger δ) : QueryLedger δ :=
  Upsert.write Prod.fst Prod.snd (fun held entry => held.refresh entry.2) ledger rows

/-- `query_write::write`; `text` is a digest as the key column holds it. An error rolls the
transaction back. -/
def write [DecidableEq δ] (text : δ → String) (ledger : QueryLedger δ) (now : Time)
    (records : List (QueryRecord δ)) : Except Error (QueryLedger δ) :=
  let unique := Upsert.distinct (·.key) records
  let continuing := (unique.filter (·.continues)).map (·.record.identity)
  let keys := unique.map (·.key)
  let closed :=
    if continuing.isEmpty then ledger else closeSuperseded continuing keys now ledger
  (projected text unique).map fun rows => insertRows rows closed

/-! ## What a write does to a key -/

/-- The row can be inserted whatever its key is. -/
def Storable (record : Record) : Prop :=
  ∀ key, Row.ofRecord key record = .ok (Row.project key record)

theorem storable_iff {record : Record} :
    Storable record ↔
      isResource record.identity && isName record.scope.target
        && isResource record.scope.scope
        && [record.resource, record.location.region, record.location.cluster,
          record.location.namespace, record.location.service].all
            (·.all isResource) := by
  unfold Storable Row.ofRecord
  constructor
  · intro h
    by_contra hfail
    have hkey := h ""
    rw [if_neg hfail] at hkey
    cases hkey
  · intro h key
    rw [if_pos h]

/-- What was admitted to the journal can be inserted. -/
theorem storable_of_validate {size : Record → Nat} {record : Record}
    (h : validate size record = .ok ()) : Storable record := by
  rw [storable_iff]
  unfold validate at h
  split at h
  · next hchecks =>
      simp only [Bool.and_eq_true, List.all_cons, List.all_nil] at hchecks ⊢
      obtain ⟨⟨⟨⟨⟨⟨⟨htarget, hscope⟩, hidentity⟩, hcolumns⟩, -⟩, -⟩, -⟩, -⟩ := hchecks
      have hcolumn : ∀ column : Option String,
          column.all (fun value => isResource value && value.utf8ByteSize ≤ 2048) = true →
            column.all isResource = true := by
        intro column
        cases column with
        | none => exact fun _ => rfl
        | some value => simp +contextual
      obtain ⟨h₁, h₂, h₃, h₄, h₅, -⟩ := hcolumns
      exact ⟨⟨⟨hidentity, htarget⟩, hscope⟩, hcolumn _ h₁, hcolumn _ h₂, hcolumn _ h₃,
        hcolumn _ h₄, hcolumn _ h₅, trivial⟩
  · cases h

theorem projected_of_storable {text : δ → String} {records : List (QueryRecord δ)}
    (h : ∀ row ∈ records, Storable row.record) :
    projected text records
      = .ok (records.map fun row => (row.key, Row.project (text row.key) row.record)) := by
  induction records with
  | nil => rfl
  | cons row records ih =>
      have hrest := ih fun r hr => h r (List.mem_cons_of_mem row hr)
      unfold projected at hrest ⊢
      rw [List.mapM_cons, h row (by simp), hrest]
      rfl

theorem projected_ok {text : δ → String} {records : List (QueryRecord δ)}
    {rows : List (δ × Row)} (h : projected text records = .ok rows) :
    rows = records.map fun row => (row.key, Row.project (text row.key) row.record) := by
  induction records generalizing rows with
  | nil =>
      cases h
      rfl
  | cons row records ih =>
      unfold projected at h ih
      rw [List.mapM_cons] at h
      cases hrow : Row.ofRecord (text row.key) row.record with
      | error error =>
          rw [hrow] at h
          cases h
      | ok projection =>
          rw [hrow] at h
          cases hrest : records.mapM fun row =>
              (Row.ofRecord (text row.key) row.record).map (row.key, ·) with
          | error error =>
              rw [hrest] at h
              cases h
          | ok rest =>
              rw [hrest] at h
              cases h
              rw [ih hrest, Row.ofRecord_eq hrow, List.map_cons]

variable [DecidableEq δ]

/-- The identities a batch continues. -/
def continuedIn (records : List (QueryRecord δ)) (identity : String) : Prop :=
  ∃ key row, Upsert.last (·.key) records key = some row ∧ row.continues = true
    ∧ row.record.identity = identity

theorem mem_continuing {records : List (QueryRecord δ)} {identity : String} :
    identity ∈ (((Upsert.distinct (·.key) records).filter (·.continues)).map
        (·.record.identity))
      ↔ continuedIn records identity := by
  simp only [List.mem_map, List.mem_filter, Upsert.mem_distinct]
  constructor
  · rintro ⟨row, ⟨hlast, hcontinues⟩, hidentity⟩
    exact ⟨row.key, row, hlast, hcontinues, hidentity⟩
  · rintro ⟨key, row, hlast, hcontinues, hidentity⟩
    obtain ⟨-, rfl⟩ := Upsert.last_spec hlast
    exact ⟨row, ⟨hlast, hcontinues⟩, hidentity⟩

/-- The row of a key the batch does not hold is closed if it was open and the batch
continues its identity. -/
inductive Superseded (records : List (QueryRecord δ)) (now : Time) (row : Row) : Row → Prop
  | closed (hidentity : continuedIn records row.identity) (hopen : row.closedAt = none) :
      Superseded records now row { row with closedAt := some (timestamptz now) }
  | kept (h : continuedIn records row.identity → row.closedAt ≠ none) :
      Superseded records now row row

/-- What a key holds after a batch was written to it. -/
structure Written (text : δ → String) (ledger : QueryLedger δ) (now : Time)
    (records : List (QueryRecord δ)) (after : QueryLedger δ) : Prop where
  inserted : ∀ key row, Upsert.last (·.key) records key = some row →
    after key = some ((ledger key).elim (Row.project (text key) row.record)
      (·.refresh (Row.project (text key) row.record)))
  absent : ∀ key, Upsert.last (·.key) records key = none → ledger key = none →
    after key = none
  others : ∀ key row, Upsert.last (·.key) records key = none → ledger key = some row →
    ∃ row', after key = some row' ∧ Superseded records now row row'

theorem closeSuperseded_nil (keys : List δ) (now : Time) (ledger : QueryLedger δ) :
    closeSuperseded [] keys now ledger = ledger := by
  funext key
  simp [closeSuperseded]

/-- A key of the batch is left for the insertion. -/
theorem closeSuperseded_of_mem {identities : List String} {keys : List δ} {now : Time}
    {ledger : QueryLedger δ} {key : δ} (h : key ∈ keys) :
    closeSuperseded identities keys now ledger key = ledger key := by
  simp [closeSuperseded, h]

theorem last_entries {text : δ → String} {records : List (QueryRecord δ)} {key : δ} :
    Upsert.last Prod.fst
        (records.map fun row => (row.key, Row.project (text row.key) row.record)) key
      = (Upsert.last (·.key) records key).map fun row =>
          (row.key, Row.project (text row.key) row.record) := by
  induction records with
  | nil => rfl
  | cons row records ih =>
      rw [List.map_cons, Upsert.last_cons, Upsert.last_cons, ih]
      cases Upsert.last (·.key) records key with
      | some last => rfl
      | none => by_cases hkey : row.key = key <;> simp [hkey]

/-- The entries of a batch: each key once. -/
def entries (text : δ → String) (records : List (QueryRecord δ)) : List (δ × Row) :=
  (Upsert.distinct (·.key) records).map fun row =>
    (row.key, Row.project (text row.key) row.record)

theorem keys_entries (text : δ → String) (records : List (QueryRecord δ)) :
    (entries text records).map Prod.fst = (Upsert.distinct (·.key) records).map (·.key) := by
  unfold entries
  rw [List.map_map]
  rfl

theorem write_eq {text : δ → String} {ledger after : QueryLedger δ} {now : Time}
    {records : List (QueryRecord δ)} (h : write text ledger now records = .ok after) :
    after = insertRows (entries text records)
      (closeSuperseded (((Upsert.distinct (·.key) records).filter (·.continues)).map
          (·.record.identity))
        ((Upsert.distinct (·.key) records).map (·.key)) now ledger) := by
  unfold write at h
  dsimp only at h
  cases hrows : projected text (Upsert.distinct (·.key) records) with
  | error error =>
      rw [hrows] at h
      cases h
  | ok rows =>
      rw [hrows, projected_ok hrows] at h
      generalize ((Upsert.distinct (·.key) records).filter (·.continues)).map
        (·.record.identity) = identities at h ⊢
      cases identities with
      | nil =>
          rw [closeSuperseded_nil]
          injection h with h
          exact h.symm
      | cons identity rest =>
          injection h with h
          exact h.symm

theorem write_spec {text : δ → String} {ledger after : QueryLedger δ} {now : Time}
    {records : List (QueryRecord δ)} (h : write text ledger now records = .ok after) :
    Written text ledger now records after := by
  have hwrite : ∀ key, after key = _ := fun key =>
    (congrFun (write_eq h) key).trans (Upsert.write_eq
      (by rw [keys_entries]; exact Upsert.nodup_distinct records) _ key)
  simp only [entries, last_entries, Upsert.last_distinct] at hwrite
  refine ⟨fun key row hlast => ?_, fun key hlast hledger => ?_, fun key row hlast hledger => ?_⟩
  · have hmem : key ∈ (Upsert.distinct (·.key) records).map (·.key) := by
      rw [Upsert.mem_keys_distinct]
      by_contra hnot
      rw [Upsert.last_eq_none_iff.mpr hnot] at hlast
      cases hlast
    obtain ⟨-, rfl⟩ := Upsert.last_spec hlast
    rw [hwrite, hlast, closeSuperseded_of_mem hmem]
    cases ledger row.key <;> rfl
  · rw [hwrite, hlast]
    simp [closeSuperseded, hledger]
  · have hmem : key ∉ (Upsert.distinct (·.key) records).map (·.key) := by
      rw [Upsert.mem_keys_distinct]
      exact Upsert.last_eq_none_iff.mp hlast
    have hclosing : row.identity ∈ ((Upsert.distinct (·.key) records).filter
          (·.continues)).map (·.record.identity)
        ∧ key ∉ (Upsert.distinct (·.key) records).map (·.key) ∧ row.closedAt = none
        ↔ continuedIn records row.identity ∧ row.closedAt = none := by
      rw [mem_continuing, and_iff_right hmem]
    rw [hwrite, hlast]
    simp only [Option.map_none, Option.none_or, closeSuperseded, hledger, Option.map_some]
    by_cases hclose : continuedIn records row.identity ∧ row.closedAt = none
    · exact ⟨_, by rw [if_pos (hclosing.mpr hclose)], .closed hclose.1 hclose.2⟩
    · exact ⟨_, by rw [if_neg (mt hclosing.mp hclose)], .kept fun hc ho => hclose ⟨hc, ho⟩⟩

/-- Records that were admitted are written. -/
theorem write_ok (text : δ → String) (ledger : QueryLedger δ) (now : Time)
    {records : List (QueryRecord δ)} (h : ∀ row ∈ records, Storable row.record) :
    ∃ after, write text ledger now records = .ok after := by
  unfold write
  dsimp only
  rw [projected_of_storable fun row hrow =>
    h row (Upsert.last_spec (Upsert.mem_distinct.mp hrow)).1]
  exact ⟨_, rfl⟩

/-- The outcome of a write does not depend on what the ledger holds. -/
theorem write_isOk (text : δ → String) {ledger after : QueryLedger δ} {now : Time}
    {records : List (QueryRecord δ)} (other : QueryLedger δ) (later : Time)
    (h : write text ledger now records = .ok after) :
    ∃ after', write text other later records = .ok after' := by
  unfold write at h ⊢
  dsimp only at h ⊢
  cases hrows : projected text (Upsert.distinct (·.key) records) with
  | error error =>
      rw [hrows] at h
      cases h
  | ok rows => exact ⟨_, rfl⟩

/-! ## Writing a batch again -/

/-- A batch that is written again changes nothing: neither the rows it inserted nor those
it closed. -/
theorem write_again (text : δ → String) {ledger after : QueryLedger δ} {now : Time}
    {records : List (QueryRecord δ)} (h : write text ledger now records = .ok after)
    (later : Time) : write text after later records = .ok after := by
  obtain ⟨twice, htwice⟩ := write_isOk text after later h
  rw [htwice]
  congr 1
  have hfirst := write_spec h
  have hsecond := write_spec htwice
  funext key
  cases hlast : Upsert.last (·.key) records key with
  | some row =>
      have hafter := hfirst.inserted key row hlast
      rw [hsecond.inserted key row hlast, hafter]
      cases ledger key with
      | none => rfl
      | some held => rfl
  | none =>
      cases hheld : ledger key with
      | none =>
          rw [hsecond.absent key hlast (hfirst.absent key hlast hheld),
            hfirst.absent key hlast hheld]
      | some row =>
          obtain ⟨row', hrow', hsuperseded⟩ := hfirst.others key row hlast hheld
          obtain ⟨row'', hrow'', hagain⟩ := hsecond.others key row' hlast hrow'
          rw [hrow'', hrow']
          congr 1
          cases hagain with
          | kept _ => rfl
          | closed hidentity hopen =>
              -- Such a row would have been closed the first time.
              cases hsuperseded with
              | closed _ _ => cases hopen
              | kept hkept => exact absurd hopen (hkept hidentity)

/-! ## One key -/

theorem Superseded.unique {records : List (QueryRecord δ)} {now : Time} {row a b : Row}
    (ha : Superseded records now row a) (hb : Superseded records now row b) : a = b := by
  cases ha with
  | closed hidentity hopen =>
      cases hb with
      | closed => rfl
      | kept hkept => exact absurd hopen (hkept hidentity)
  | kept hkept =>
      cases hb with
      | closed hidentity hopen => exact absurd hopen (hkept hidentity)
      | kept => rfl

/-- What a write does to a key depends on what the ledger holds under that key. -/
theorem write_congr {text : δ → String} {ledger other after after' : QueryLedger δ} {now : Time}
    {records : List (QueryRecord δ)} (h : write text ledger now records = .ok after)
    (h' : write text other now records = .ok after') {key : δ} (hkey : ledger key = other key) :
    after key = after' key := by
  have hspec := write_spec h
  have hspec' := write_spec h'
  cases hlast : Upsert.last (·.key) records key with
  | some row => rw [hspec.inserted key row hlast, hspec'.inserted key row hlast, hkey]
  | none =>
      cases hheld : other key with
      | none => rw [hspec.absent key hlast (hkey.trans hheld), hspec'.absent key hlast hheld]
      | some row =>
          obtain ⟨a, ha, hfirst⟩ := hspec.others key row hlast (hkey.trans hheld)
          obtain ⟨b, hb, hsecond⟩ := hspec'.others key row hlast hheld
          rw [ha, hb, hfirst.unique hsecond]

/-! ## Deliveries -/

/-- What happens to the ledger: the transaction of a batch commits, or retention deletes
some rows. -/
inductive LedgerEvent (δ : Type) where
  | commit (time : Time)
  | retain (gone : δ → Bool)

/-- A call of `write_queries`. Retention runs before the transaction and after its commit;
the call can fail at any point, after the commit too. -/
structure Attempt (δ : Type) where
  before : List (δ → Bool)
  committed : Option (Time × List (δ → Bool))

def Attempt.events (attempt : Attempt δ) : List (LedgerEvent δ) :=
  attempt.before.map .retain
    ++ attempt.committed.elim [] fun commit => .commit commit.1 :: commit.2.map .retain

/-- A turn of `journal_worker::run`: maintenance, or a batch with the attempts that were
made to write it. -/
inductive Turn (δ : Type) where
  | maintained (passes : List (δ → Bool))
  | delivered (records : List (QueryRecord δ)) (attempts : List (Attempt δ))

/-- A batch, and what happened to the ledger while it was written. -/
structure Delivery (δ : Type) where
  records : List (QueryRecord δ)
  events : List (LedgerEvent δ)

def Turn.delivery : Turn δ → Delivery δ
  | .maintained passes => { records := [], events := passes.map .retain }
  | .delivered records attempts => { records, events := attempts.flatMap Attempt.events }

/-- The transaction of a batch; an error rolls it back. -/
def commit (text : δ → String) (records : List (QueryRecord δ)) (ledger : QueryLedger δ)
    (time : Time) : QueryLedger δ :=
  match write text ledger time records with
  | .ok after => after
  | .error _ => ledger

def perform (text : δ → String) (records : List (QueryRecord δ)) (ledger : QueryLedger δ) :
    LedgerEvent δ → QueryLedger δ
  | .commit time => commit text records ledger time
  | .retain gone => fun key => if gone key then none else ledger key

def deliver (text : δ → String) (ledger : QueryLedger δ) (delivery : Delivery δ) :
    QueryLedger δ :=
  delivery.events.foldl (perform text delivery.records) ledger

/-- The ledger after some turns of the worker. -/
def work (text : δ → String) (ledger : QueryLedger δ) (turns : List (Turn δ)) : QueryLedger δ :=
  (turns.map Turn.delivery).foldl (deliver text) ledger

/-! ## Each batch once -/

def LedgerEvent.spares (key : δ) : LedgerEvent δ → Bool
  | .commit _ => true
  | .retain gone => !gone key

/-- Retention leaves the row of the key alone. -/
def Delivery.spares (key : δ) (delivery : Delivery δ) : Bool :=
  delivery.events.all (·.spares key)

/-- The time of the first commit. -/
def Delivery.first (delivery : Delivery δ) : Option Time :=
  delivery.events.findSome? fun
    | .commit time => some time
    | .retain _ => none

/-- The batch is written once, at the time of its first commit. -/
def writeOnce (text : δ → String) (ledger : QueryLedger δ) (delivery : Delivery δ) :
    QueryLedger δ :=
  match delivery.first with
  | some time => commit text delivery.records ledger time
  | none => ledger

/-- What happened since the row of a key was deleted last. -/
def since (key : δ) : List (Delivery δ) → List (Delivery δ)
  | [] => []
  | delivery :: later =>
      if later.all (·.spares key) then
        { delivery with events := delivery.events.rtakeWhile (·.spares key) } :: later
      else since key later

omit [DecidableEq δ] in
/-- The events of a delivery up to the last that deleted the row of the key. -/
theorem deleted_at_last {key : δ} {delivery : Delivery δ} (h : delivery.spares key ≠ true) :
    ∃ events gone, delivery.events.rdropWhile (·.spares key) = events ++ [.retain gone]
      ∧ gone key = true := by
  have hne : delivery.events.rdropWhile (·.spares key) ≠ [] := fun hnil =>
    h (List.all_eq_true.mpr (List.rdropWhile_eq_nil_iff.mp hnil))
  have hlast := List.rdropWhile_last_not _ _ hne
  have hsplit := List.dropLast_append_getLast hne
  cases hevent : (delivery.events.rdropWhile (·.spares key)).getLast hne with
  | commit time =>
      rw [hevent] at hlast
      exact absurd rfl hlast
  | retain gone =>
      rw [hevent] at hlast hsplit
      exact ⟨_, gone, hsplit.symm, by simpa [LedgerEvent.spares] using hlast⟩

section Key

variable (text : δ → String) {ledger other : QueryLedger δ} {key : δ}

theorem commit_again (records : List (QueryRecord δ)) (ledger : QueryLedger δ)
    (time later : Time) :
    commit text records (commit text records ledger time) later
      = commit text records ledger time := by
  unfold commit
  cases hwrite : write text ledger time records with
  | ok after => rw [write_again text hwrite later]
  | error error =>
      cases hlater : write text ledger later records with
      | error _ => rfl
      | ok after =>
          obtain ⟨_, hok⟩ := write_isOk text ledger time hlater
          rw [hwrite] at hok
          cases hok

theorem commit_congr (records : List (QueryRecord δ)) (time : Time)
    (h : ledger key = other key) :
    commit text records ledger time key = commit text records other time key := by
  unfold commit
  cases hwrite : write text ledger time records with
  | ok after =>
      obtain ⟨after', hwrite'⟩ := write_isOk text other time hwrite
      rw [hwrite']
      exact write_congr hwrite hwrite' h
  | error error =>
      cases hwrite' : write text other time records with
      | error _ => exact h
      | ok after' =>
          obtain ⟨_, hok⟩ := write_isOk text ledger time hwrite'
          rw [hwrite] at hok
          cases hok

theorem perform_congr (records : List (QueryRecord δ)) (event : LedgerEvent δ)
    (h : ledger key = other key) :
    perform text records ledger event key = perform text records other event key := by
  cases event with
  | commit time => exact commit_congr text records time h
  | retain gone => simp only [perform, h]

theorem deliver_congr (delivery : Delivery δ) (h : ledger key = other key) :
    deliver text ledger delivery key = deliver text other delivery key := by
  obtain ⟨records, events⟩ := delivery
  unfold deliver
  dsimp only
  induction events generalizing ledger other with
  | nil => exact h
  | cons event events ih => exact ih (perform_congr text records event h)

/-- Once the batch is committed, what follows changes nothing under a key that is spared. -/
theorem deliver_committed {records : List (QueryRecord δ)} {time : Time}
    {events : List (LedgerEvent δ)} (hspares : ∀ event ∈ events, event.spares key = true)
    (h : ledger key = commit text records other time key) :
    events.foldl (perform text records) ledger key = ledger key := by
  induction events generalizing ledger with
  | nil => rfl
  | cons event events ih =>
      have hevent : perform text records ledger event key = ledger key := by
        have hspared := hspares event List.mem_cons_self
        cases event with
        | commit later =>
            have hcommitted := commit_congr text records later h
            rw [commit_again, ← h] at hcommitted
            exact hcommitted
        | retain gone =>
            have hkept : gone key = false := by simpa [LedgerEvent.spares] using hspared
            simp [perform, hkept]
      rw [List.foldl_cons, ih (fun e he => hspares e (List.mem_cons_of_mem _ he))
        (hevent.trans h), hevent]

/-- A batch counts once under a key that is spared. -/
theorem deliver_spared {delivery : Delivery δ} (h : delivery.spares key = true)
    (ledger : QueryLedger δ) :
    deliver text ledger delivery key = writeOnce text ledger delivery key := by
  obtain ⟨records, events⟩ := delivery
  rw [Delivery.spares, List.all_eq_true] at h
  unfold deliver writeOnce Delivery.first
  dsimp only at h ⊢
  induction events generalizing ledger with
  | nil => rfl
  | cons event events ih =>
      have hrest := fun e he => h e (List.mem_cons_of_mem event he)
      rw [List.foldl_cons, List.findSome?_cons]
      cases event with
      | commit time =>
          dsimp only
          exact deliver_committed text hrest rfl
      | retain gone =>
          dsimp only
          have hkept : gone key = false := by
            simpa [LedgerEvent.spares] using h _ List.mem_cons_self
          have hsame : perform text records ledger (.retain gone) key = ledger key := by
            simp [perform, hkept]
          exact (deliver_congr text { records, events } hsame).trans (ih ledger hrest)

/-- From the deletion of its row on, a key is as empty as at first. -/
theorem deliver_deleted {delivery : Delivery δ} (h : delivery.spares key ≠ true)
    (ledger : QueryLedger δ) :
    deliver text ledger delivery key
      = writeOnce text (fun _ => none)
          { delivery with events := delivery.events.rtakeWhile (·.spares key) } key := by
  obtain ⟨events, gone, hevents, hgone⟩ := deleted_at_last h
  have hempty : deliver text ledger
      { delivery with events := delivery.events.rdropWhile (·.spares key) } key = none := by
    unfold deliver
    rw [hevents, List.foldl_append]
    exact if_pos hgone
  have hspares : Delivery.spares key
      { delivery with events := delivery.events.rtakeWhile (·.spares key) } = true :=
    List.all_eq_true.mpr fun _ => List.mem_rtakeWhile_imp
  calc deliver text ledger delivery key
      = deliver text (deliver text ledger
            { delivery with events := delivery.events.rdropWhile (·.spares key) })
          { delivery with events := delivery.events.rtakeWhile (·.spares key) } key := by
        unfold deliver
        rw [← List.foldl_append, List.rdropWhile_append_rtakeWhile]
    _ = deliver text (fun _ => none)
          { delivery with events := delivery.events.rtakeWhile (·.spares key) } key :=
        deliver_congr text _ hempty
    _ = _ := deliver_spared text hspares _

theorem writeOnce_congr (delivery : Delivery δ) (h : ledger key = other key) :
    writeOnce text ledger delivery key = writeOnce text other delivery key := by
  unfold writeOnce
  cases delivery.first with
  | none => exact h
  | some time => exact commit_congr text delivery.records time h

theorem once_congr (deliveries : List (Delivery δ)) (h : ledger key = other key) :
    deliveries.foldl (writeOnce text) ledger key
      = deliveries.foldl (writeOnce text) other key := by
  induction deliveries generalizing ledger other with
  | nil => exact h
  | cons delivery deliveries ih => exact ih (writeOnce_congr text delivery h)

theorem deliveries_spared {deliveries : List (Delivery δ)}
    (h : deliveries.all (·.spares key) = true) (ledger : QueryLedger δ) :
    deliveries.foldl (deliver text) ledger key
      = deliveries.foldl (writeOnce text) ledger key := by
  induction deliveries generalizing ledger with
  | nil => rfl
  | cons delivery deliveries ih =>
      rw [List.all_cons, Bool.and_eq_true] at h
      rw [List.foldl_cons, List.foldl_cons, ih h.2]
      exact once_congr text deliveries (deliver_spared text h.1 ledger)

theorem deliveries_since {deliveries : List (Delivery δ)}
    (h : deliveries.all (·.spares key) ≠ true) (ledger : QueryLedger δ) :
    deliveries.foldl (deliver text) ledger key
      = (since key deliveries).foldl (writeOnce text) (fun _ => none) key := by
  induction deliveries generalizing ledger with
  | nil => exact absurd rfl h
  | cons delivery later ih =>
      rw [List.foldl_cons, since]
      by_cases hlater : later.all (·.spares key) = true
      · have hdeleted : delivery.spares key ≠ true := fun hspared =>
          h (by rw [List.all_cons, hspared, hlater, Bool.and_self])
        rw [if_pos hlater, List.foldl_cons, deliveries_spared text hlater]
        exact once_congr text later (deliver_deleted text hdeleted ledger)
      · rw [if_neg hlater]
        exact ih hlater _

end Key

/-- Whatever attempts it took, each batch counts once, at its first commit. Of a key whose
row retention deleted, that holds from the last deletion on. -/
theorem delivered_once (text : δ → String) (ledger : QueryLedger δ) (turns : List (Turn δ))
    (key : δ) :
    work text ledger turns key =
      if (turns.map Turn.delivery).all (·.spares key) then
        (turns.map Turn.delivery).foldl (writeOnce text) ledger key
      else
        (since key (turns.map Turn.delivery)).foldl (writeOnce text) (fun _ => none) key := by
  split
  · next h => exact deliveries_spared text h ledger
  · next h => exact deliveries_since text h ledger

end HealthMonitor.History
