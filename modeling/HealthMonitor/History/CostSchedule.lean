import Mathlib.Data.Finset.Card
import Mathlib.Data.Int.Interval
import Mathlib.Data.List.MinMax
import HealthMonitor.Core.Units
import HealthMonitor.Costs.Aggregate
import HealthMonitor.History.Rows

/-!
# Cost schedule

Which days of a billing source are fetched next, and what publishing them does to its
partitions. A day of the source has one partition, which belongs to the import that last
published it. Two counts measure the work ahead at a fixed time: `lag`, the days of the
backfill range still missing and the refresh of today, and `staleDays`, the partitions due
for a revisit. Every publication lowers one of them and raises neither.
-/

namespace HealthMonitor.History.CostSchedule

open HealthMonitor.Costs (Period)

/-- The order of days and instants, by its computable instance. -/
local instance (priority := high) dayPreorder : Preorder Int := Int.instLinearOrder.toPreorder

/-! ## The source -/

structure Config where
  intervalSeconds : Option Nat := none
  backfillDays : Option Nat := none
  retentionDays : Option Nat := none

namespace Config

def interval (config : Config) : Nat := config.intervalSeconds.getD 3600

def backfill (config : Config) : Nat := config.backfillDays.getD 90

def retention (config : Config) : Nat := config.retentionDays.getD 400

/-- The part of `validate` about the schedule. -/
def validate (config : Config) : Bool :=
  decide (900 ≤ config.interval) && decide (config.interval ≤ 86400)
    && decide (1 ≤ config.backfill) && decide (config.backfill ≤ 400)
    && decide (config.backfill ≤ config.retention) && decide (config.retention ≤ 730)

end Config

structure Source where
  id : String
  awsQuery : Bool

structure Partition where
  source : String
  day : Int
  importId : Nat
  deriving DecidableEq

/-- The partitions, and when each import was published. -/
structure Store where
  partitions : List Partition
  publishedAt : Nat → Option Time

/-- The day of an instant, counted from 1 January 1970. -/
def dateNaive (time : Time) : Int := time / (86400 * nanosPerSecond)

/-- `(now - since).num_days()`. -/
def numDays (now since : Time) : Int := (numSeconds now since).tdiv 86400

def tomorrow (now : Time) : Int := dateNaive now + 1

section

variable (source : Source) (config : Config) (now : Time)

/-- The first day of the backfill range. -/
def backfillStart : Int := tomorrow now - config.backfill

def retainedStart : Int := tomorrow now - config.retention

/-- What the query selects: the retained days of the source with the time they were published. -/
def rowsOf (store : Store) : List (Int × Option Time) :=
  (store.partitions.filter fun p =>
    decide (p.source = source.id) && decide (retainedStart config now ≤ p.day)).map
      fun p => (p.day, store.publishedAt p.importId)

/-- The query returns its rows in any order, the first 731 of them. -/
def Loads (store : Store) (rows : List (Int × Option Time)) : Prop :=
  ∃ all : List (Int × Option Time), all.Perm (rowsOf source config now store) ∧ rows = all.take 731

def cadence : Int := if source.awsQuery then 86400 else config.interval

def window (stop : Int) : Period :=
  { start :=
      if source.awsQuery then backfillStart config now
      else max (stop - 7) (backfillStart config now)
    stop }

/-- A partition that was published thirty days ago or earlier, with the time it was. -/
def staleRow (row : Int × Option Time) : Option (Int × Time) :=
  row.2.bind fun published =>
    if 30 ≤ numDays now published then some (row.1, published) else none

def costNextPeriod (rows : List (Int × Option Time)) : Except Error (Option Period) :=
  if 730 < rows.length then .error .record
  else
    let recent := (rows.find? (·.1 == dateNaive now)).bind Prod.snd
    if recent.all fun published =>
        decide (cadence source config ≤ numSeconds now published) then
      .ok (some (window source config now (tomorrow now)))
    else
      match (List.range config.backfill).find? fun offset : Nat =>
        !rows.any (·.1 == tomorrow now - (offset + 1)) with
      | some offset => .ok (some (window source config now (tomorrow now - (offset + 1) + 1)))
      | none =>
          match (rows.filterMap (staleRow now)).argmin Prod.snd with
          | some row => .ok (some ⟨row.1, row.1 + 1⟩)
          | none => .ok none

end

/-- Insert the partition of a day, or hand it to another import. -/
def upsert (source : String) (importId : Nat) (partitions : List Partition) (day : Int) :
    List Partition :=
  if partitions.any fun p => decide (p.source = source) && decide (p.day = day) then
    partitions.map fun p => if p.source = source ∧ p.day = day then { p with importId } else p
  else partitions ++ [⟨source, day, importId⟩]

def periodDays (period : Period) : List Int :=
  (List.range (period.stop - period.start).toNat).map fun offset : Nat => period.start + offset

/-- Publish an import whose staged rows are complete. -/
def costPublish (store : Store) (source : String) (importId : Nat) (period : Period)
    (count expectedRows retention : Nat) (now : Time) : Except Error Store :=
  if count ≠ expectedRows then .error .record
  else
    let partitions := (periodDays period).foldl (upsert source importId) store.partitions
    .ok {
      partitions := partitions.filter fun p => decide (dateNaive now - retention ≤ p.day)
      publishedAt := fun id => if id = importId then some now else store.publishedAt id }

/-! ## Partitions of a store -/

theorem mem_upsert {source : String} {importId : Nat} {partitions : List Partition} {day : Int}
    {p : Partition} :
    p ∈ upsert source importId partitions day ↔
      p = ⟨source, day, importId⟩ ∨ p ∈ partitions ∧ ¬ (p.source = source ∧ p.day = day) := by
  rw [upsert]
  by_cases hany : (partitions.any fun p => decide (p.source = source) && decide (p.day = day))
      = true
  · rw [if_pos hany, List.mem_map]
    rw [List.any_eq_true] at hany
    obtain ⟨old, hold, hkey⟩ := hany
    rw [Bool.and_eq_true, decide_eq_true_iff, decide_eq_true_iff] at hkey
    constructor
    · rintro ⟨q, hq, rfl⟩
      by_cases hq' : q.source = source ∧ q.day = day
      · rw [if_pos hq', ← hq'.1, ← hq'.2]
        exact Or.inl rfl
      · rw [if_neg hq']
        exact Or.inr ⟨hq, hq'⟩
    · rintro (rfl | ⟨hp, hne⟩)
      · refine ⟨old, hold, ?_⟩
        rw [if_pos hkey, ← hkey.1, ← hkey.2]
      · exact ⟨p, hp, if_neg hne⟩
  · rw [if_neg hany, List.mem_append, List.mem_singleton]
    have hnone : ∀ q ∈ partitions, ¬ (q.source = source ∧ q.day = day) := by
      intro q hq hkey
      refine hany (List.any_eq_true.mpr ⟨q, hq, ?_⟩)
      rw [decide_eq_true hkey.1, decide_eq_true hkey.2]
      rfl
    constructor
    · rintro (hp | rfl)
      · exact Or.inr ⟨hp, hnone p hp⟩
      · exact Or.inl rfl
    · rintro (rfl | ⟨hp, -⟩)
      · exact Or.inr rfl
      · exact Or.inl hp

theorem mem_foldl_upsert {source : String} {importId : Nat} {days : List Int}
    {partitions : List Partition} {p : Partition} :
    p ∈ days.foldl (upsert source importId) partitions ↔
      (p.source = source ∧ p.importId = importId ∧ p.day ∈ days)
        ∨ p ∈ partitions ∧ ¬ (p.source = source ∧ p.day ∈ days) := by
  induction days generalizing partitions with
  | nil => simp
  | cons day days ih =>
      rw [List.foldl_cons, ih, mem_upsert, List.mem_cons]
      constructor
      · rintro (⟨hs, hi, hd⟩ | ⟨rfl | ⟨hp, hne⟩, hrest⟩)
        · exact Or.inl ⟨hs, hi, Or.inr hd⟩
        · exact Or.inl ⟨rfl, rfl, Or.inl rfl⟩
        · refine Or.inr ⟨hp, fun hkey => ?_⟩
          exact hkey.2.elim (fun hd => hne ⟨hkey.1, hd⟩) fun hd => hrest ⟨hkey.1, hd⟩
      · rintro (⟨hs, hi, hd⟩ | ⟨hp, hne⟩)
        · by_cases hrest : p.day ∈ days
          · exact Or.inl ⟨hs, hi, hrest⟩
          · refine Or.inr ⟨Or.inl ?_, fun hkey => hrest hkey.2⟩
            have hday : p.day = day := hd.resolve_right hrest
            cases p
            simp_all
        · refine Or.inr ⟨Or.inr ⟨hp, fun hkey => hne ⟨hkey.1, Or.inl hkey.2⟩⟩, ?_⟩
          exact fun hkey => hne ⟨hkey.1, Or.inr hkey.2⟩

theorem mem_periodDays {period : Period} {day : Int} :
    day ∈ periodDays period ↔ period.start ≤ day ∧ day < period.stop := by
  rw [periodDays, List.mem_map]
  constructor
  · rintro ⟨offset, hoffset, rfl⟩
    rw [List.mem_range] at hoffset
    omega
  · intro h
    refine ⟨(day - period.start).toNat, List.mem_range.mpr ?_, ?_⟩ <;> omega

/-- A partition belongs to one day of one source. -/
def Unique (partitions : List Partition) : Prop :=
  (partitions.map fun p => (p.source, p.day)).Nodup

theorem unique_upsert {source : String} {importId : Nat} {partitions : List Partition} {day : Int}
    (h : Unique partitions) : Unique (upsert source importId partitions day) := by
  rw [upsert]
  by_cases hany : (partitions.any fun p => decide (p.source = source) && decide (p.day = day))
      = true
  · rw [if_pos hany]
    have hkeys : (partitions.map fun p =>
        if p.source = source ∧ p.day = day then { p with importId } else p).map
          (fun p => (p.source, p.day)) = partitions.map fun p => (p.source, p.day) := by
      rw [List.map_map]
      refine List.map_congr_left fun p _ => ?_
      simp only [Function.comp_apply]
      split <;> rfl
    rw [Unique, hkeys]
    exact h
  · rw [if_neg hany, Unique, List.map_append, List.nodup_append]
    refine ⟨h, List.nodup_singleton _, ?_⟩
    intro key hkey key' hkey' heq
    obtain ⟨p, hp, rfl⟩ := List.mem_map.mp hkey
    rw [List.map_singleton, List.mem_singleton] at hkey'
    rw [hkey', Prod.mk.injEq] at heq
    refine hany (List.any_eq_true.mpr ⟨p, hp, ?_⟩)
    rw [decide_eq_true heq.1, decide_eq_true heq.2]
    rfl

theorem unique_foldl_upsert {source : String} {importId : Nat} {days : List Int}
    {partitions : List Partition} (h : Unique partitions) :
    Unique (days.foldl (upsert source importId) partitions) := by
  induction days generalizing partitions with
  | nil => exact h
  | cons day days ih => exact ih (unique_upsert h)

/-! ## What is decided -/

/-- Some partition of the source has the day. -/
def Covered (source : Source) (store : Store) (day : Int) : Prop :=
  ∃ p ∈ store.partitions, p.source = source.id ∧ p.day = day

section

variable (source : Source) (config : Config) (now : Time) (store : Store)

/-- Today was published less than a cadence ago. -/
def Fresh : Prop :=
  ∃ p ∈ store.partitions, p.source = source.id ∧ p.day = dateNaive now
    ∧ ∃ published, store.publishedAt p.importId = some published
      ∧ numSeconds now published < cadence source config

/-- The day was published thirty days ago or earlier. -/
def Stale (day : Int) : Prop :=
  ∃ p ∈ store.partitions, p.source = source.id ∧ p.day = day
    ∧ ∃ published, store.publishedAt p.importId = some published ∧ 30 ≤ numDays now published

def Backfilled : Prop :=
  ∀ day, backfillStart config now ≤ day → day < tomorrow now → Covered source store day

/-- The partitions of the source are of days that have begun. -/
structure Published : Prop where
  unique : Unique store.partitions
  begun : ∀ p ∈ store.partitions, p.source = source.id → p.day < tomorrow now

/-- What the schedule decides on, and why. -/
inductive Decides : Option Period → Prop
  | refresh : ¬ Fresh source config now store →
      Decides (some (window source config now (tomorrow now)))
  | backfill (day : Int) : Fresh source config now store → backfillStart config now ≤ day →
      day < tomorrow now → ¬ Covered source store day →
      (∀ later, day < later → later < tomorrow now → Covered source store later) →
      Decides (some (window source config now (day + 1)))
  | revisit (day : Int) : Fresh source config now store → Backfilled source config now store →
      retainedStart config now ≤ day → Stale source now store day →
      Decides (some ⟨day, day + 1⟩)
  | done : Fresh source config now store → Backfilled source config now store →
      (∀ day, retainedStart config now ≤ day → ¬ Stale source now store day) → Decides none

/-- The loaded rows are those of the retained days. -/
structure Lists (rows : List (Int × Option Time)) : Prop where
  few : rows.length ≤ 730
  nodup : (rows.map Prod.fst).Nodup
  mem : ∀ row, row ∈ rows ↔ ∃ p ∈ store.partitions, p.source = source.id
    ∧ retainedStart config now ≤ p.day ∧ (p.day, store.publishedAt p.importId) = row

end

section

variable {source : Source} {config : Config} {now : Time} {store : Store}
  {rows : List (Int × Option Time)}

theorem Config.validate_iff : config.validate = true ↔
    900 ≤ config.interval ∧ config.interval ≤ 86400 ∧ 1 ≤ config.backfill
      ∧ config.backfill ≤ 400 ∧ config.backfill ≤ config.retention ∧ config.retention ≤ 730 := by
  simp [Config.validate, and_assoc]

theorem retainedStart_le (hvalid : config.validate = true) :
    retainedStart config now ≤ backfillStart config now := by
  obtain ⟨-, -, -, -, hle, -⟩ := Config.validate_iff.mp hvalid
  rw [retainedStart, backfillStart]
  omega

theorem lists_of_loads (hvalid : config.validate = true) (h : Published source now store)
    (hrows : Loads source config now store rows) : Lists source config now store rows := by
  obtain ⟨all, hperm, rfl⟩ := hrows
  have hretention := (Config.validate_iff.mp hvalid).2.2.2.2.2
  have hmem : ∀ row, row ∈ rowsOf source config now store ↔
      ∃ p ∈ store.partitions, p.source = source.id ∧ retainedStart config now ≤ p.day
        ∧ (p.day, store.publishedAt p.importId) = row := by
    intro row
    simp [rowsOf, List.mem_map, and_assoc]
  have hnodup : ((rowsOf source config now store).map Prod.fst).Nodup := by
    have hpairs : (store.partitions.filter fun p => decide (p.source = source.id)
        && decide (retainedStart config now ≤ p.day)).Pairwise
          fun p q => (p.source, p.day) ≠ (q.source, q.day) :=
      (List.pairwise_map.mp h.unique).filter _
    rw [rowsOf, List.map_map]
    refine List.pairwise_map.mpr (hpairs.imp_of_mem fun {p q} hp hq hne hday => hne ?_)
    have hsource : ∀ r ∈ store.partitions.filter (fun p => decide (p.source = source.id)
        && decide (retainedStart config now ≤ p.day)), r.source = source.id := by
      intro r hr
      have := (List.mem_filter.mp hr).2
      rw [Bool.and_eq_true, decide_eq_true_iff] at this
      exact this.1
    rw [Prod.mk.injEq, hsource p hp, hsource q hq]
    exact ⟨rfl, hday⟩
  have hlength : (rowsOf source config now store).length ≤ 730 := by
    have hcard := List.toFinset_card_of_nodup hnodup
    have hsub : ((rowsOf source config now store).map Prod.fst).toFinset
        ⊆ Finset.Ico (retainedStart config now) (tomorrow now) := by
      intro day hday
      rw [List.mem_toFinset, List.mem_map] at hday
      obtain ⟨row, hrow, rfl⟩ := hday
      obtain ⟨p, hp, hsource, hday, rfl⟩ := (hmem row).mp hrow
      exact Finset.mem_Ico.mpr ⟨hday, h.begun p hp hsource⟩
    have hle := Finset.card_le_card hsub
    rw [hcard, List.length_map, Int.card_Ico, retainedStart] at hle
    omega
  rw [List.take_of_length_le (by rw [hperm.length_eq]; omega)]
  exact ⟨by rw [hperm.length_eq]; exact hlength, (hperm.map Prod.fst).nodup_iff.mpr hnodup,
    fun row => by rw [hperm.mem_iff, hmem]⟩

theorem Lists.covered (hl : Lists source config now store rows) {day : Int}
    (hday : retainedStart config now ≤ day) :
    (rows.any fun row => row.1 == day) = true ↔ Covered source store day := by
  rw [List.any_eq_true]
  constructor
  · rintro ⟨row, hrow, heq⟩
    obtain ⟨p, hp, hsource, -, rfl⟩ := (hl.mem row).mp hrow
    exact ⟨p, hp, hsource, by simpa using heq⟩
  · rintro ⟨p, hp, hsource, rfl⟩
    exact ⟨_, (hl.mem _).mpr ⟨p, hp, hsource, hday, rfl⟩, by simp⟩

/-- The row of a day is the only one. -/
theorem Lists.row_unique (hl : Lists source config now store rows) {a b : Int × Option Time}
    (ha : a ∈ rows) (hb : b ∈ rows) (hday : a.1 = b.1) : a = b :=
  List.inj_on_of_nodup_map hl.nodup ha hb hday

/-- Today is refreshed unless it is fresh. -/
theorem Lists.recent (hl : Lists source config now store rows)
    (hday : retainedStart config now ≤ dateNaive now) :
    (((rows.find? (·.1 == dateNaive now)).bind Prod.snd).all fun published =>
      decide (cadence source config ≤ numSeconds now published)) = true ↔
        ¬ Fresh source config now store := by
  constructor
  · rintro hall ⟨p, hp, hsource, hp', published, hpublished, hlt⟩
    have hrow : (dateNaive now, some published) ∈ rows :=
      (hl.mem _).mpr ⟨p, hp, hsource, hp' ▸ hday, by rw [hp', hpublished]⟩
    cases hfind : rows.find? (·.1 == dateNaive now) with
    | none =>
        have := List.find?_eq_none.mp hfind _ hrow
        simp at this
    | some row =>
        have hday' : row.1 = dateNaive now := by simpa using List.find?_some hfind
        have heq := hl.row_unique (List.mem_of_find?_eq_some hfind) hrow hday'
        rw [hfind, heq, Option.bind_some, Option.all_some, decide_eq_true_iff] at hall
        exact not_lt.mpr hall hlt
  · intro hfresh
    cases hfind : rows.find? (·.1 == dateNaive now) with
    | none => rfl
    | some row =>
        obtain ⟨p, hp, hsource, -, rfl⟩ := (hl.mem row).mp (List.mem_of_find?_eq_some hfind)
        have hday' : p.day = dateNaive now := by simpa using List.find?_some hfind
        rw [Option.bind_some]
        cases hpublished : store.publishedAt p.importId with
        | none => rfl
        | some published =>
            rw [Option.all_some, decide_eq_true_iff]
            by_contra hlt
            exact hfresh ⟨p, hp, hsource, hday', published, hpublished, not_le.mp hlt⟩

theorem Lists.stale (hl : Lists source config now store rows) {row : Int × Time} :
    row ∈ rows.filterMap (staleRow now) ↔ ∃ p ∈ store.partitions, p.source = source.id
      ∧ retainedStart config now ≤ p.day ∧ p.day = row.1
      ∧ store.publishedAt p.importId = some row.2 ∧ 30 ≤ numDays now row.2 := by
  rw [List.mem_filterMap]
  constructor
  · rintro ⟨loaded, hloaded, hrow⟩
    obtain ⟨p, hp, hsource, hday, rfl⟩ := (hl.mem loaded).mp hloaded
    rw [staleRow] at hrow
    cases hpublished : store.publishedAt p.importId with
    | none =>
        rw [hpublished] at hrow
        cases hrow
    | some published =>
        rw [hpublished, Option.bind_some] at hrow
        by_cases hold : 30 ≤ numDays now published
        · rw [if_pos hold, Option.some.injEq] at hrow
          subst hrow
          exact ⟨p, hp, hsource, hday, rfl, hpublished, hold⟩
        · rw [if_neg hold] at hrow
          cases hrow
  · rintro ⟨p, hp, hsource, hday, hday', hpublished, hold⟩
    refine ⟨_, (hl.mem _).mpr ⟨p, hp, hsource, hday, rfl⟩, ?_⟩
    rw [staleRow, hpublished, Option.bind_some, if_pos hold, hday']

/-- The first offset without a row is the newest missing day. -/
theorem Lists.missing (hl : Lists source config now store rows)
    (hstart : retainedStart config now ≤ backfillStart config now) {offset : Nat}
    (hfind : (List.range config.backfill).find? (fun offset : Nat =>
      !rows.any fun row => row.1 == tomorrow now - (offset + 1)) = some offset) :
    offset < config.backfill ∧ ¬ Covered source store (tomorrow now - (offset + 1))
      ∧ ∀ later, tomorrow now - (offset + 1) < later → later < tomorrow now →
        Covered source store later := by
  obtain ⟨hgap, hoffset, hbefore⟩ := List.find?_range_eq_some.mp hfind
  rw [List.mem_range] at hoffset
  have hretained : ∀ k : Nat, k < config.backfill →
      retainedStart config now ≤ tomorrow now - (k + 1) := by
    intro k hk
    rw [backfillStart] at hstart
    omega
  refine ⟨hoffset, ?_, fun later hlt hlater => ?_⟩
  · rw [← hl.covered (hretained offset hoffset)]
    intro hany
    rw [hany] at hgap
    cases hgap
  · obtain ⟨k, rfl⟩ : ∃ k : Nat, later = tomorrow now - (k + 1) :=
      ⟨(tomorrow now - later - 1).toNat, by omega⟩
    have hk : k < offset := by omega
    rw [← hl.covered (hretained k (hk.trans hoffset))]
    simpa using hbefore k hk

theorem Lists.backfilled (hl : Lists source config now store rows)
    (hstart : retainedStart config now ≤ backfillStart config now)
    (hfind : (List.range config.backfill).find? (fun offset : Nat =>
      !rows.any fun row => row.1 == tomorrow now - (offset + 1)) = none) :
    Backfilled source config now store := by
  intro day hday hbefore
  obtain ⟨k, rfl⟩ : ∃ k : Nat, day = tomorrow now - (k + 1) :=
    ⟨(tomorrow now - day - 1).toNat, by omega⟩
  rw [backfillStart] at hday
  rw [← hl.covered (hstart.trans hday)]
  simpa using List.find?_range_eq_none.mp hfind k (by omega)

/-- The schedule never fails, and decides as it says. -/
theorem next_decides (hvalid : config.validate = true) (h : Published source now store)
    (hrows : Loads source config now store rows) :
    ∃ next, costNextPeriod source config now rows = .ok next
      ∧ Decides source config now store next := by
  have hl := lists_of_loads hvalid h hrows
  obtain ⟨-, -, hone, -, hle, -⟩ := Config.validate_iff.mp hvalid
  have hstart : retainedStart config now ≤ backfillStart config now := retainedStart_le hvalid
  have htoday : retainedStart config now ≤ dateNaive now := by
    rw [retainedStart, tomorrow]
    omega
  have hrecent := hl.recent htoday
  rw [costNextPeriod, if_neg (not_lt.mpr hl.few)]
  by_cases hfresh : Fresh source config now store
  · rw [if_neg fun hall => hrecent.mp hall hfresh]
    cases hfind : (List.range config.backfill).find? fun offset : Nat =>
        !rows.any fun row => row.1 == tomorrow now - (offset + 1) with
    | some offset =>
        obtain ⟨hoffset, hgap, hlater⟩ := hl.missing hstart hfind
        refine ⟨_, rfl, .backfill _ hfresh ?_ (by omega) hgap hlater⟩
        rw [backfillStart]
        omega
    | none =>
        have hback := hl.backfilled hstart hfind
        cases hmin : (rows.filterMap (staleRow now)).argmin Prod.snd with
        | some row =>
            obtain ⟨p, hp, hsource, hday, hday', hpublished, hold⟩ :=
              hl.stale.mp (List.argmin_mem hmin)
            exact ⟨_, rfl, .revisit _ hfresh hback (hday' ▸ hday)
              ⟨p, hp, hsource, hday', row.2, hpublished, hold⟩⟩
        | none =>
            refine ⟨_, rfl, .done hfresh hback fun day hday hstale => ?_⟩
            obtain ⟨p, hp, hsource, hday', published, hpublished, hold⟩ := hstale
            have hrow : (day, published) ∈ rows.filterMap (staleRow now) :=
              hl.stale.mpr ⟨p, hp, hsource, hday' ▸ hday, hday', hpublished, hold⟩
            rw [List.argmin_eq_none.mp hmin] at hrow
            cases hrow
  · rw [if_pos (hrecent.mpr hfresh)]
    exact ⟨_, rfl, .refresh hfresh⟩

end

/-! ## What a publication changes -/

instance (source : Source) (store : Store) : DecidablePred (Covered source store) := fun day =>
  inferInstanceAs (Decidable (∃ p ∈ store.partitions, p.source = source.id ∧ p.day = day))

instance (source : Source) (now : Time) (store : Store) : DecidablePred (Stale source now store) :=
  fun day => inferInstanceAs (Decidable (∃ p ∈ store.partitions, p.source = source.id ∧ p.day = day
    ∧ ∃ published ∈ store.publishedAt p.importId, 30 ≤ numDays now published))

instance (source : Source) (config : Config) (now : Time) (store : Store) :
    Decidable (Fresh source config now store) :=
  inferInstanceAs (Decidable (∃ p ∈ store.partitions, p.source = source.id
    ∧ p.day = dateNaive now ∧ ∃ published ∈ store.publishedAt p.importId,
      numSeconds now published < cadence source config))

section

variable (source : Source) (config : Config) (now : Time) (store : Store)

/-- How many days of the backfill range have no partition. -/
def missing : Nat :=
  ((Finset.Ico (backfillStart config now) (tomorrow now)).filter
    fun day => ¬ Covered source store day).card

/-- How many retained days are due for a revisit. -/
def staleDays : Nat :=
  ((Finset.Ico (retainedStart config now) (tomorrow now)).filter (Stale source now store)).card

/-- The missing days, and today if it is to be refreshed. -/
def lag : Nat := missing source config now store + if Fresh source config now store then 0 else 1

/-- Today is fresh and nothing is missing. -/
def Settled : Prop := Fresh source config now store ∧ Backfilled source config now store

/-- A period of retained days. -/
structure Retained (period : Period) : Prop where
  start : retainedStart config now ≤ period.start
  some : period.start < period.stop
  stop : period.stop ≤ tomorrow now

end

section

variable {source : Source} {config : Config} {now : Time} {store next : Store} {period : Period}

theorem window_retained (hvalid : config.validate = true) {stop : Int}
    (hstart : backfillStart config now < stop) (hstop : stop ≤ tomorrow now) :
    Retained config now (window source config now stop)
      ∧ backfillStart config now ≤ (window source config now stop).start := by
  have hmin : backfillStart config now ≤ (window source config now stop).start := by
    rw [window]
    split
    · exact le_rfl
    · exact le_max_right _ _
  refine ⟨⟨(retainedStart_le hvalid).trans hmin, ?_, hstop⟩, hmin⟩
  · rw [window]
    split
    · exact hstart
    · exact max_lt (sub_lt_self stop (by decide)) hstart

/-- Every period is of retained days. -/
theorem Decides.retained (hvalid : config.validate = true) (h : Published source now store)
    (hd : Decides source config now store (some period)) : Retained config now period := by
  obtain ⟨-, -, hone, -, -, -⟩ := Config.validate_iff.mp hvalid
  cases hd with
  | refresh _ =>
      refine (window_retained hvalid ?_ le_rfl).1
      rw [backfillStart]
      omega
  | backfill day _ hday hbefore _ _ =>
      exact (window_retained hvalid (by omega) (by omega)).1
  | revisit day _ _ hday hstale =>
      obtain ⟨p, hp, hsource, rfl, -⟩ := hstale
      have := h.begun p hp hsource
      exact ⟨hday, Int.lt_succ p.day, this⟩

/-- The partitions and publication times after a publication. -/
structure Publishes (source : Source) (config : Config) (now : Time) (store next : Store)
    (period : Period) (importId : Nat) : Prop where
  mem : ∀ p, p ∈ next.partitions ↔ dateNaive now - config.retention ≤ p.day
    ∧ ((p.source = source.id ∧ p.importId = importId ∧ period.start ≤ p.day ∧ p.day < period.stop)
      ∨ p ∈ store.partitions
        ∧ ¬ (p.source = source.id ∧ period.start ≤ p.day ∧ p.day < period.stop))
  unique : Unique store.partitions → Unique next.partitions
  self : next.publishedAt importId = some now
  other : ∀ id ≠ importId, next.publishedAt id = store.publishedAt id

theorem publishes_of_ok {importId count expectedRows : Nat}
    (h : costPublish store source.id importId period count expectedRows config.retention now
      = .ok next) : Publishes source config now store next period importId := by
  rw [costPublish] at h
  split at h
  · cases h
  · cases h
    refine ⟨fun p => ?_, fun hunique => ?_, if_pos rfl, fun id hid => if_neg hid⟩
    · rw [List.mem_filter, mem_foldl_upsert, mem_periodDays, decide_eq_true_iff, and_comm]
    · exact ((List.filter_sublist).map _).nodup (unique_foldl_upsert hunique)

variable {importId : Nat}

/-- Publishing days that have begun leaves the partitions of days that have begun. A period
decided on earlier stops even earlier. -/
theorem Publishes.published (hp : Publishes source config now store next period importId)
    (hstop : period.stop ≤ tomorrow now) (h : Published source now store) :
    Published source now next := by
  refine ⟨hp.unique h.unique, fun p hmem hsource => ?_⟩
  obtain ⟨-, ⟨-, -, -, hday⟩ | ⟨hold, -⟩⟩ := (hp.mem p).mp hmem
  · exact hday.trans_le hstop
  · exact h.begun p hold hsource

theorem Publishes.covered (hp : Publishes source config now store next period importId) {day : Int}
    (hday : retainedStart config now ≤ day) :
    Covered source next day ↔
      (period.start ≤ day ∧ day < period.stop) ∨ Covered source store day := by
  have hkept : dateNaive now - config.retention ≤ day := by
    rw [retainedStart, tomorrow] at hday
    omega
  constructor
  · rintro ⟨p, hmem, hsource, rfl⟩
    obtain ⟨-, ⟨-, -, hin⟩ | ⟨hold, -⟩⟩ := (hp.mem p).mp hmem
    · exact Or.inl hin
    · exact Or.inr ⟨p, hold, hsource, rfl⟩
  · intro hor
    by_cases hin : period.start ≤ day ∧ day < period.stop
    · exact ⟨⟨source.id, day, importId⟩, (hp.mem _).mpr ⟨hkept, Or.inl ⟨rfl, rfl, hin⟩⟩, rfl, rfl⟩
    · obtain ⟨p, hold, hsource, rfl⟩ := hor.resolve_left hin
      exact ⟨p, (hp.mem p).mpr ⟨hkept, Or.inr ⟨hold, fun hkey => hin hkey.2⟩⟩, hsource, rfl⟩

theorem Publishes.stale (hp : Publishes source config now store next period importId) {day : Int}
    (hs : Stale source now next day) :
    Stale source now store day ∧ ¬ (period.start ≤ day ∧ day < period.stop) := by
  obtain ⟨p, hmem, hsource, rfl, published, hpublished, hold⟩ := hs
  have hid : p.importId ≠ importId := by
    intro heq
    rw [heq, hp.self, Option.some.injEq] at hpublished
    rw [← hpublished, numDays, numSeconds, sub_self] at hold
    revert hold
    decide
  obtain ⟨-, ⟨-, heq, -⟩ | ⟨hstored, hout⟩⟩ := (hp.mem p).mp hmem
  · exact absurd heq hid
  · rw [hp.other _ hid] at hpublished
    exact ⟨⟨p, hstored, hsource, rfl, published, hpublished, hold⟩,
      fun hin => hout ⟨hsource, hin⟩⟩

theorem Publishes.fresh (hvalid : config.validate = true)
    (hp : Publishes source config now store next period importId)
    (h : Fresh source config now store ∨ period.start ≤ dateNaive now ∧ dateNaive now < period.stop) :
    Fresh source config now next := by
  have hnow : numSeconds now now < cadence source config := by
    obtain ⟨hinterval, -⟩ := Config.validate_iff.mp hvalid
    rw [numSeconds, sub_self, cadence]
    split
    · decide
    · simp
      omega
  have hkept : dateNaive now - config.retention ≤ dateNaive now := by omega
  by_cases hin : period.start ≤ dateNaive now ∧ dateNaive now < period.stop
  · exact ⟨⟨source.id, dateNaive now, importId⟩,
      (hp.mem _).mpr ⟨hkept, Or.inl ⟨rfl, rfl, hin⟩⟩, rfl, rfl, now, hp.self, hnow⟩
  · obtain ⟨p, hstored, hsource, hday, published, hpublished, hlt⟩ := h.resolve_right hin
    have hmem : p ∈ next.partitions :=
      (hp.mem p).mpr ⟨hday ▸ hkept, Or.inr ⟨hstored, fun hkey => hin (hday ▸ hkey.2)⟩⟩
    by_cases hid : p.importId = importId
    · exact ⟨p, hmem, hsource, hday, now, hid ▸ hp.self, hnow⟩
    · exact ⟨p, hmem, hsource, hday, published, by rw [hp.other _ hid, hpublished], hlt⟩

end

/-! ## One publication -/

section

variable {source : Source} {config : Config} {now : Time} {store next : Store} {period : Period}
  {importId : Nat}

theorem Publishes.staleDays_le (hp : Publishes source config now store next period importId) :
    staleDays source config now next ≤ staleDays source config now store :=
  Finset.card_le_card (Finset.monotone_filter_right _ fun _ _ hs => (hp.stale hs).1)

/-- A publication leaves no new day missing. -/
theorem Publishes.missing_subset (hvalid : config.validate = true)
    (hp : Publishes source config now store next period importId) :
    (Finset.Ico (backfillStart config now) (tomorrow now)).filter
        (fun day => ¬ Covered source next day)
      ⊆ (Finset.Ico (backfillStart config now) (tomorrow now)).filter
        fun day => ¬ Covered source store day := by
  intro day hday
  rw [Finset.mem_filter, Finset.mem_Ico] at hday ⊢
  have hretained := (retainedStart_le hvalid).trans hday.1.1
  exact ⟨hday.1, fun hcovered => hday.2 ((hp.covered hretained).mpr (Or.inr hcovered))⟩

/-- Publishing a missing day lowers the number of missing days. -/
theorem Publishes.missing_lt (hvalid : config.validate = true)
    (hp : Publishes source config now store next period importId) {day : Int}
    (hday : backfillStart config now ≤ day) (hbefore : day < tomorrow now)
    (hgap : ¬ Covered source store day) (hin : period.start ≤ day ∧ day < period.stop) :
    missing source config now next < missing source config now store := by
  refine Finset.card_lt_card ((Finset.ssubset_iff_of_subset (hp.missing_subset hvalid)).mpr
    ⟨day, ?_, ?_⟩)
  · exact Finset.mem_filter.mpr ⟨Finset.mem_Ico.mpr ⟨hday, hbefore⟩, hgap⟩
  · intro hmem
    have hretained := (retainedStart_le hvalid).trans hday
    exact (Finset.mem_filter.mp hmem).2 ((hp.covered hretained).mpr (Or.inl hin))

/-- Publishing a stale day lowers the number of days due for a revisit. -/
theorem Publishes.staleDays_lt (h : Published source now store)
    (hp : Publishes source config now store next period importId) {day : Int}
    (hday : retainedStart config now ≤ day) (hs : Stale source now store day)
    (hin : period.start ≤ day ∧ day < period.stop) :
    staleDays source config now next < staleDays source config now store := by
  have hsub : (Finset.Ico (retainedStart config now) (tomorrow now)).filter (Stale source now next)
      ⊆ (Finset.Ico (retainedStart config now) (tomorrow now)).filter (Stale source now store) :=
    Finset.monotone_filter_right _ fun _ _ hs => (hp.stale hs).1
  have hbefore : day < tomorrow now := by
    obtain ⟨p, hmem, hsource, rfl, -⟩ := hs
    exact h.begun p hmem hsource
  refine Finset.card_lt_card ((Finset.ssubset_iff_of_subset hsub).mpr ⟨day, ?_, ?_⟩)
  · exact Finset.mem_filter.mpr ⟨Finset.mem_Ico.mpr ⟨hday, hbefore⟩, hs⟩
  · exact fun hmem => (hp.stale (Finset.mem_filter.mp hmem).2).2 hin

theorem settled_iff_lag : Settled source config now store ↔ lag source config now store = 0 := by
  rw [lag, Nat.add_eq_zero_iff, missing, Finset.card_eq_zero, Finset.filter_eq_empty_iff]
  constructor
  · rintro ⟨hfresh, hback⟩
    refine ⟨fun day hday hgap => ?_, if_pos hfresh⟩
    rw [Finset.mem_Ico] at hday
    exact hgap (hback day hday.1 hday.2)
  · rintro ⟨hnone, hzero⟩
    refine ⟨?_, fun day hday hbefore => ?_⟩
    · by_contra hfresh
      rw [if_neg hfresh] at hzero
      cases hzero
    · exact not_not.mp (hnone (Finset.mem_Ico.mpr ⟨hday, hbefore⟩))

/-- A publication settles the source or, once it is settled, revisits a stale day. -/
structure Advances (source : Source) (config : Config) (now : Time) (store next : Store)
    (period : Period) : Prop where
  published : Published source now next
  fills : ¬ Settled source config now store →
    lag source config now next < lag source config now store
      ∧ staleDays source config now next ≤ staleDays source config now store
  revisits : Settled source config now store →
    Settled source config now next
      ∧ staleDays source config now next < staleDays source config now store
      ∧ Stale source now store period.start ∧ ¬ Stale source now next period.start
      ∧ period.stop = period.start + 1

theorem Decides.advances (hvalid : config.validate = true) (h : Published source now store)
    (hd : Decides source config now store (some period))
    (hp : Publishes source config now store next period importId) :
    Advances source config now store next period := by
  have hr := hd.retained hvalid h
  have hpublished := hp.published hr.stop h
  have hstale := hp.staleDays_le
  have hmissing : missing source config now next ≤ missing source config now store :=
    Finset.card_le_card (hp.missing_subset hvalid)
  cases hd with
  | refresh hfresh =>
      have hnext : Fresh source config now next := by
        refine hp.fresh hvalid (Or.inr ⟨?_, Int.lt_succ _⟩)
        exact Int.lt_add_one_iff.mp hr.some
      refine ⟨hpublished, fun _ => ⟨?_, hstale⟩, fun hs => absurd hs.1 hfresh⟩
      rw [lag, lag, if_pos hnext, if_neg hfresh]
      omega
  | backfill day hfresh hday hbefore hgap _ =>
      have hnext : Fresh source config now next := hp.fresh hvalid (Or.inl hfresh)
      have hlt := hp.missing_lt hvalid hday hbefore hgap
        ⟨Int.lt_add_one_iff.mp hr.some, Int.lt_succ day⟩
      refine ⟨hpublished, fun _ => ⟨?_, hstale⟩, fun hs => absurd (hs.2 day hday hbefore) hgap⟩
      rw [lag, lag, if_pos hnext, if_pos hfresh]
      omega
  | revisit day hfresh hback hday hs =>
      have hin : day ≤ day ∧ day < day + 1 := ⟨le_rfl, Int.lt_succ day⟩
      have hnext : Fresh source config now next := hp.fresh hvalid (Or.inl hfresh)
      have hbackNext : Backfilled source config now next := fun other hother hbefore =>
        (hp.covered ((retainedStart_le hvalid).trans hother)).mpr
          (Or.inr (hback other hother hbefore))
      exact ⟨hpublished, fun hno => absurd ⟨hfresh, hback⟩ hno, fun _ => ⟨⟨hnext, hbackNext⟩,
        hp.staleDays_lt h hday hs hin, hs, fun hnext => (hp.stale hnext).2 hin, rfl⟩⟩

end

/-! ## Alternating schedule and publication -/

/-- A run at a fixed time: each period that is decided on is published. -/
inductive Run (source : Source) (config : Config) (now : Time) : Store → List Period → Store → Prop
  | nil (store : Store) : Run source config now store [] store
  | cons {store next last : Store} {rows : List (Int × Option Time)} {period : Period}
      {periods : List Period} {importId count expectedRows : Nat} :
      Loads source config now store rows →
      costNextPeriod source config now rows = .ok (some period) →
      costPublish store source.id importId period count expectedRows config.retention now
        = .ok next →
      Run source config now next periods last →
      Run source config now store (period :: periods) last

section

variable {source : Source} {config : Config} {now : Time} {store last : Store}
  {periods : List Period}

theorem decides_of_next (hvalid : config.validate = true) (h : Published source now store)
    {rows : List (Int × Option Time)} (hrows : Loads source config now store rows)
    {result : Option Period} (hnext : costNextPeriod source config now rows = .ok result) :
    Decides source config now store result := by
  obtain ⟨decided, hdecided, hd⟩ := next_decides hvalid h hrows
  rw [hnext, Except.ok.injEq] at hdecided
  exact hdecided ▸ hd

/-- Every publication of a run lowers the work ahead. -/
theorem Run.work (hvalid : config.validate = true) (hrun : Run source config now store periods last)
    (h : Published source now store) :
    Published source now last
      ∧ periods.length + lag source config now last + staleDays source config now last
        ≤ lag source config now store + staleDays source config now store
      ∧ (¬ Settled source config now last →
        periods.length + lag source config now last ≤ lag source config now store) := by
  induction hrun with
  | nil store => exact ⟨h, by simp, fun _ => by simp⟩
  | @cons store next last rows period periods importId count expectedRows hrows hnext hpublish _ ih =>
      have hadvances := (decides_of_next hvalid h hrows hnext).advances hvalid h
        (publishes_of_ok hpublish)
      obtain ⟨hlast, hwork, hfill⟩ := ih hadvances.published
      rw [List.length_cons]
      by_cases hsettled : Settled source config now store
      · obtain ⟨hnextSettled, hstale, -⟩ := hadvances.revisits hsettled
        have hlag := settled_iff_lag.mp hsettled
        have hlagNext := settled_iff_lag.mp hnextSettled
        refine ⟨hlast, by omega, fun hunsettled => ?_⟩
        have hzero := hfill hunsettled
        exact absurd (settled_iff_lag.mpr (by omega)) hunsettled
      · obtain ⟨hlag, hstale⟩ := hadvances.fills hsettled
        exact ⟨hlast, by omega, fun hunsettled => by have := hfill hunsettled; omega⟩

theorem lag_le (source : Source) (config : Config) (now : Time) (store : Store) :
    lag source config now store ≤ missing source config now store + 1 := by
  rw [lag]
  split <;> omega

/-- The schedule has nothing to return when the source is settled and nothing is stale. -/
theorem Decides.none_iff (h : Published source now store) {result : Option Period}
    (hd : Decides source config now store result) :
    result = none ↔ Settled source config now store ∧ staleDays source config now store = 0 := by
  rw [staleDays, Finset.card_eq_zero, Finset.filter_eq_empty_iff]
  cases hd with
  | refresh hfresh => exact ⟨nofun, fun hs => absurd hs.1.1 hfresh⟩
  | backfill day _ hday hbefore hgap _ =>
      exact ⟨nofun, fun hs => absurd (hs.1.2 day hday hbefore) hgap⟩
  | revisit day _ _ hday hstale =>
      refine ⟨nofun, fun hs => absurd hstale (hs.2 (Finset.mem_Ico.mpr ⟨hday, ?_⟩))⟩
      obtain ⟨p, hp, hsource, rfl, -⟩ := hstale
      exact h.begun p hp hsource
  | done hfresh hback hnone =>
      exact ⟨fun _ => ⟨⟨hfresh, hback⟩, fun day hday => hnone day (Finset.mem_Ico.mp hday).1⟩,
        fun _ => rfl⟩

/-- A settled source only has stale days to fetch. -/
theorem Decides.revisit_of_settled {period : Period}
    (hd : Decides source config now store (some period)) (hs : Settled source config now store) :
    period.stop = period.start + 1 ∧ Stale source now store period.start := by
  cases hd with
  | refresh hfresh => exact absurd hs.1 hfresh
  | backfill day _ hday hbefore hgap _ => exact absurd (hs.2 day hday hbefore) hgap
  | revisit day _ _ _ hstale => exact ⟨rfl, hstale⟩

/-- The day has a partition that was published just now. -/
def PublishedNow (source : Source) (now : Time) (store : Store) (day : Int) : Prop :=
  ∃ p ∈ store.partitions, p.source = source.id ∧ p.day = day
    ∧ store.publishedAt p.importId = some now

theorem Publishes.publishedNow {next : Store} {period : Period} {importId : Nat}
    (hp : Publishes source config now store next period importId) {day : Int}
    (hday : retainedStart config now ≤ day) (hin : period.start ≤ day ∧ day < period.stop) :
    PublishedNow source now next day := by
  refine ⟨⟨source.id, day, importId⟩, (hp.mem _).mpr ⟨?_, Or.inl ⟨rfl, rfl, hin⟩⟩, rfl, rfl,
    hp.self⟩
  rw [retainedStart, tomorrow] at hday
  show dateNaive now - config.retention ≤ day
  omega

/-- The backfill makes progress: periods are of retained days, the newest missing day comes
first, and alternating schedule and publication fills the range in a publication for each
missing day and one for today. After that a period is a stale day, which its publication
makes fresh, until there is none. -/
theorem backfill_spec (source : Source) (config : Config) (now : Time) (store : Store)
    (hvalid : config.validate = true) (h : Published source now store) :
    (∀ rows period, Loads source config now store rows →
        costNextPeriod source config now rows = .ok (some period) → Retained config now period)
      ∧ (Fresh source config now store → ∀ day, backfillStart config now ≤ day →
        day < tomorrow now → ¬ Covered source store day →
        (∀ later, day < later → later < tomorrow now → Covered source store later) →
        ∀ rows, Loads source config now store rows → ∃ period,
          costNextPeriod source config now rows = .ok (some period)
            ∧ period.start ≤ day ∧ day < period.stop)
      ∧ ∀ periods last, Run source config now store periods last →
        (missing source config now store + 1 ≤ periods.length → Settled source config now last)
          ∧ periods.length
            ≤ missing source config now store + 1 + staleDays source config now store
          ∧ ∀ rows, Loads source config now last rows → ∃ result,
            costNextPeriod source config now rows = .ok result
              ∧ (result = none ↔
                Settled source config now last ∧ staleDays source config now last = 0)
              ∧ (Settled source config now last → ∀ period ∈ result,
                period.stop = period.start + 1 ∧ Stale source now last period.start
                  ∧ ∀ importId count expectedRows next,
                    costPublish last source.id importId period count expectedRows
                      config.retention now = .ok next →
                    Settled source config now next
                      ∧ PublishedNow source now next period.start) := by
  refine ⟨fun rows period hrows hnext => ?_, ?_, fun periods last hrun => ?_⟩
  · exact (decides_of_next hvalid h hrows hnext).retained hvalid h
  · intro hfresh day hday hbefore hgap hlater rows hrows
    obtain ⟨result, hnext, hd⟩ := next_decides hvalid h hrows
    cases hd with
    | refresh hstale => exact absurd hfresh hstale
    | revisit _ _ hback => exact absurd (hback day hday hbefore) hgap
    | done _ hback => exact absurd (hback day hday hbefore) hgap
    | backfill newest hfresh' hnewest hnewestBefore hnewestGap hnewestLater =>
        have hsame : newest = day := by
          rcases lt_trichotomy newest day with hlt | heq | hgt
          · exact absurd (hnewestLater day hlt hbefore) hgap
          · exact heq
          · exact absurd (hlater newest hgt hnewestBefore) hnewestGap
        subst hsame
        have hr := (Decides.backfill newest hfresh' hnewest hnewestBefore hnewestGap
          hnewestLater).retained hvalid h
        exact ⟨_, hnext, Int.lt_add_one_iff.mp hr.some, Int.lt_succ newest⟩
  · obtain ⟨hlast, hwork, hfill⟩ := hrun.work hvalid h
    have hlag := lag_le source config now store
    refine ⟨fun hlength => ?_, by omega, fun rows hrows => ?_⟩
    · by_contra hunsettled
      have := hfill hunsettled
      exact hunsettled (settled_iff_lag.mpr (by omega))
    · obtain ⟨result, hnext, hd⟩ := next_decides hvalid hlast hrows
      refine ⟨result, hnext, hd.none_iff hlast, fun hsettled period hperiod => ?_⟩
      have hperiod : result = some period := hperiod
      subst hperiod
      obtain ⟨hstop, hstale⟩ := hd.revisit_of_settled hsettled
      refine ⟨hstop, hstale, fun importId count expectedRows next hpublish => ?_⟩
      have hp := publishes_of_ok hpublish
      exact ⟨((hd.advances hvalid hlast hp).revisits hsettled).1,
        hp.publishedNow (hd.retained hvalid hlast).start ⟨le_rfl, by omega⟩⟩

end

namespace August

def gcp : Source := ⟨"gcp", false⟩

/-- Yesterday and today are backfilled. -/
def config : Config := { backfillDays := some 2, retentionDays := some 60 }

def noon (day : Int) : Time := (day * 86400 + 43200) * nanosPerSecond

/-- At noon of 1 August 2026 today is fresh, yesterday is missing, and 26 June was last
published on the day after it. -/
def behind : Store where
  partitions := [⟨"gcp", 20666, 2⟩, ⟨"gcp", 20630, 1⟩]
  publishedAt id :=
    if id = 1 then some (noon 20631)
    else if id = 2 then some (noon 20666)
    else none

theorem published : Published gcp (noon 20666) behind := by
  constructor
  · show List.Nodup [("gcp", (20666 : Int)), ("gcp", 20630)]
    decide
  · decide

/-- Two publications bring the source up to date. -/
theorem caught_up : ∃ last,
    Run gcp config (noon 20666) behind [⟨20665, 20666⟩, ⟨20630, 20631⟩] last
      ∧ staleDays gcp config (noon 20666) last = 0 :=
  ⟨_, .cons ⟨_, .refl _, rfl⟩ rfl (rfl : costPublish _ _ 3 _ 1 1 _ _ = _)
    (.cons ⟨_, .refl _, rfl⟩ rfl (rfl : costPublish _ _ 4 _ 1 1 _ _ = _) (.nil _)), by decide⟩

end August

open August in
/-- The gap comes first, then the old day, and then there is nothing to fetch. -/
theorem backfill_spec_behind :
    (∀ rows period, Loads gcp config (noon 20666) behind rows →
        costNextPeriod gcp config (noon 20666) rows = .ok (some period) →
          Retained config (noon 20666) period)
      ∧ (∀ rows, Loads gcp config (noon 20666) behind rows → ∃ period,
        costNextPeriod gcp config (noon 20666) rows = .ok (some period)
          ∧ period.start ≤ 20665 ∧ 20665 < period.stop)
      ∧ ∃ last, Run gcp config (noon 20666) behind [⟨20665, 20666⟩, ⟨20630, 20631⟩] last
        ∧ Settled gcp config (noon 20666) last
        ∧ ∀ rows, Loads gcp config (noon 20666) last rows →
          costNextPeriod gcp config (noon 20666) rows = .ok none := by
  obtain ⟨hretained, hgap, hruns⟩ :=
    backfill_spec gcp config (noon 20666) behind (by decide) published
  refine ⟨hretained, ?_, ?_⟩
  · refine hgap (by decide) 20665 (by decide) (by decide) (by decide) fun later hlater hbefore => ?_
    have htoday : later = 20666 := by
      have : tomorrow (noon 20666) = 20667 := by decide
      omega
    subst htoday
    decide
  · obtain ⟨last, hrun, hstale⟩ := caught_up
    obtain ⟨hsettled, -, hnext⟩ := hruns _ last hrun
    have hmissing : missing gcp config (noon 20666) behind = 1 := by decide
    have hdone : Settled gcp config (noon 20666) last := hsettled (by rw [hmissing]; decide)
    refine ⟨last, hrun, hdone, fun rows hrows => ?_⟩
    obtain ⟨result, hresult, hnone, -⟩ := hnext rows hrows
    rw [hresult, hnone.mpr ⟨hdone, hstale⟩]

end HealthMonitor.History.CostSchedule
