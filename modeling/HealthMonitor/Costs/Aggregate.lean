import HealthMonitor.Library.Calendar
import HealthMonitor.Library.Groups
import HealthMonitor.Costs.Amount

/-!
# Aggregate

The chart of a period: rows bucketed by day or month, a point for each bucket with a row
of the period, and in it a contributor for each key. Rows of the comparison period are
moved onto the period and summed per bucket.
-/

namespace HealthMonitor.Costs

/-! ## The source -/

inductive Granularity where
  | daily | monthly
  deriving DecidableEq, Repr

/-- Days are counted from 1 January 1970; `stop` is not part of the period. -/
structure Period where
  start : Int
  stop : Int

structure Bucket (D : Type) where
  day : Int
  key : String
  amount : Amount D
  credits : Amount D

structure Contributor (D : Type) where
  key : String
  amount : Amount D
  credits : Amount D
  previous : Option (Amount D)

structure Point (D : Type) where
  date : Int
  total : Amount D
  credits : Amount D
  previous : Option (Amount D)
  contributors : List (Contributor D)

namespace Aggregate

/-- `NaiveDate::checked_add_signed`, within the range of `NaiveDate`. -/
def checkedAddSigned (day offset : Int) : Option Int :=
  if -96465293 ≤ day + offset ∧ day + offset ≤ 95026236 then some (day + offset) else none

/-- `with_day(1)`. -/
def monthStart (day : Int) : Int := day - (Calendar.ofDays day).day + 1

def bucketDay : Granularity → Int → Int
  | .daily, day => day
  | .monthly, day => monthStart day

variable {D : Type} (ops : Decimals D) (period : Period) (granularity : Granularity)

def current (row : Bucket D) : Bool := decide (period.start ≤ row.day)

def alignedDay (row : Bucket D) : Except Error Int :=
  if current period row then .ok row.day
  else
    match checkedAddSigned row.day (period.stop - period.start) with
    | some day => .ok day
    | none => .error .query

/-- The sums of a contributor with one more row. -/
def enterKey (sums : Option (Amount D × Amount D)) (row : Bucket D) :
    Except Error (Amount D × Amount D) := do
  let sums := sums.getD (Amount.zero ops, Amount.zero ops)
  let amount ← sums.1.add ops row.amount
  let credits ← sums.2.add ops row.credits
  return (amount, credits)

def enterDay (group : Option (List (String × (Amount D × Amount D)))) (row : Bucket D) :
    Except Error (List (String × (Amount D × Amount D))) :=
  Groups.alter row.key (enterKey ops · row) (group.getD [])

def enterPrior (amount : Option (Amount D)) (row : Bucket D) : Except Error (Amount D) :=
  (amount.getD (Amount.zero ops)).add ops row.amount

/-- The two maps of the loop over the rows. -/
structure Grouped (D : Type) where
  days : List (Int × List (String × (Amount D × Amount D)))
  prior : List (Int × Amount D)

def enter (grouped : Grouped D) (row : Bucket D) : Except Error (Grouped D) := do
  let aligned ← alignedDay period row
  let day := bucketDay granularity aligned
  if current period row then do
    let days ← Groups.alter day (enterDay ops · row) grouped.days
    return { grouped with days }
  else do
    let prior ← Groups.alter day (enterPrior ops · row) grouped.prior
    return { grouped with prior }

def pointOf (date : Int) (groups : List (String × (Amount D × Amount D)))
    (previous : Option (Amount D)) : Except Error (Point D) := do
  let sums ← groups.foldlM (fun (sums : Amount D × Amount D) entry => do
    let total ← sums.1.add ops entry.2.1
    let credits ← sums.2.add ops entry.2.2
    return (total, credits)) (Amount.zero ops, Amount.zero ops)
  return {
    date
    total := sums.1
    credits := sums.2
    previous
    contributors := groups.map fun entry => ⟨entry.1, entry.2.1, entry.2.2, none⟩ }

def previousOf (previousComplete : Bool) (prior : List (Int × Amount D)) (date : Int) :
    Option (Amount D) :=
  if previousComplete then some ((prior.lookup date).getD (Amount.zero ops)) else none

/-- The points of the days in turn; the comparison amount of a day is taken out of its map. -/
def points (previousComplete : Bool) :
    List (Int × List (String × (Amount D × Amount D))) → List (Int × Amount D) →
      Except Error (List (Point D))
  | [], _ => .ok []
  | (date, groups) :: days, prior => do
      let point ← pointOf ops date groups (previousOf ops previousComplete prior date)
      let rest ← points previousComplete days
        (if previousComplete then prior.filter (·.1 ≠ date) else prior)
      return point :: rest

def series (rows : List (Bucket D)) (previousComplete : Bool) : Except Error (List (Point D)) := do
  let grouped ← rows.foldlM (enter ops period granularity) ⟨[], []⟩
  points ops previousComplete grouped.days grouped.prior

def inPeriod (row : Bucket D) : Bool :=
  decide (period.start ≤ row.day) && decide (row.day < period.stop)

def total (rows : List (Bucket D)) : Except Error (Amount D) :=
  (rows.filter (inPeriod period)).foldlM (fun sum row => sum.add ops row.amount) (Amount.zero ops)

def credits (rows : List (Bucket D)) : Except Error (Amount D) :=
  (rows.filter (inPeriod period)).foldlM (fun sum row => sum.add ops row.credits) (Amount.zero ops)

/-! ## What the loops hold -/

/-- The day a row counts for, on the days of the period. -/
def shifted (row : Bucket D) : Int :=
  if current period row then row.day else row.day + (period.stop - period.start)

/-- The bucket of a row. -/
def bucketOf (row : Bucket D) : Int := bucketDay granularity (shifted period row)

def currentRows (rows : List (Bucket D)) : List (Bucket D) := rows.filter (current period)

def priorRows (rows : List (Bucket D)) : List (Bucket D) := rows.filter (!current period ·)

variable {ops period granularity}

theorem checkedAddSigned_eq {day offset sum : Int} (h : checkedAddSigned day offset = some sum) :
    sum = day + offset := by
  rw [checkedAddSigned] at h
  split at h
  · exact (Option.some.inj h).symm
  · cases h

theorem alignedDay_eq {row : Bucket D} {day : Int} (h : alignedDay period row = .ok day) :
    day = shifted period row := by
  rw [alignedDay] at h
  rw [shifted]
  by_cases hcur : current period row = true
  · rw [if_pos hcur] at h ⊢
    cases h
    rfl
  · rw [if_neg hcur] at h ⊢
    cases hsum : checkedAddSigned row.day (period.stop - period.start) with
    | none =>
        rw [hsum] at h
        cases h
    | some sum =>
        rw [hsum] at h
        cases h
        exact checkedAddSigned_eq hsum

/-- One row goes into one of the maps, at its bucket. -/
theorem enter_spec {before after : Grouped D} {row : Bucket D}
    (h : enter ops period granularity before row = .ok after) :
    (current period row = true ∧ after.prior = before.prior
        ∧ Groups.alter (bucketOf period granularity row) (enterDay ops · row) before.days
          = .ok after.days)
      ∨ (current period row = false ∧ after.days = before.days
        ∧ Groups.alter (bucketOf period granularity row) (enterPrior ops · row) before.prior
          = .ok after.prior) := by
  obtain ⟨day, hday, h⟩ := Groups.bind_eq_ok h
  have hbucket : bucketDay granularity day = bucketOf period granularity row := by
    rw [alignedDay_eq hday, bucketOf]
  rw [hbucket] at h
  cases hcur : current period row with
  | true =>
      rw [if_pos hcur] at h
      obtain ⟨days, hdays, h⟩ := Groups.bind_eq_ok h
      cases h
      exact Or.inl ⟨rfl, rfl, hdays⟩
  | false =>
      rw [if_neg (by simp [hcur])] at h
      obtain ⟨prior, hprior, h⟩ := Groups.bind_eq_ok h
      cases h
      exact Or.inr ⟨rfl, rfl, hprior⟩

theorem enter_from {rows : List (Bucket D)} {before after : Grouped D}
    (h : rows.foldlM (enter ops period granularity) before = .ok after) :
    (currentRows period rows).foldlM
        (fun days row => Groups.alter (bucketOf period granularity row) (enterDay ops · row) days)
        before.days = .ok after.days
      ∧ (priorRows period rows).foldlM
        (fun prior row =>
          Groups.alter (bucketOf period granularity row) (enterPrior ops · row) prior)
        before.prior = .ok after.prior := by
  induction rows generalizing before with
  | nil =>
      cases h
      exact ⟨rfl, rfl⟩
  | cons row rows ih =>
      rw [List.foldlM_cons] at h
      obtain ⟨next, hnext, h⟩ := Groups.bind_eq_ok h
      obtain ⟨hdays, hprior⟩ := ih h
      obtain ⟨hcur, hsame, halter⟩ | ⟨hcur, hsame, halter⟩ := enter_spec hnext
      · rw [currentRows, priorRows, List.filter_cons_of_pos hcur,
          List.filter_cons_of_neg (by simp [hcur]), List.foldlM_cons, halter, ← hsame]
        exact ⟨hdays, hprior⟩
      · rw [currentRows, priorRows, List.filter_cons_of_neg (by simp [hcur]),
          List.filter_cons_of_pos (by simp [hcur]), List.foldlM_cons, halter, ← hsame]
        exact ⟨hdays, hprior⟩

/-- The loop over the rows groups the rows of the period by bucket and key and those
before it by bucket. -/
theorem enter_groups {rows : List (Bucket D)} {grouped : Grouped D}
    (h : rows.foldlM (enter ops period granularity) ⟨[], []⟩ = .ok grouped) :
    Groups.groups (bucketOf period granularity) (enterDay ops) (currentRows period rows)
        = .ok grouped.days
      ∧ Groups.groups (bucketOf period granularity) (enterPrior ops) (priorRows period rows)
        = .ok grouped.prior :=
  enter_from h

/-- The points are made of the days in turn. -/
theorem points_spec {previousComplete : Bool}
    {days : List (Int × List (String × (Amount D × Amount D)))} {prior rest : List (Int × Amount D)}
    {ps : List (Point D)} (hdays : Groups.Sorted days)
    (hsame : ∀ day ∈ days, rest.lookup day.1 = prior.lookup day.1)
    (h : points ops previousComplete days rest = .ok ps) :
    List.Forall₂ (fun day point =>
      pointOf ops day.1 day.2 (previousOf ops previousComplete prior day.1) = .ok point) days ps := by
  induction days generalizing rest ps with
  | nil =>
      cases h
      exact List.Forall₂.nil
  | cons day days ih =>
      rw [Groups.Sorted, List.map_cons, List.pairwise_cons] at hdays
      obtain ⟨point, hpoint, h⟩ := Groups.bind_eq_ok h
      obtain ⟨tail, htail, h⟩ := Groups.bind_eq_ok h
      cases h
      rw [previousOf, hsame day List.mem_cons_self, ← previousOf] at hpoint
      refine List.Forall₂.cons hpoint (ih hdays.2 (fun next hnext => ?_) htail)
      have hne : next.1 ≠ day.1 := (hdays.1 _ (List.mem_map_of_mem hnext)).ne'
      rw [← hsame next (List.mem_cons_of_mem _ hnext)]
      cases previousComplete with
      | false => rfl
      | true => exact Groups.lookup_filter_ne hne

/-! ## The chart as sums -/

section

variable (ops period granularity) (unscaled : D → Int)

/-- The number of an amount. -/
def number (a : Amount D) : ℚ := ops.value unscaled a.decimal

def sumAmounts (rows : List (Bucket D)) : ℚ := (rows.map fun row => number ops unscaled row.amount).sum

def sumCredits (rows : List (Bucket D)) : ℚ :=
  (rows.map fun row => number ops unscaled row.credits).sum

/-- The rows of the period in a bucket. -/
def rowsAt (rows : List (Bucket D)) (date : Int) : List (Bucket D) :=
  (currentRows period rows).filter (bucketOf period granularity · = date)

/-- The rows of the comparison period in a bucket. -/
def priorAt (rows : List (Bucket D)) (date : Int) : List (Bucket D) :=
  (priorRows period rows).filter (bucketOf period granularity · = date)

/-- A contributor has the sums of its rows. -/
structure Contributes (group : List (Bucket D)) (c : Contributor D) : Prop where
  amount : number ops unscaled c.amount = sumAmounts ops unscaled (group.filter (·.key = c.key))
  credits : number ops unscaled c.credits = sumCredits ops unscaled (group.filter (·.key = c.key))
  previous : c.previous = none

/-- A point has a contributor for each key of its rows, and their sums. -/
structure Pictures (rows : List (Bucket D)) (previousComplete : Bool) (p : Point D) : Prop where
  keys : (p.contributors.map Contributor.key).Pairwise (· < ·)
  mem_keys : ∀ k, k ∈ p.contributors.map Contributor.key
    ↔ ∃ row ∈ rowsAt period granularity rows p.date, row.key = k
  contributors : ∀ c ∈ p.contributors,
    Contributes ops unscaled (rowsAt period granularity rows p.date) c
  total : number ops unscaled p.total
    = (p.contributors.map fun c => number ops unscaled c.amount).sum
  credits : number ops unscaled p.credits
    = (p.contributors.map fun c => number ops unscaled c.credits).sum
  previous : p.previous.map (number ops unscaled) =
    if previousComplete then some (sumAmounts ops unscaled (priorAt period granularity rows p.date))
    else none

/-- A chart has a point for each bucket with a row of the period. -/
structure Charts (rows : List (Bucket D)) (previousComplete : Bool) (ps : List (Point D)) :
    Prop where
  dates : (ps.map Point.date).Pairwise (· < ·)
  mem_dates : ∀ date, date ∈ ps.map Point.date
    ↔ ∃ row ∈ currentRows period rows, bucketOf period granularity row = date
  points : ∀ p ∈ ps, Pictures ops period granularity unscaled rows previousComplete p

end

section

variable {unscaled : D → Int} (h : ops.Exact unscaled)
include h

theorem number_zero : number ops unscaled (Amount.zero ops) = 0 := Amount.value_zero h

theorem number_add {a b c : Amount D} (hc : a.add ops b = .ok c) :
    number ops unscaled c = number ops unscaled a + number ops unscaled b :=
  Amount.value_add h hc

theorem enterKey_ok {sums : Option (Amount D × Amount D)} {row : Bucket D}
    {next : Amount D × Amount D}
    (hn : enterKey ops sums row = .ok next) :
    number ops unscaled next.1
        = sums.elim 0 (fun sums => number ops unscaled sums.1) + number ops unscaled row.amount
      ∧ number ops unscaled next.2
        = sums.elim 0 (fun sums => number ops unscaled sums.2) + number ops unscaled row.credits := by
  obtain ⟨amount, hamount, hn⟩ := Groups.bind_eq_ok hn
  obtain ⟨credits, hcredits, hn⟩ := Groups.bind_eq_ok hn
  cases hn
  rw [number_add h hamount, number_add h hcredits]
  cases sums with
  | none => exact ⟨by rw [Option.getD_none, number_zero h]; rfl,
      by rw [Option.getD_none, number_zero h]; rfl⟩
  | some sums => exact ⟨rfl, rfl⟩

/-- The sums a run over rows leaves at a contributor. -/
theorem run_enterKey {rows : List (Bucket D)} {sums : Option (Amount D × Amount D)}
    (hr : Groups.run (enterKey ops) rows = .ok sums) :
    sums.elim 0 (fun sums => number ops unscaled sums.1) = sumAmounts ops unscaled rows
      ∧ sums.elim 0 (fun sums => number ops unscaled sums.2) = sumCredits ops unscaled rows := by
  constructor
  · refine Groups.run_measure (fun row a ha => ?_) (fun b row a ha => (enterKey_ok h ha).1) hr
    rw [(enterKey_ok h ha).1, Option.elim_none, zero_add]
  · refine Groups.run_measure (fun row a ha => ?_) (fun b row a ha => (enterKey_ok h ha).2) hr
    rw [(enterKey_ok h ha).2, Option.elim_none, zero_add]

theorem run_enterPrior {rows : List (Bucket D)} {amount : Option (Amount D)}
    (hr : Groups.run (enterPrior ops) rows = .ok amount) :
    number ops unscaled (amount.getD (Amount.zero ops)) = sumAmounts ops unscaled rows := by
  have hsum : amount.elim 0 (number ops unscaled) = sumAmounts ops unscaled rows := by
    refine Groups.run_measure (fun row a ha => ?_) (fun b row a ha => number_add h ha) hr
    rw [number_add h ha, Option.getD_none, number_zero h, zero_add]
  rw [← hsum]
  cases amount with
  | none => exact number_zero h
  | some amount => rfl

theorem sum_entries {groups : List (String × (Amount D × Amount D))}
    {before after : Amount D × Amount D}
    (hs : groups.foldlM (fun (sums : Amount D × Amount D) entry => do
      let total ← sums.1.add ops entry.2.1
      let credits ← sums.2.add ops entry.2.2
      return (total, credits)) before = Except.ok after) :
    number ops unscaled after.1 = number ops unscaled before.1
        + (groups.map fun entry => number ops unscaled entry.2.1).sum
      ∧ number ops unscaled after.2 = number ops unscaled before.2
        + (groups.map fun entry => number ops unscaled entry.2.2).sum := by
  induction groups generalizing before with
  | nil =>
      cases hs
      simp
  | cons entry groups ih =>
      rw [List.foldlM_cons] at hs
      obtain ⟨next, hnext, hs⟩ := Groups.bind_eq_ok hs
      obtain ⟨total, htotal, hnext⟩ := Groups.bind_eq_ok hnext
      obtain ⟨credits, hcredits, hnext⟩ := Groups.bind_eq_ok hnext
      cases hnext
      obtain ⟨h1, h2⟩ := ih hs
      rw [h1, h2, number_add h htotal, number_add h hcredits, List.map_cons, List.map_cons,
        List.sum_cons, List.sum_cons, add_assoc, add_assoc]
      exact ⟨rfl, rfl⟩

/-- The sums of a point are those of its contributors. -/
theorem pointOf_ok {date : Int} {groups : List (String × (Amount D × Amount D))}
    {previous : Option (Amount D)} {p : Point D} (hp : pointOf ops date groups previous = .ok p) :
    p.date = date ∧ p.previous = previous
      ∧ p.contributors = groups.map (fun entry => ⟨entry.1, entry.2.1, entry.2.2, none⟩)
      ∧ number ops unscaled p.total = (groups.map fun entry => number ops unscaled entry.2.1).sum
      ∧ number ops unscaled p.credits
        = (groups.map fun entry => number ops unscaled entry.2.2).sum := by
  obtain ⟨sums, hsums, hp⟩ := Groups.bind_eq_ok hp
  cases hp
  have hsum := sum_entries h hsums
  simp only [number_zero h, zero_add] at hsum
  exact ⟨rfl, rfl, rfl, hsum⟩

theorem pictures_of_pointOf {rows : List (Bucket D)} {previousComplete : Bool}
    {grouped : Grouped D} {day : Int × List (String × (Amount D × Amount D))} {p : Point D}
    (hrows : rows.foldlM (enter ops period granularity) ⟨[], []⟩ = .ok grouped)
    (hday : day ∈ grouped.days)
    (hp : pointOf ops day.1 day.2 (previousOf ops previousComplete grouped.prior day.1) = .ok p) :
    Pictures ops period granularity unscaled rows previousComplete p := by
  obtain ⟨hdays, hprior⟩ := enter_groups hrows
  obtain ⟨hsorted, hruns⟩ := Groups.groups_spec hdays
  obtain ⟨hdate, hprevious, hcontributors, htotal, hcredits⟩ := pointOf_ok h hp
  have hgroup : Groups.groups Bucket.key (enterKey ops) (rowsAt period granularity rows p.date)
      = .ok day.2 := by
    have hrun := hruns day.1
    rw [Groups.lookup_of_mem hsorted hday, ← hdate] at hrun
    exact Groups.groups_of_run hrun
  obtain ⟨hkeys, hentries⟩ := Groups.groups_spec hgroup
  have hnames : p.contributors.map Contributor.key = day.2.map Prod.fst := by
    rw [hcontributors, List.map_map]
    rfl
  rw [← hdate] at hprevious
  refine ⟨by rwa [hnames], fun k => by rw [hnames, Groups.mem_keys_groups hgroup], ?_, ?_, ?_, ?_⟩
  · intro c hc
    rw [hcontributors] at hc
    obtain ⟨entry, hentry, rfl⟩ := List.mem_map.mp hc
    have hrun := hentries entry.1
    rw [Groups.lookup_of_mem hkeys hentry] at hrun
    obtain ⟨hamount, hcredit⟩ := run_enterKey h hrun
    exact ⟨hamount, hcredit, rfl⟩
  · rw [htotal, hcontributors, List.map_map]
    rfl
  · rw [hcredits, hcontributors, List.map_map]
    rfl
  · rw [hprevious, previousOf]
    cases previousComplete with
    | false => rfl
    | true =>
        have hrun := (Groups.groups_spec hprior).2 p.date
        exact congrArg some (run_enterPrior h hrun)

/-- The chart of a period. -/
theorem series_charts {rows : List (Bucket D)} {previousComplete : Bool} {ps : List (Point D)}
    (hs : series ops period granularity rows previousComplete = .ok ps) :
    Charts ops period granularity unscaled rows previousComplete ps := by
  obtain ⟨grouped, hrows, hs⟩ := Groups.bind_eq_ok hs
  have hdays := (enter_groups hrows).1
  have hsorted := (Groups.groups_spec hdays).1
  have hpoints := points_spec hsorted (fun _ _ => rfl) hs
  have hdates : ps.map Point.date = grouped.days.map Prod.fst :=
    Groups.map_eq_of_forall₂ hpoints fun _ _ hp => (pointOf_ok h hp).1
  refine ⟨by rwa [hdates], fun date => by rw [hdates, Groups.mem_keys_groups hdays], ?_⟩
  intro p hp
  obtain ⟨day, hday, hpoint⟩ := Groups.exists_of_forall₂ hpoints p hp
  exact pictures_of_pointOf h hrows hday hpoint

end

/-! ## Conservation -/

section

variable {rows : List (Bucket D)} {previousComplete : Bool} {ps : List (Point D)}
  {unscaled : D → Int}

/-- The total of a point is the sum of its rows. -/
theorem Pictures.total_eq {p : Point D}
    (hp : Pictures ops period granularity unscaled rows previousComplete p) :
    number ops unscaled p.total = sumAmounts ops unscaled (rowsAt period granularity rows p.date)
      ∧ number ops unscaled p.credits
        = sumCredits ops unscaled (rowsAt period granularity rows p.date) := by
  have hnodup : (p.contributors.map Contributor.key).Nodup := hp.keys.imp fun hlt => hlt.ne
  have hall : ∀ row ∈ rowsAt period granularity rows p.date,
      row.key ∈ p.contributors.map Contributor.key := fun row hrow =>
    (hp.mem_keys row.key).mpr ⟨row, hrow, rfl⟩
  constructor
  · rw [hp.total, sumAmounts, ← Groups.sum_all_keys _ Bucket.key hnodup hall, List.map_map]
    exact congrArg List.sum (List.map_congr_left fun c hc => (hp.contributors c hc).amount)
  · rw [hp.credits, sumCredits, ← Groups.sum_all_keys _ Bucket.key hnodup hall, List.map_map]
    exact congrArg List.sum (List.map_congr_left fun c hc => (hp.contributors c hc).credits)

theorem Charts.sum_totals (hc : Charts ops period granularity unscaled rows previousComplete ps) :
    (ps.map fun p => number ops unscaled p.total).sum
        = sumAmounts ops unscaled (currentRows period rows)
      ∧ (ps.map fun p => number ops unscaled p.credits).sum
        = sumCredits ops unscaled (currentRows period rows) := by
  have hnodup : (ps.map Point.date).Nodup := hc.dates.imp fun hlt => hlt.ne
  have hall : ∀ row ∈ currentRows period rows,
      bucketOf period granularity row ∈ ps.map Point.date := fun row hrow =>
    (hc.mem_dates _).mpr ⟨row, hrow, rfl⟩
  constructor
  · rw [sumAmounts, ← Groups.sum_all_keys _ _ hnodup hall, List.map_map]
    exact congrArg List.sum (List.map_congr_left fun p hp => (hc.points p hp).total_eq.1)
  · rw [sumCredits, ← Groups.sum_all_keys _ _ hnodup hall, List.map_map]
    exact congrArg List.sum (List.map_congr_left fun p hp => (hc.points p hp).total_eq.2)

variable (period granularity) in
/-- The rows of the comparison period in a bucket without a row of the period. -/
def droppedRows (rows : List (Bucket D)) : List (Bucket D) :=
  (priorRows period rows).filter fun row =>
    !decide (bucketOf period granularity row
      ∈ (currentRows period rows).map (bucketOf period granularity))

/-- The comparison amounts of the points miss those of the dropped rows. -/
theorem Charts.sum_previous (hc : Charts ops period granularity unscaled rows true ps) :
    (ps.map fun p => p.previous.elim 0 (number ops unscaled)).sum
        + sumAmounts ops unscaled (droppedRows period granularity rows)
      = sumAmounts ops unscaled (priorRows period rows) := by
  have hnodup : (ps.map Point.date).Nodup := hc.dates.imp fun hlt => hlt.ne
  have hprevious : (ps.map fun p => p.previous.elim 0 (number ops unscaled)).sum
      = sumAmounts ops unscaled ((priorRows period rows).filter
          (bucketOf period granularity · ∈ ps.map Point.date)) := by
    rw [sumAmounts, ← Groups.sum_keys _ _ _ hnodup, List.map_map]
    refine congrArg List.sum (List.map_congr_left fun p hp => ?_)
    have hvalue := (hc.points p hp).previous
    rw [if_pos rfl] at hvalue
    cases hprev : p.previous with
    | none =>
        rw [hprev] at hvalue
        cases hvalue
    | some a =>
        rw [hprev, Option.map_some, Option.some.injEq] at hvalue
        exact hvalue
  have hdates : ∀ row : Bucket D, decide (bucketOf period granularity row
        ∈ (currentRows period rows).map (bucketOf period granularity))
      = decide (bucketOf period granularity row ∈ ps.map Point.date) := by
    intro row
    rw [decide_eq_decide, hc.mem_dates, List.mem_map]
  rw [hprevious, sumAmounts, sumAmounts, sumAmounts, droppedRows]
  simp only [hdates]
  exact Groups.sum_filter_not _ _ _

/-! ## The order of the rows -/

variable (ops) in
/-- Contributors that are equal up to the form of their amounts. -/
structure SameContributor (a b : Contributor D) : Prop where
  key : a.key = b.key
  amount : a.amount.eq ops b.amount = true
  credits : a.credits.eq ops b.credits = true
  previous : Option.Rel (fun a b => Amount.eq ops a b = true) a.previous b.previous

variable (ops) in
structure SamePoint (a b : Point D) : Prop where
  date : a.date = b.date
  total : a.total.eq ops b.total = true
  credits : a.credits.eq ops b.credits = true
  previous : Option.Rel (fun a b => Amount.eq ops a b = true) a.previous b.previous
  contributors : List.Forall₂ (SameContributor ops) a.contributors b.contributors

theorem eq_iff_number (h : ops.Exact unscaled) {a b : Amount D} :
    a.eq ops b = true ↔ number ops unscaled a = number ops unscaled b := h.eq _ _

theorem rel_of_map_eq (h : ops.Exact unscaled) {a b : Option (Amount D)}
    (heq : a.map (number ops unscaled) = b.map (number ops unscaled)) :
    Option.Rel (fun a b => Amount.eq ops a b = true) a b := by
  cases a with
  | none =>
      cases b with
      | none => exact Option.Rel.none
      | some b => cases heq
  | some a =>
      cases b with
      | none => cases heq
      | some b => exact Option.Rel.some ((eq_iff_number h).mpr (Option.some.inj heq))

theorem sumAmounts_perm {other : List (Bucket D)} (hperm : rows.Perm other) :
    sumAmounts ops unscaled rows = sumAmounts ops unscaled other :=
  (hperm.map _).sum_eq

theorem sumCredits_perm {other : List (Bucket D)} (hperm : rows.Perm other) :
    sumCredits ops unscaled rows = sumCredits ops unscaled other :=
  (hperm.map _).sum_eq

theorem Contributes.same (h : ops.Exact unscaled) {group other : List (Bucket D)}
    (hperm : group.Perm other) {a b : Contributor D} (ha : Contributes ops unscaled group a)
    (hb : Contributes ops unscaled other b) (hkey : a.key = b.key) : SameContributor ops a b := by
  have hrows : (group.filter (·.key = a.key)).Perm (other.filter (·.key = b.key)) := by
    rw [hkey]
    exact hperm.filter _
  refine ⟨hkey, (eq_iff_number h).mpr ?_, (eq_iff_number h).mpr ?_, ?_⟩
  · rw [ha.amount, hb.amount, sumAmounts_perm hrows]
  · rw [ha.credits, hb.credits, sumCredits_perm hrows]
  · rw [ha.previous, hb.previous]
    exact Option.Rel.none

theorem Pictures.same (h : ops.Exact unscaled) {other : List (Bucket D)} (hperm : rows.Perm other)
    {a b : Point D} (ha : Pictures ops period granularity unscaled rows previousComplete a)
    (hb : Pictures ops period granularity unscaled other previousComplete b)
    (hdate : a.date = b.date) : SamePoint ops a b := by
  have hrows : (rowsAt period granularity rows a.date).Perm
      (rowsAt period granularity other b.date) := by
    rw [hdate]
    exact (hperm.filter _).filter _
  have hprior : (priorAt period granularity rows a.date).Perm
      (priorAt period granularity other b.date) := by
    rw [hdate]
    exact (hperm.filter _).filter _
  have hkeys : a.contributors.map Contributor.key = b.contributors.map Contributor.key := by
    refine Groups.eq_of_mem_iff ha.keys hb.keys fun k => ?_
    rw [ha.mem_keys, hb.mem_keys]
    simp only [hrows.mem_iff]
  refine ⟨hdate, (eq_iff_number h).mpr ?_, (eq_iff_number h).mpr ?_, rel_of_map_eq h ?_, ?_⟩
  · rw [ha.total_eq.1, hb.total_eq.1, sumAmounts_perm hrows]
  · rw [ha.total_eq.2, hb.total_eq.2, sumCredits_perm hrows]
  · rw [ha.previous, hb.previous, sumAmounts_perm hprior]
  · exact Groups.forall₂_of_map_eq hkeys fun c hc d hd hkey =>
      (ha.contributors c hc).same h hrows (hb.contributors d hd) hkey

/-- A chart depends on which rows there are, not on their order. -/
theorem Charts.same (h : ops.Exact unscaled) {other : List (Bucket D)} (hperm : rows.Perm other)
    {ps' : List (Point D)}
    (hc : Charts ops period granularity unscaled rows previousComplete ps)
    (hc' : Charts ops period granularity unscaled other previousComplete ps') :
    List.Forall₂ (SamePoint ops) ps ps' := by
  have hrows : (currentRows period rows).Perm (currentRows period other) := hperm.filter _
  have hdates : ps.map Point.date = ps'.map Point.date := by
    refine Groups.eq_of_mem_iff hc.dates hc'.dates fun date => ?_
    rw [hc.mem_dates, hc'.mem_dates]
    simp only [hrows.mem_iff]
  exact Groups.forall₂_of_map_eq hdates fun p hp p' hp' hdate =>
    (hc.points p hp).same h hperm (hc'.points p' hp') hdate

/-! ## Running totals -/

/-- Every sum of the first few numbers is small enough for an amount. -/
def InRange (l : List ℚ) : Prop := ∀ before, before <+: l → |before.sum| < 10 ^ 20

/-- A running total succeeds as long as it is small enough at every row. -/
theorem running_total {α : Type} {l : List α} (h : ops.Exact unscaled) (f : α → Amount D)
    (hkept : ∀ x ∈ l, Amount.Kept ops unscaled (f x)) {a : Amount D}
    (ha : Amount.Kept ops unscaled a) :
    (∃ t, l.foldlM (fun sum x => sum.add ops (f x)) a = .ok t) ↔
      ∀ before, before <+: l.map (fun x => number ops unscaled (f x)) →
        |number ops unscaled a + before.sum| < 10 ^ 20 := by
  induction l generalizing a with
  | nil =>
      refine ⟨fun _ before hbefore => ?_, fun _ => ⟨a, rfl⟩⟩
      rw [List.map_nil, List.prefix_nil] at hbefore
      rw [hbefore, List.sum_nil, add_zero]
      exact ha.bound
  | cons x l ih =>
      have hx := hkept x List.mem_cons_self
      have hrest : ∀ y ∈ l, Amount.Kept ops unscaled (f y) := fun y hy =>
        hkept y (List.mem_cons_of_mem _ hy)
      constructor
      · rintro ⟨t, ht⟩ before hbefore
        rw [List.foldlM_cons] at ht
        obtain ⟨next, hnext, ht⟩ := Groups.bind_eq_ok ht
        rw [List.map_cons, List.prefix_cons_iff] at hbefore
        obtain rfl | ⟨tail, rfl, htail⟩ := hbefore
        · rw [List.sum_nil, add_zero]
          exact ha.bound
        · have := (ih hrest (Amount.kept_of_fromDecimal h hnext)).mp ⟨t, ht⟩ tail htail
          rwa [number_add h hnext, add_assoc] at this
      · intro hall
        have hfirst := hall [number ops unscaled (f x)] (by simp [List.prefix_cons_iff])
        rw [List.sum_singleton] at hfirst
        obtain ⟨next, hnext⟩ := (Amount.add_eq_ok_iff h ha hx).mpr hfirst
        obtain ⟨t, ht⟩ := (ih hrest (Amount.kept_of_fromDecimal h hnext)).mpr fun tail htail => by
          have := hall (number ops unscaled (f x) :: tail)
            (by rw [List.map_cons]; exact List.prefix_cons_inj _ |>.mpr htail)
          rwa [List.sum_cons, ← add_assoc, ← number_add h hnext] at this
        refine ⟨t, ?_⟩
        rw [List.foldlM_cons, hnext]
        exact ht

theorem value_total {α : Type} {l : List α} (h : ops.Exact unscaled) (f : α → Amount D)
    {a t : Amount D} (ht : l.foldlM (fun sum x => sum.add ops (f x)) a = .ok t) :
    number ops unscaled t
      = number ops unscaled a + (l.map fun x => number ops unscaled (f x)).sum := by
  induction l generalizing a with
  | nil =>
      cases ht
      simp
  | cons x l ih =>
      rw [List.foldlM_cons] at ht
      obtain ⟨next, hnext, ht⟩ := Groups.bind_eq_ok ht
      rw [ih ht, number_add h hnext, List.map_cons, List.sum_cons, add_assoc]

theorem kept_total {α : Type} {l : List α} (h : ops.Exact unscaled) (f : α → Amount D)
    {a t : Amount D} (ha : Amount.Kept ops unscaled a)
    (ht : l.foldlM (fun sum x => sum.add ops (f x)) a = .ok t) : Amount.Kept ops unscaled t := by
  induction l generalizing a with
  | nil =>
      cases ht
      exact ha
  | cons x l ih =>
      rw [List.foldlM_cons] at ht
      obtain ⟨next, hnext, ht⟩ := Groups.bind_eq_ok ht
      exact ih (Amount.kept_of_fromDecimal h hnext) ht

/-- A running total from nothing on. -/
theorem total_ok_iff {α : Type} {l : List α} (h : ops.Exact unscaled) (f : α → Amount D)
    (hkept : ∀ x ∈ l, Amount.Kept ops unscaled (f x)) :
    (∃ t, l.foldlM (fun sum x => sum.add ops (f x)) (Amount.zero ops) = .ok t) ↔
      InRange (l.map fun x => number ops unscaled (f x)) := by
  have hrun := running_total h f hkept (Amount.kept_zero h)
  simp only [number_zero h, zero_add] at hrun
  exact hrun

theorem number_total {α : Type} {l : List α} (h : ops.Exact unscaled) (f : α → Amount D)
    {t : Amount D} (ht : l.foldlM (fun sum x => sum.add ops (f x)) (Amount.zero ops) = .ok t) :
    number ops unscaled t = (l.map fun x => number ops unscaled (f x)).sum := by
  rw [value_total h f ht, number_zero h, zero_add]

/-- The rows reach back one period's length before the period. -/
def Within (period : Period) (rows : List (Bucket D)) : Prop :=
  ∀ row ∈ rows, period.start - (period.stop - period.start) ≤ row.day ∧ row.day < period.stop

theorem inPeriod_eq_current (hwithin : Within period rows) :
    rows.filter (inPeriod period) = currentRows period rows := by
  refine List.filter_congr fun row hrow => ?_
  rw [inPeriod, current, decide_eq_true (hwithin row hrow).2, Bool.and_true]

/-! ## Running totals in any order -/

/-- The positive numbers add up to something small enough for an amount, and so do the
negative ones. -/
def Moderate (l : List ℚ) : Prop :=
  (l.filter (0 < ·)).sum < 10 ^ 20 ∧ -10 ^ 20 < (l.filter (· < 0)).sum

theorem sum_le_positives (l : List ℚ) : l.sum ≤ (l.filter (0 < ·)).sum := by
  induction l with
  | nil => exact le_refl _
  | cons x l ih =>
      by_cases hx : 0 < x
      · rw [List.filter_cons_of_pos (by simpa using hx), List.sum_cons, List.sum_cons]
        exact add_le_add_right ih x
      · rw [List.filter_cons_of_neg (by simpa using hx), List.sum_cons]
        exact (add_le_of_nonpos_left (not_lt.mp hx)).trans ih

theorem negatives_le_sum (l : List ℚ) : (l.filter (· < 0)).sum ≤ l.sum := by
  induction l with
  | nil => exact le_refl _
  | cons x l ih =>
      by_cases hx : x < 0
      · rw [List.filter_cons_of_pos (by simpa using hx), List.sum_cons, List.sum_cons]
        exact add_le_add_right ih x
      · rw [List.filter_cons_of_neg (by simpa using hx), List.sum_cons]
        exact ih.trans (le_add_of_nonneg_left (not_lt.mp hx))

theorem Moderate.abs_sum {l : List ℚ} (h : Moderate l) : |l.sum| < 10 ^ 20 :=
  abs_lt.mpr ⟨h.2.trans_le (negatives_le_sum l), (sum_le_positives l).trans_lt h.1⟩

theorem Moderate.sublist {l m : List ℚ} (h : Moderate m) (hsub : l.Sublist m) : Moderate l := by
  constructor
  · refine lt_of_le_of_lt ?_ h.1
    exact (hsub.filter _).sum_le_sum fun x hx => (of_decide_eq_true (List.mem_filter.mp hx).2).le
  · refine lt_of_lt_of_le h.2 ?_
    have hneg := ((hsub.filter (· < 0)).map Neg.neg).sum_le_sum fun x hx => by
      obtain ⟨y, hy, rfl⟩ := List.mem_map.mp hx
      exact neg_nonneg.mpr (of_decide_eq_true (List.mem_filter.mp hy).2).le
    rw [← List.sum_neg, ← List.sum_neg] at hneg
    exact neg_le_neg_iff.mp hneg

theorem Moderate.perm {l m : List ℚ} (h : Moderate l) (hperm : l.Perm m) : Moderate m := by
  rw [Moderate, ← (hperm.filter _).sum_eq, ← (hperm.filter _).sum_eq]
  exact h

theorem Moderate.inRange {l : List ℚ} (h : Moderate l) : InRange l :=
  fun _ hbefore => (h.sublist hbefore.sublist).abs_sum

/-- It is enough to sum up any of the rows first. -/
theorem moderate_of_front {α : Type} {l : List α} {f : α → ℚ}
    (h : ∀ p : α → Bool, InRange ((l.filter p ++ l.filter (!p ·)).map f)) : Moderate (l.map f) := by
  have hfront : ∀ p : α → Bool, |((l.filter p).map f).sum| < 10 ^ 20 := fun p =>
    h p _ (by rw [List.map_append]; exact List.prefix_append _ _)
  rw [Moderate, List.filter_map, List.filter_map]
  exact ⟨(abs_lt.mp (hfront fun x => 0 < f x)).2, (abs_lt.mp (hfront fun x => f x < 0)).1⟩

/-! ## Charts that are drawn -/

/-- The amounts and credits of the rows of the period are moderate, and so are the amounts
of the rows before it in each bucket. -/
structure Drawable (ops : Decimals D) (period : Period) (granularity : Granularity)
    (unscaled : D → Int) (rows : List (Bucket D)) : Prop where
  amounts : Moderate ((currentRows period rows).map fun row => number ops unscaled row.amount)
  credits : Moderate ((currentRows period rows).map fun row => number ops unscaled row.credits)
  prior : ∀ date, Moderate
    ((priorAt period granularity rows date).map fun row => number ops unscaled row.amount)

theorem Drawable.perm {other : List (Bucket D)}
    (h : Drawable ops period granularity unscaled rows) (hperm : rows.Perm other) :
    Drawable ops period granularity unscaled other where
  amounts := h.amounts.perm ((hperm.filter _).map _)
  credits := h.credits.perm ((hperm.filter _).map _)
  prior date := (h.prior date).perm (((hperm.filter _).filter _).map _)

theorem run_enterPrior_total {l : List (Bucket D)} {amount : Option (Amount D)}
    (hr : Groups.run (enterPrior ops) l = .ok amount) :
    l.foldlM (fun sum row => sum.add ops row.amount) (Amount.zero ops)
      = .ok (amount.getD (Amount.zero ops)) := by
  induction l using List.reverseRecOn generalizing amount with
  | nil =>
      cases hr
      rfl
  | append_singleton l row ih =>
      obtain ⟨before, a, hbefore, ha, rfl⟩ := Groups.run_concat hr
      rw [List.foldlM_append, ih hbefore]
      simp only [List.foldlM_cons, List.foldlM_nil, bind_pure]
      exact ha

theorem run_enterKey_totals {l : List (Bucket D)} {sums : Option (Amount D × Amount D)}
    (hr : Groups.run (enterKey ops) l = .ok sums) :
    l.foldlM (fun sum row => sum.add ops row.amount) (Amount.zero ops)
        = .ok (sums.getD (Amount.zero ops, Amount.zero ops)).1
      ∧ l.foldlM (fun sum row => sum.add ops row.credits) (Amount.zero ops)
        = .ok (sums.getD (Amount.zero ops, Amount.zero ops)).2 := by
  induction l using List.reverseRecOn generalizing sums with
  | nil =>
      cases hr
      exact ⟨rfl, rfl⟩
  | append_singleton l row ih =>
      obtain ⟨before, a, hbefore, ha, rfl⟩ := Groups.run_concat hr
      obtain ⟨amount, hamount, ha⟩ := Groups.bind_eq_ok ha
      obtain ⟨credits, hcredits, ha⟩ := Groups.bind_eq_ok ha
      cases ha
      obtain ⟨h1, h2⟩ := ih hbefore
      rw [List.foldlM_append, List.foldlM_append, h1, h2]
      simp only [List.foldlM_cons, List.foldlM_nil, bind_pure]
      exact ⟨hamount, hcredits⟩

section

variable (h : ops.Exact unscaled)

include h

/-- One more row fits where the rows up to it are moderate. -/
theorem add_ok {l before : List (Bucket D)} {row : Bucket D} (f : Bucket D → Amount D)
    (hkept : ∀ row ∈ l, Amount.Kept ops unscaled (f row))
    (hm : Moderate (l.map fun row => number ops unscaled (f row)))
    (hbefore : before ++ [row] <+: l) {t : Amount D}
    (ht : before.foldlM (fun sum row => sum.add ops (f row)) (Amount.zero ops) = .ok t) :
    ∃ next, t.add ops (f row) = .ok next := by
  have hmem : row ∈ l := hbefore.subset (by simp)
  refine (Amount.add_eq_ok_iff h (kept_total h f (Amount.kept_zero h) ht) (hkept row hmem)).mpr ?_
  have hsum := (hm.sublist (hbefore.sublist.map _)).abs_sum
  rw [List.map_append, List.sum_append, ← number_total h f ht, List.map_singleton,
    List.sum_singleton] at hsum
  exact hsum

theorem run_enterPrior_ok {l : List (Bucket D)}
    (hkept : ∀ row ∈ l, Amount.Kept ops unscaled row.amount)
    (hm : Moderate (l.map fun row => number ops unscaled row.amount)) :
    ∃ entry, Groups.run (enterPrior ops) l = .ok entry :=
  Groups.run_ok fun _ _ hbefore _ hentry =>
    add_ok h Bucket.amount hkept hm hbefore (run_enterPrior_total hentry)

theorem run_enterKey_ok {l : List (Bucket D)}
    (hkept : ∀ row ∈ l, Amount.Kept ops unscaled row.amount ∧ Amount.Kept ops unscaled row.credits)
    (hamounts : Moderate (l.map fun row => number ops unscaled row.amount))
    (hcredits : Moderate (l.map fun row => number ops unscaled row.credits)) :
    ∃ entry, Groups.run (enterKey ops) l = .ok entry := by
  refine Groups.run_ok fun before row hbefore entry hentry => ?_
  obtain ⟨h1, h2⟩ := run_enterKey_totals hentry
  obtain ⟨amount, hamount⟩ := add_ok h Bucket.amount (fun row hrow => (hkept row hrow).1) hamounts
    hbefore h1
  obtain ⟨credit, hcredit⟩ := add_ok h Bucket.credits (fun row hrow => (hkept row hrow).2) hcredits
    hbefore h2
  refine ⟨(amount, credit), ?_⟩
  simp only [enterKey, hamount, hcredit]
  rfl

variable (hkept : ∀ row ∈ rows,
  Amount.Kept ops unscaled row.amount ∧ Amount.Kept ops unscaled row.credits)
  (hd : Drawable ops period granularity unscaled rows)

include hkept hd

/-- The rows of a bucket are grouped by their keys. -/
theorem keys_ok (date : Int) :
    ∃ g, Groups.groups Bucket.key (enterKey ops) (rowsAt period granularity rows date)
      = .ok g := by
  refine Groups.groups_ok fun k => run_enterKey_ok h (fun row hrow => ?_) ?_ ?_
  · exact hkept row (List.mem_of_mem_filter (List.mem_of_mem_filter (List.mem_of_mem_filter hrow)))
  · exact hd.amounts.sublist ((List.filter_sublist.trans List.filter_sublist).map _)
  · exact hd.credits.sublist ((List.filter_sublist.trans List.filter_sublist).map _)

theorem days_ok : ∃ days, Groups.groups (bucketOf period granularity) (enterDay ops)
    (currentRows period rows) = .ok days :=
  Groups.groups_ok fun date =>
    let ⟨_, hg⟩ := keys_ok h hkept hd date
    Groups.run_of_groups hg

theorem prior_ok : ∃ prior, Groups.groups (bucketOf period granularity) (enterPrior ops)
    (priorRows period rows) = .ok prior :=
  Groups.groups_ok fun date => run_enterPrior_ok h
    (fun row hrow => (hkept row (List.mem_of_mem_filter (List.mem_of_mem_filter hrow))).1)
    (hd.prior date)

end

/-- The loop over the rows succeeds where both groupings do. -/
theorem enter_ok_from {l : List (Bucket D)} {before : Grouped D}
    (haligned : ∀ row ∈ l, ∃ day, alignedDay period row = .ok day)
    {days : List (Int × List (String × (Amount D × Amount D)))} {prior : List (Int × Amount D)}
    (hdays : (currentRows period l).foldlM
      (fun days row => Groups.alter (bucketOf period granularity row) (enterDay ops · row) days)
      before.days = .ok days)
    (hprior : (priorRows period l).foldlM
      (fun prior row => Groups.alter (bucketOf period granularity row) (enterPrior ops · row) prior)
      before.prior = .ok prior) :
    l.foldlM (enter ops period granularity) before = .ok ⟨days, prior⟩ := by
  induction l generalizing before with
  | nil =>
      cases hdays
      cases hprior
      rfl
  | cons row l ih =>
      obtain ⟨day, hday⟩ := haligned row List.mem_cons_self
      have hbucket : bucketDay granularity day = bucketOf period granularity row := by
        rw [alignedDay_eq hday, bucketOf]
      have hrest := fun r hr => haligned r (List.mem_cons_of_mem row hr)
      rw [List.foldlM_cons]
      cases hcur : current period row with
      | true =>
          rw [currentRows, List.filter_cons_of_pos hcur, List.foldlM_cons] at hdays
          rw [priorRows, List.filter_cons_of_neg (by simp [hcur])] at hprior
          obtain ⟨next, hnext, hdays⟩ := Groups.bind_eq_ok hdays
          have henter : enter ops period granularity before row
              = .ok { before with days := next } := by
            rw [enter, hday]
            show ite _ _ _ = _
            rw [if_pos hcur, hbucket, hnext]
            rfl
          rw [henter]
          exact ih hrest hdays hprior
      | false =>
          rw [currentRows, List.filter_cons_of_neg (by simp [hcur])] at hdays
          rw [priorRows, List.filter_cons_of_pos (by simp [hcur]), List.foldlM_cons] at hprior
          obtain ⟨next, hnext, hprior⟩ := Groups.bind_eq_ok hprior
          have henter : enter ops period granularity before row
              = .ok { before with prior := next } := by
            rw [enter, hday]
            show ite _ _ _ = _
            rw [if_neg (by simp [hcur]), hbucket, hnext]
            rfl
          rw [henter]
          exact ih hrest hdays hprior

theorem aligned_of_enter {l : List (Bucket D)} {before after : Grouped D}
    (hs : l.foldlM (enter ops period granularity) before = .ok after) :
    ∀ row ∈ l, ∃ day, alignedDay period row = .ok day := by
  induction l generalizing before with
  | nil => nofun
  | cons first l ih =>
      rw [List.foldlM_cons] at hs
      obtain ⟨next, hnext, hs⟩ := Groups.bind_eq_ok hs
      intro row hrow
      obtain rfl | hrow := List.mem_cons.mp hrow
      · obtain ⟨day, hday, -⟩ := Groups.bind_eq_ok hnext
        exact ⟨day, hday⟩
      · exact ih hs row hrow

theorem foldlM_pair {α : Type} {f g : α → Amount D} {l : List α} {a b t c : Amount D}
    (ht : l.foldlM (fun sum x => sum.add ops (f x)) a = .ok t)
    (hc : l.foldlM (fun sum x => sum.add ops (g x)) b = .ok c) :
    l.foldlM (fun (sums : Amount D × Amount D) x => do
      let total ← sums.1.add ops (f x)
      let credits ← sums.2.add ops (g x)
      return (total, credits)) (a, b) = .ok (t, c) := by
  induction l generalizing a b with
  | nil =>
      cases ht
      cases hc
      rfl
  | cons x l ih =>
      rw [List.foldlM_cons] at ht hc ⊢
      obtain ⟨next, hnext, ht⟩ := Groups.bind_eq_ok ht
      obtain ⟨next', hnext', hc⟩ := Groups.bind_eq_ok hc
      simp only [hnext, hnext']
      exact ih ht hc

theorem points_ok {days : List (Int × List (String × (Amount D × Amount D)))}
    (h : ∀ day ∈ days, ∀ previous, ∃ p, pointOf ops day.1 day.2 previous = .ok p)
    (prior : List (Int × Amount D)) : ∃ ps, points ops previousComplete days prior = .ok ps := by
  induction days generalizing prior with
  | nil => exact ⟨[], rfl⟩
  | cons day days ih =>
      obtain ⟨p, hp⟩ := h day List.mem_cons_self (previousOf ops previousComplete prior day.1)
      obtain ⟨rest, hrest⟩ := ih (fun d hd => h d (List.mem_cons_of_mem _ hd))
        (if previousComplete then prior.filter (·.1 ≠ day.1) else prior)
      refine ⟨p :: rest, ?_⟩
      rw [points, hp]
      simp only [hrest]
      rfl

section

variable (h : ops.Exact unscaled)
  (hkept : ∀ row ∈ rows, Amount.Kept ops unscaled row.amount ∧ Amount.Kept ops unscaled row.credits)
  (hd : Drawable ops period granularity unscaled rows)

include h hkept hd

omit hkept in
/-- The totals of the first few contributors are sums of rows of the period. -/
theorem pointOf_some {date : Int} {g : List (String × (Amount D × Amount D))}
    (hg : Groups.groups Bucket.key (enterKey ops) (rowsAt period granularity rows date) = .ok g)
    (previous : Option (Amount D)) : ∃ p, pointOf ops date g previous = .ok p := by
  obtain ⟨hsorted, hruns⟩ := Groups.groups_spec hg
  have hrun : ∀ e ∈ g, Groups.run (enterKey ops)
      ((rowsAt period granularity rows date).filter (·.key = e.1)) = .ok (some e.2) :=
    fun e he => (hruns e.1).trans (congrArg _ (Groups.lookup_of_mem hsorted he))
  have hkepts : ∀ e ∈ g, Amount.Kept ops unscaled e.2.1 ∧ Amount.Kept ops unscaled e.2.2 :=
    fun e he =>
      ⟨kept_total h Bucket.amount (Amount.kept_zero h) (run_enterKey_totals (hrun e he)).1,
      kept_total h Bucket.credits (Amount.kept_zero h) (run_enterKey_totals (hrun e he)).2⟩
  have hnodup : ∀ before, before <+: g → (before.map Prod.fst).Nodup := fun before hbefore =>
    (hsorted.imp fun hlt => hlt.ne).sublist (hbefore.sublist.map _)
  have hamounts : ∀ before, before <+: g →
      (before.map fun e => number ops unscaled e.2.1).sum = sumAmounts ops unscaled
        ((rowsAt period granularity rows date).filter (·.key ∈ before.map Prod.fst)) := by
    intro before hbefore
    rw [sumAmounts, ← Groups.sum_keys _ Bucket.key _ (hnodup before hbefore), List.map_map]
    exact congrArg List.sum (List.map_congr_left fun e he =>
      (run_enterKey h (hrun e (hbefore.subset he))).1)
  have hcredits : ∀ before, before <+: g →
      (before.map fun e => number ops unscaled e.2.2).sum = sumCredits ops unscaled
        ((rowsAt period granularity rows date).filter (·.key ∈ before.map Prod.fst)) := by
    intro before hbefore
    rw [sumCredits, ← Groups.sum_keys _ Bucket.key _ (hnodup before hbefore), List.map_map]
    exact congrArg List.sum (List.map_congr_left fun e he =>
      (run_enterKey h (hrun e (hbefore.subset he))).2)
  obtain ⟨t, ht⟩ := (total_ok_iff h (fun e : String × (Amount D × Amount D) => e.2.1)
    fun e he => (hkepts e he).1).mpr fun before hbefore => by
      obtain ⟨start, hstart, rfl⟩ := List.prefix_map_iff.mp hbefore
      rw [hamounts start hstart]
      exact (hd.amounts.sublist
        ((List.filter_sublist.trans List.filter_sublist).map _)).abs_sum
  obtain ⟨c, hc⟩ := (total_ok_iff h (fun e : String × (Amount D × Amount D) => e.2.2)
    fun e he => (hkepts e he).2).mpr fun before hbefore => by
      obtain ⟨start, hstart, rfl⟩ := List.prefix_map_iff.mp hbefore
      rw [hcredits start hstart]
      exact (hd.credits.sublist
        ((List.filter_sublist.trans List.filter_sublist).map _)).abs_sum
  unfold pointOf
  rw [foldlM_pair ht hc]
  exact ⟨_, rfl⟩

/-- The chart of drawable rows is drawn. -/
theorem series_ok (haligned : ∀ row ∈ rows, ∃ day, alignedDay period row = .ok day) :
    ∃ ps, series ops period granularity rows previousComplete = .ok ps := by
  obtain ⟨days, hdays⟩ := days_ok h hkept hd
  obtain ⟨prior, hprior⟩ := prior_ok h hkept hd
  have henter := @enter_ok_from _ ops period granularity rows ⟨[], []⟩ haligned _ _ hdays hprior
  obtain ⟨hsorted, hruns⟩ := Groups.groups_spec hdays
  obtain ⟨ps, hps⟩ := @points_ok _ ops previousComplete days (fun day hday previous => by
    have hrun := hruns day.1
    rw [Groups.lookup_of_mem hsorted hday] at hrun
    exact pointOf_some h hd (Groups.groups_of_run hrun) previous) prior
  exact ⟨ps, by rw [series, henter]; exact hps⟩

end

/-! ## The result -/

variable (ops period granularity) in
/-- In another order the chart is drawn as well, with equal amounts, and so are the totals. -/
structure SameCharts (rows other : List (Bucket D)) (previousComplete : Bool)
    (ps : List (Point D)) : Prop where
  series : ∃ ps', series ops period granularity other previousComplete = .ok ps'
    ∧ List.Forall₂ (SamePoint ops) ps ps'
  total : ∃ t t', total ops period rows = .ok t ∧ Aggregate.total ops period other = .ok t'
    ∧ t.eq ops t' = true
  credits : ∃ t t', credits ops period rows = .ok t ∧ Aggregate.credits ops period other = .ok t'
    ∧ t.eq ops t' = true

variable (ops period granularity unscaled) in
/-- What a chart is said to conserve, in any order of the rows. -/
structure Conserves (rows : List (Bucket D)) (previousComplete : Bool) (ps : List (Point D)) :
    Prop where
  total : ∃ t, total ops period rows = .ok t
    ∧ (ps.map fun p => number ops unscaled p.total).sum = number ops unscaled t
  credits : ∃ t, credits ops period rows = .ok t
    ∧ (ps.map fun p => number ops unscaled p.credits).sum = number ops unscaled t
  contributors : ∀ p ∈ ps,
    number ops unscaled p.total = (p.contributors.map fun c => number ops unscaled c.amount).sum
      ∧ number ops unscaled p.credits
        = (p.contributors.map fun c => number ops unscaled c.credits).sum
  previous : previousComplete = true →
    (ps.map fun p => p.previous.elim 0 (number ops unscaled)).sum
      = sumAmounts ops unscaled (priorRows period rows)
  order : ∀ other, rows.Perm other →
    SameCharts ops period granularity rows other previousComplete ps

section

variable (h : ops.Exact unscaled)
  (hkept : ∀ row ∈ rows, Amount.Kept ops unscaled row.amount ∧ Amount.Kept ops unscaled row.credits)
  (hwithin : Within period rows)

include h hkept hwithin

/-- The totals of the period of moderate rows. -/
theorem totals_ok (hd : Drawable ops period granularity unscaled rows) :
    (∃ t, total ops period rows = .ok t
        ∧ number ops unscaled t = sumAmounts ops unscaled (currentRows period rows))
      ∧ ∃ t, credits ops period rows = .ok t
        ∧ number ops unscaled t = sumCredits ops unscaled (currentRows period rows) := by
  rw [total, credits, inPeriod_eq_current hwithin]
  obtain ⟨t, ht⟩ := (total_ok_iff h Bucket.amount fun row hrow =>
    (hkept row (List.mem_of_mem_filter hrow)).1).mpr hd.amounts.inRange
  obtain ⟨c, hc⟩ := (total_ok_iff h Bucket.credits fun row hrow =>
    (hkept row (List.mem_of_mem_filter hrow)).2).mpr hd.credits.inRange
  exact ⟨⟨t, ht, number_total h Bucket.amount ht⟩, c, hc, number_total h Bucket.credits hc⟩

/-- Rows whose chart can be drawn in every order are moderate. -/
theorem drawable_of_order (horder : ∀ other, rows.Perm other →
    SameCharts ops period granularity rows other previousComplete ps) :
    Drawable ops period granularity unscaled rows := by
  have hperm : ∀ p : Bucket D → Bool, rows.Perm (rows.filter p ++ rows.filter (!p ·)) :=
    fun p => (List.filter_append_perm p rows).symm
  have hcurrent : ∀ p : Bucket D → Bool,
      (rows.filter p ++ rows.filter (!p ·)).filter (inPeriod period)
        = (currentRows period rows).filter p ++ (currentRows period rows).filter (!p ·) := by
    intro p
    rw [inPeriod_eq_current fun row hrow => hwithin row ((hperm p).mem_iff.mpr hrow), currentRows,
      List.filter_append, List.filter_comm, List.filter_comm (current period)]
    rfl
  have hmem : ∀ (p : Bucket D → Bool), ∀ row ∈ (currentRows period rows).filter p
      ++ (currentRows period rows).filter (!p ·), row ∈ rows := by
    intro p row hrow
    rcases List.mem_append.mp hrow with hrow | hrow <;>
      exact List.mem_of_mem_filter (List.mem_of_mem_filter hrow)
  refine ⟨moderate_of_front fun p => ?_, moderate_of_front fun p => ?_, fun date =>
    moderate_of_front fun p => ?_⟩
  · obtain ⟨-, t, -, ht, -⟩ := (horder _ (hperm p)).total
    rw [total, hcurrent] at ht
    exact (total_ok_iff h Bucket.amount fun row hrow => (hkept row (hmem p row hrow)).1).mp ⟨t, ht⟩
  · obtain ⟨-, t, -, ht, -⟩ := (horder _ (hperm p)).credits
    rw [credits, hcurrent] at ht
    exact (total_ok_iff h Bucket.credits fun row hrow => (hkept row (hmem p row hrow)).2).mp ⟨t, ht⟩
  · obtain ⟨ps', hps', -⟩ := (horder _ (hperm p)).series
    obtain ⟨grouped, hgrouped, -⟩ := Groups.bind_eq_ok hps'
    have hrun := (Groups.groups_spec (enter_groups hgrouped).2).2 date
    have hprior : (priorRows period (rows.filter p ++ rows.filter (!p ·))).filter
        (bucketOf period granularity · = date)
          = (priorAt period granularity rows date).filter p
            ++ (priorAt period granularity rows date).filter (!p ·) := by
      simp only [priorRows, priorAt, List.filter_append, List.filter_filter]
      congr 1 <;> exact List.filter_congr fun row _ => by ac_rfl
    rw [hprior] at hrun
    refine (total_ok_iff h Bucket.amount fun row hrow => ?_).mp ⟨_, run_enterPrior_total hrun⟩
    rcases List.mem_append.mp hrow with hrow | hrow <;>
      exact (hkept row (List.mem_of_mem_filter (List.mem_of_mem_filter
        (List.mem_of_mem_filter hrow)))).1

/-- Moderate rows make the same chart in every order. -/
theorem sameCharts_of_drawable (hd : Drawable ops period granularity unscaled rows)
    (hs : series ops period granularity rows previousComplete = .ok ps) {other : List (Bucket D)}
    (hperm : rows.Perm other) :
    SameCharts ops period granularity rows other previousComplete ps := by
  have hkept' : ∀ row ∈ other, Amount.Kept ops unscaled row.amount
      ∧ Amount.Kept ops unscaled row.credits := fun row hrow => hkept row (hperm.mem_iff.mpr hrow)
  have hwithin' : Within period other := fun row hrow => hwithin row (hperm.mem_iff.mpr hrow)
  have hcurrent : (currentRows period rows).Perm (currentRows period other) := hperm.filter _
  obtain ⟨grouped, hgrouped, -⟩ := Groups.bind_eq_ok hs
  obtain ⟨ps', hps'⟩ := @series_ok _ ops period granularity other previousComplete _ h hkept'
    (hd.perm hperm) fun row hrow => aligned_of_enter hgrouped row (hperm.mem_iff.mpr hrow)
  obtain ⟨⟨t, ht, hamount⟩, c, hc, hcredit⟩ := totals_ok h hkept hwithin hd
  obtain ⟨⟨t', ht', hamount'⟩, c', hc', hcredit'⟩ := totals_ok h hkept' hwithin' (hd.perm hperm)
  refine ⟨⟨ps', hps', (series_charts h hs).same h hperm (series_charts h hps')⟩,
    ⟨t, t', ht, ht', (eq_iff_number h).mpr ?_⟩, ⟨c, c', hc, hc', (eq_iff_number h).mpr ?_⟩⟩
  · rw [hamount, hamount', sumAmounts_perm hcurrent]
  · rw [hcredit, hcredit', sumCredits_perm hcurrent]

end

/-- A chart conserves its rows in every order of theirs exactly when the rows are moderate
and those of the comparison period that no point has a bucket for add up to nothing. -/
theorem conserves_iff (h : ops.Exact unscaled)
    (hkept : ∀ row ∈ rows, Amount.Obtainable ops row.amount ∧ Amount.Obtainable ops row.credits)
    (hwithin : Within period rows)
    (hs : series ops period granularity rows previousComplete = .ok ps) :
    Conserves ops period granularity unscaled rows previousComplete ps ↔
      Drawable ops period granularity unscaled rows
        ∧ (previousComplete = true →
          sumAmounts ops unscaled (droppedRows period granularity rows) = 0) := by
  have hc := series_charts h hs
  have hrows : ∀ row ∈ rows,
      Amount.Kept ops unscaled row.amount ∧ Amount.Kept ops unscaled row.credits := fun row hrow =>
    ⟨Amount.kept_obtainable h (hkept row hrow).1, Amount.kept_obtainable h (hkept row hrow).2⟩
  have hprevious : (previousComplete = true →
      (ps.map fun p => p.previous.elim 0 (number ops unscaled)).sum
        = sumAmounts ops unscaled (priorRows period rows)) ↔
      (previousComplete = true →
        sumAmounts ops unscaled (droppedRows period granularity rows) = 0) := by
    refine forall_congr' fun hcomplete => ?_
    subst hcomplete
    rw [← hc.sum_previous, left_eq_add]
  constructor
  · intro hcons
    exact ⟨drawable_of_order h hrows hwithin hcons.order, hprevious.mp hcons.previous⟩
  · rintro ⟨hd, hdropped⟩
    obtain ⟨⟨t, ht, hamount⟩, c, hcredits, hcredit⟩ := totals_ok h hrows hwithin hd
    exact {
      total := ⟨t, ht, hc.sum_totals.1.trans hamount.symm⟩
      credits := ⟨c, hcredits, hc.sum_totals.2.trans hcredit.symm⟩
      contributors := fun p hp => ⟨(hc.points p hp).total, (hc.points p hp).credits⟩
      previous := hprevious.mpr hdropped
      order := fun _ hperm => sameCharts_of_drawable h hrows hwithin hd hs hperm }

end

/-- A spend on 1 August 2026, and one on 31 July, which moves onto a day without spend. -/
def lostRows : List (Bucket (Int × Int)) :=
  [⟨20666, "gcp", ⟨(7, 0)⟩, ⟨(0, 0)⟩⟩, ⟨20665, "gcp", ⟨(5, 0)⟩, ⟨(0, 0)⟩⟩]

def lostPoints : List (Point (Int × Int)) :=
  [⟨20666, ⟨(7, 0)⟩, ⟨(0, 0)⟩, some ⟨(0, 0)⟩, [⟨"gcp", ⟨(7, 0)⟩, ⟨(0, 0)⟩, none⟩]⟩]

theorem obtainable_lostRows : ∀ row ∈ lostRows,
    Amount.Obtainable Decimals.pairs row.amount ∧ Amount.Obtainable Decimals.pairs row.credits := by
  have h7 : Amount.Obtainable Decimals.pairs ⟨(7, 0)⟩ := .fromDecimal (7, 0) rfl
  have h5 : Amount.Obtainable Decimals.pairs ⟨(5, 0)⟩ := .fromDecimal (5, 0) rfl
  intro row hrow
  rw [lostRows, List.mem_cons, List.mem_singleton] at hrow
  obtain rfl | rfl := hrow
  · exact ⟨h7, .zero⟩
  · exact ⟨h5, .zero⟩

theorem within_lostRows : Within ⟨20666, 20668⟩ lostRows := by
  unfold Within lostRows
  decide

theorem conserves_iff_lost :
    Conserves Decimals.pairs ⟨20666, 20668⟩ .daily Prod.fst lostRows true lostPoints ↔
      Drawable Decimals.pairs ⟨20666, 20668⟩ .daily Prod.fst lostRows
        ∧ (true = true →
          sumAmounts Decimals.pairs Prod.fst (droppedRows ⟨20666, 20668⟩ .daily lostRows) = 0) :=
  conserves_iff Decimals.pairs_exact obtainable_lostRows within_lostRows rfl

/-- The spend before the period is missing from the comparison. -/
theorem series_drops_prior :
    (∀ row ∈ lostRows,
        Amount.Obtainable Decimals.pairs row.amount ∧ Amount.Obtainable Decimals.pairs row.credits)
      ∧ Within ⟨20666, 20668⟩ lostRows
      ∧ series Decimals.pairs ⟨20666, 20668⟩ .daily lostRows true = .ok lostPoints
      ∧ ¬ Conserves Decimals.pairs ⟨20666, 20668⟩ .daily Prod.fst lostRows true lostPoints := by
  refine ⟨obtainable_lostRows, within_lostRows, rfl, fun hcons => ?_⟩
  exact absurd (hcons.previous rfl) (by decide +kernel)

end Aggregate

end HealthMonitor.Costs
