import HealthMonitor.Core.Gathering

/-!
# Scanning

What a scan can do. A scan alternates two moves: it notes the verdict on an
observation and it detects the fault that the verdict reports. `scan_rule`
carries an invariant of both moves over the whole scan; `detections` lists the
findings the scan stores, in order, and the tables of findings and of retired
alarms are folds over that list.
-/

namespace HealthMonitor.State

open Policy

variable {host : Host} {job : Job} {now : Time} {scan : Scan} {obs : Observation}
  {prior : Option Observation} {finding : Finding} {l : List Observation}

/-! ## The moves -/

theorem evaluated_verdict : Evaluation.Verdict obs (evaluated host job now scan obs).2 := by
  unfold evaluated evaluateObservation
  split
  · split
    · rename_i h
      exact Capacity.evaluate_verdict (by rw [h])
    · exact Policy.evaluate_verdict
  · exact .result _

/-- One iteration of the scan: a note, and perhaps a detection. -/
theorem scanObservation_cases (host : Host) (job : Job) (now : Time) (scan : Scan)
    (obs : Observation) :
    (∃ health, (evaluated host job now scan obs).2 = result health
      ∧ scanObservation host job now scan obs = note host job now scan obs)
    ∨ ∃ rule severity confidence,
      (evaluated host job now scan obs).2 = fault obs rule severity confidence
      ∧ scanObservation host job now scan obs
        = detect host job now scan.index.prior[obs.resource]? obs
            (note host job now scan obs) (faultFinding obs rule severity confidence) := by
  have h := @evaluated_verdict host job now scan obs
  unfold scanObservation
  cases hv : (evaluated host job now scan obs).2 with
  | mk health findings =>
      rw [hv] at h
      cases h with
      | result => exact .inl ⟨health, rfl, rfl⟩
      | fault rule severity confidence =>
          exact .inr ⟨rule, severity, confidence, rfl, rfl⟩

/-- An invariant of both moves is an invariant of the scan. -/
theorem scan_rule {P : Scan → Prop}
    (hnote : ∀ scan, ∀ obs ∈ l, P scan → P (note host job now scan obs))
    (hdetect : ∀ scan, ∀ obs ∈ l, ∀ prior rule severity confidence, P scan →
      P (detect host job now prior obs scan (faultFinding obs rule severity confidence)))
    (h : P scan) : P (l.foldl (scanObservation host job now) scan) := by
  refine List.foldlRecOn l _ h ?_
  intro scan ih obs hobs
  rcases scanObservation_cases host job now scan obs with ⟨_, _, he⟩ | ⟨_, _, _, _, he⟩
  · rw [he]
    exact hnote scan obs hobs ih
  · rw [he]
    exact hdetect _ obs hobs _ _ _ _ (hnote scan obs hobs ih)

@[simp] theorem note_findings : (note host job now scan obs).findings = scan.findings := rfl

@[simp] theorem note_retired : (note host job now scan obs).retired = scan.retired := rfl

@[simp] theorem note_current : (note host job now scan obs).current = scan.current := rfl

@[simp] theorem note_operations :
    (note host job now scan obs).operations = scan.operations := rfl

@[simp] theorem note_transitions :
    (note host job now scan obs).transitions = scan.transitions := rfl

@[simp] theorem note_diagnosticBytes :
    (note host job now scan obs).diagnosticBytes = scan.diagnosticBytes := rfl

@[simp] theorem note_index : (note host job now scan obs).index
    = scan.index.recordClear obs (evaluated host job now scan obs).2.health := rfl

@[simp] theorem note_pressure : (note host job now scan obs).pressure
    = (evaluated host job now scan obs).1 := rfl

@[simp] theorem note_health : (note host job now scan obs).health
    = if assessed job obs && obs.data.isHealthEvidence then
        scan.health.insert obs.resource
          (recordedHealth (scan.index.isComplete obs)
            (evaluated host job now scan obs).2.health)
      else scan.health := rfl

@[simp] theorem detect_current : (detect host job now prior obs scan finding).current
    = finding.id :: scan.current := by
  unfold detect
  dsimp only
  split <;> rfl

@[simp] theorem detect_index :
    (detect host job now prior obs scan finding).index = scan.index := by
  unfold detect
  dsimp only
  split <;> rfl

@[simp] theorem detect_health :
    (detect host job now prior obs scan finding).health = scan.health := by
  unfold detect
  dsimp only
  split <;> rfl

@[simp] theorem detect_pressure :
    (detect host job now prior obs scan finding).pressure = scan.pressure := by
  unfold detect
  dsimp only
  split <;> rfl

theorem detect_operations : (detect host job now prior obs scan finding).operations
    = if refuses job scan.findings finding.id then truncateOperations scan.operations
      else scan.operations := by
  unfold detect
  dsimp only
  split <;> rfl

/-! ## Detections -/

/-- The findings stored while one verdict is looked at. -/
def accepted (host : Host) (job : Job) (now : Time) (prior : Option Observation)
    (obs : Observation) : Scan → List Finding → List Finding
  | _, [] => []
  | scan, f :: fs =>
      (if refuses job scan.findings f.id then [] else [recorded host job prior obs scan f])
        ++ accepted host job now prior obs (detect host job now prior obs scan f) fs

/-- The findings stored while the observations are scanned, in order. -/
def detections (host : Host) (job : Job) (now : Time) :
    Scan → List Observation → List Finding
  | _, [] => []
  | scan, obs :: rest =>
      accepted host job now scan.index.prior[obs.resource]? obs
          (note host job now scan obs) (evaluated host job now scan obs).2.findings
        ++ detections host job now (scanObservation host job now scan obs) rest

/-- A finding that a job detected in an observation. -/
structure Detected (job : Job) (obs : Observation) (f : Finding) : Prop where
  id : f.id = obs.resource ++ "/" ++ f.rule
  resource : f.resource = obs.resource
  evidence : f.evidence = [obs.operation]
  observedAt : f.observedAt = obs.observedAt
  check : f.check = some job.check
  fresh : f.stale = false
  clearCount : f.clearCount = 0

theorem recorded_detected (rule : String) (severity : Severity) (confidence : Confidence) :
    Detected job obs
      (recorded host job prior obs scan (faultFinding obs rule severity confidence)) :=
  ⟨rfl, rfl, rfl, rfl, rfl, rfl, rfl⟩

theorem accepted_detected (e : Evaluation) (h : Evaluation.Verdict obs e) :
    ∀ f ∈ accepted host job now prior obs scan e.findings, Detected job obs f := by
  intro f hf
  cases h with
  | result => cases hf
  | fault rule severity confidence =>
      simp only [fault, accepted, List.append_nil] at hf
      split at hf
      · cases hf
      · rw [List.mem_singleton] at hf
        exact hf ▸ recorded_detected ..

/-- Every detection is a fault of a scanned observation. -/
theorem detections_detected (l : List Observation) : ∀ scan : Scan,
    ∀ f ∈ detections host job now scan l, ∃ obs ∈ l, Detected job obs f := by
  induction l with
  | nil => intro scan f hf; cases hf
  | cons obs rest ih =>
      intro scan f hf
      rcases List.mem_append.mp hf with hf | hf
      · exact ⟨obs, by simp, accepted_detected _ evaluated_verdict f hf⟩
      · obtain ⟨o, ho, h⟩ := ih _ f hf
        exact ⟨o, by simp [ho], h⟩

/-- What the detections do to the two tables of alarms, and to the ids seen. -/
structure Stores (scan after : Scan) (ds : List Finding) : Prop where
  findings : after.findings = ds.foldl (fun table f => table.insert f.id f) scan.findings
  retired : after.retired = ds.foldl (fun table f => table.erase f.id) scan.retired
  current : ∀ f ∈ ds, f.id ∈ after.current
  grows : ∀ id ∈ scan.current, id ∈ after.current
  /-- Only an id without a finding can be seen and refused. -/
  seen : ∀ id ∈ after.current, id ∈ scan.current ∨ (∃ f ∈ ds, f.id = id) ∨ id ∉ scan.findings

theorem Stores.trans {a b c : Scan} {ds es : List Finding} (h : Stores a b ds)
    (h' : Stores b c es) : Stores a c (ds ++ es) where
  findings := by rw [h'.findings, h.findings, List.foldl_append]
  retired := by rw [h'.retired, h.retired, List.foldl_append]
  current := fun f hf => by
    rcases List.mem_append.mp hf with hf | hf
    · exact h'.grows _ (h.current f hf)
    · exact h'.current f hf
  grows := fun id hid => h'.grows id (h.grows id hid)
  seen := fun id hid => by
    rcases h'.seen id hid with hid | ⟨f, hf, he⟩ | hnot
    · rcases h.seen id hid with hid | ⟨f, hf, he⟩ | hnot
      · exact .inl hid
      · exact .inr (.inl ⟨f, List.mem_append_left _ hf, he⟩)
      · exact .inr (.inr hnot)
    · exact .inr (.inl ⟨f, List.mem_append_right _ hf, he⟩)
    · -- inserting findings forgets no key
      refine .inr (.inr fun hmem => hnot ?_)
      obtain ⟨v, hv⟩ := Table.mem_iff_getElem?.mp hmem
      rw [h.findings, Table.mem_iff_getElem?, Table.getElem?_foldl_insert Finding.id fun f => f]
      cases ds.findRev? (·.id == id) with
      | some f => exact ⟨f, rfl⟩
      | none => exact ⟨v, hv⟩

theorem detect_stores : Stores scan (detect host job now prior obs scan finding)
    (if refuses job scan.findings finding.id then []
      else [recorded host job prior obs scan finding]) := by
  have hid : (recorded host job prior obs scan finding).id = finding.id := rfl
  refine ⟨?_, ?_, ?_, fun id h => by simp [h], ?_⟩
  · unfold detect
    dsimp only
    split <;> rfl
  · unfold detect
    dsimp only
    split <;> rfl
  · intro f hf
    split at hf
    · cases hf
    · rw [List.mem_singleton] at hf
      simp [hf, hid]
  · intro id hin
    rw [detect_current] at hin
    rcases List.mem_cons.mp hin with rfl | hin
    · split
      · rename_i href
        simp only [refuses, Bool.and_eq_true, Option.isNone_iff_eq_none] at href
        refine .inr (.inr fun hmem => ?_)
        obtain ⟨v, hv⟩ := Table.mem_iff_getElem?.mp hmem
        rw [href.1] at hv
        cases hv
      · exact .inr (.inl ⟨_, List.mem_singleton_self _, hid⟩)
    · exact .inl hin

theorem accepted_stores (fs : List Finding) : ∀ scan : Scan,
    Stores scan (fs.foldl (detect host job now prior obs) scan)
      (accepted host job now prior obs scan fs) := by
  induction fs with
  | nil => exact fun _ => ⟨rfl, rfl, fun _ h => (by cases h), fun _ => id, fun _ => .inl⟩
  | cons f fs ih => exact fun scan => detect_stores.trans (ih _)

theorem detections_stores (l : List Observation) : ∀ scan : Scan,
    Stores scan (l.foldl (scanObservation host job now) scan)
      (detections host job now scan l) := by
  induction l with
  | nil => exact fun _ => ⟨rfl, rfl, fun _ h => (by cases h), fun _ => id, fun _ => .inl⟩
  | cons obs rest ih =>
      intro scan
      have hnote : Stores scan (note host job now scan obs) [] :=
        ⟨rfl, rfl, fun _ h => (by cases h), fun _ => id, fun _ => .inl⟩
      exact (hnote.trans (accepted_stores _ _)).trans (ih _)

/-! ## Looking an id up after the scan -/

section Lookup

variable {after : Scan} {ds : List Finding} {id : String}

theorem mem_of_findRev? {p : Finding → Bool} {f : Finding} (h : ds.findRev? p = some f) :
    f ∈ ds ∧ p f = true := by
  rw [List.findRev?_eq_find?_reverse] at h
  exact ⟨List.mem_reverse.mp (List.mem_of_find?_eq_some h), List.find?_some h⟩

/-- An id that was not seen keeps its finding and its retired entry. -/
theorem Stores.untouched (h : Stores scan after ds) (hid : id ∉ after.current) :
    after.findings[id]? = scan.findings[id]? ∧ after.retired[id]? = scan.retired[id]? := by
  have hne : ∀ f ∈ ds, f.id ≠ id := fun f hf he => hid (he ▸ h.current f hf)
  constructor
  · rw [h.findings, Table.getElem?_foldl_insert Finding.id]
    cases hf : ds.findRev? (·.id == id) with
    | none => rfl
    | some f =>
        obtain ⟨hmem, hp⟩ := mem_of_findRev? hf
        exact absurd (by simpa using hp) (hne f hmem)
  · rw [h.retired, Table.getElem?_foldl_erase Finding.id, if_neg]
    intro hmem
    obtain ⟨f, hf, he⟩ := List.mem_map.mp hmem
    exact hne f hf he

/-- The finding of an id is the last one detected, if there is any. -/
theorem Stores.lookup (h : Stores scan after ds) :
    after.findings[id]? = (ds.findRev? (·.id == id)).or scan.findings[id]? := by
  rw [h.findings, Table.getElem?_foldl_insert Finding.id (fun f => f)]
  simp

end Lookup

/-! ## The index during the scan -/

/-- A clearing record of the index: a scanned observation that was evaluated
as clear under a complete operation. -/
structure Clearing (host : Host) (job : Job) (now : Time) (start : Scan)
    (l : List Observation) (resource operation : String) (time : Time) : Prop where
  evidence : ∃ before obs after, l = before ++ obs :: after
    ∧ obs.resource = resource ∧ obs.operation = operation ∧ obs.observedAt = time
    ∧ (evaluated host job now (before.foldl (scanObservation host job now) start)
        obs).2.health.clear = true
  complete : operation ∈ start.index.complete

theorem Clearing.more {resource operation : String} {time : Time}
    (h : Clearing host job now scan l resource operation time) (obs : Observation) :
    Clearing host job now scan (l ++ [obs]) resource operation time := by
  obtain ⟨⟨before, o, after, hl, hrest⟩, hcomplete⟩ := h
  exact ⟨⟨before, o, after ++ [obs], by simp [hl], hrest⟩, hcomplete⟩

/-- What the scan keeps of the index: the coverage and the previous
observations are fixed, and every clearing record has its evidence. -/
structure IndexInv (host : Host) (job : Job) (now : Time) (start : Scan)
    (l : List Observation) (index : Index) : Prop where
  prior : index.prior = start.index.prior
  complete : index.complete = start.index.complete
  clear : ∀ r op t, index.clear[r]? = some (op, t) → Clearing host job now start l r op t

@[simp] theorem scanObservation_index :
    (scanObservation host job now scan obs).index
      = scan.index.recordClear obs (evaluated host job now scan obs).2.health := by
  rcases scanObservation_cases host job now scan obs with ⟨_, _, he⟩ | ⟨_, _, _, _, he⟩
  · rw [he, note_index]
  · rw [he, detect_index, note_index]

-- By induction from the end: a record is of the last observation, or older.
theorem scan_index (h : scan.index.clear = ∅) :
    IndexInv host job now scan l (l.foldl (scanObservation host job now) scan).index := by
  induction l using List.reverseRecOn with
  | nil => exact ⟨rfl, rfl, fun r op t hr => by rw [List.foldl_nil, h] at hr; simp at hr⟩
  | append_singleton l obs ih =>
      rw [List.foldl_append, List.foldl_cons, List.foldl_nil, scanObservation_index]
      unfold Index.recordClear
      split
      · rename_i hc
        simp only [Bool.and_eq_true] at hc
        refine ⟨ih.prior, ih.complete, fun r op t hr => ?_⟩
        rw [Std.ExtTreeMap.getElem?_insert] at hr
        split at hr
        · rename_i hk
          cases hr
          refine ⟨⟨l, obs, [], rfl, by simpa using hk, rfl, rfl, hc.2⟩, ?_⟩
          have hcomplete := hc.1
          rw [Index.isComplete, ih.complete] at hcomplete
          simpa using hcomplete
        · exact (ih.clear r op t hr).more obs
      · exact ⟨ih.prior, ih.complete, fun r op t hr => (ih.clear r op t hr).more obs⟩

/-! ## What the scan does not see -/

section Frame

variable {resource : String}

/-- The scan leaves the health of resources it does not see. -/
theorem scan_health_other (h : ∀ obs ∈ l, obs.resource ≠ resource) :
    (l.foldl (scanObservation host job now) scan).health[resource]?
      = scan.health[resource]? := by
  refine scan_rule (P := fun s => s.health[resource]? = scan.health[resource]?) ?_ ?_ rfl
  · intro s obs hobs ih
    rw [note_health]
    split
    · rw [Table.getElem?_insert_ne (Ne.symm (h obs hobs)), ih]
    · exact ih
  · intro s obs _ prior rule severity confidence ih
    rw [detect_health]
    exact ih

/-- The scan leaves the clocks of resources it does not see. -/
theorem scan_pressure_other (h : ∀ obs ∈ l, obs.resource ≠ resource) :
    (l.foldl (scanObservation host job now) scan).pressure[resource]?
      = scan.pressure[resource]? := by
  refine scan_rule (P := fun s => s.pressure[resource]? = scan.pressure[resource]?) ?_ ?_ rfl
  · intro s obs hobs ih
    rw [note_pressure, ← ih]
    unfold evaluated evaluateObservation
    split
    · have hframe := @Capacity.evaluate_frame s.pressure obs job.settings
        (s.index.isComplete obs) now resource (Ne.symm (h obs hobs))
      split
      · rename_i he
        rwa [he] at hframe
      · rename_i he
        rwa [he] at hframe
    · rfl
  · intro s obs _ prior rule severity confidence ih
    rw [detect_pressure]
    exact ih

/-- Every transition of the scan is about an id it has seen. -/
theorem scan_transitions (h : scan.transitions = []) :
    ∀ t ∈ (l.foldl (scanObservation host job now) scan).transitions,
      t.finding ∈ (l.foldl (scanObservation host job now) scan).current := by
  refine scan_rule (P := fun s => ∀ t ∈ s.transitions, t.finding ∈ s.current) ?_ ?_ ?_
  · exact fun s obs _ ih => ih
  · intro s obs _ prior rule severity confidence ih t ht
    rw [detect_current]
    unfold detect at ht
    dsimp only at ht
    split at ht
    · exact List.mem_cons_of_mem _ (ih t ht)
    · rcases List.mem_append.mp ht with ht | ht
      · exact List.mem_cons_of_mem _ (ih t ht)
      · obtain ⟨kind, _, rfl⟩ := Option.map_eq_some_iff.mp (Option.mem_toList.mp ht)
        exact List.mem_cons_self
  · intro t ht
    rw [h] at ht
    cases ht

end Frame

/-! ## Coverage during the scan -/

theorem truncateOperations_idem (ops : List Operation) :
    truncateOperations (truncateOperations ops) = truncateOperations ops := by
  unfold truncateOperations downgrade
  rw [List.map_map]
  refine List.map_congr_left fun op _ => ?_
  by_cases h : op.coverage = .complete <;> simp [h]

/-- The scan leaves the operations alone, or truncates them all. -/
theorem scan_operations :
    (l.foldl (scanObservation host job now) scan).operations = scan.operations
    ∨ (l.foldl (scanObservation host job now) scan).operations
      = truncateOperations scan.operations := by
  refine scan_rule (P := fun s => s.operations = scan.operations
    ∨ s.operations = truncateOperations scan.operations) ?_ ?_ (.inl rfl)
  · exact fun s obs _ ih => ih
  · intro s obs _ prior rule severity confidence ih
    rw [detect_operations]
    split
    · right
      rcases ih with ih | ih
      · rw [ih]
      · rw [ih, truncateOperations_idem]
    · exact ih

/-- Every id the scan has seen belongs to a scanned observation. -/
theorem scan_current (h : scan.current = []) :
    ∀ id ∈ (l.foldl (scanObservation host job now) scan).current,
      ∃ obs ∈ l, ∃ rule, id = obs.resource ++ "/" ++ rule := by
  refine scan_rule (P := fun s => ∀ id ∈ s.current,
    ∃ obs ∈ l, ∃ rule, id = obs.resource ++ "/" ++ rule) ?_ ?_ ?_
  · exact fun s obs _ ih => ih
  · intro s obs hobs prior rule severity confidence ih id hid
    rw [detect_current] at hid
    rcases List.mem_cons.mp hid with rfl | hid
    · exact ⟨obs, hobs, rule, rfl⟩
    · exact ih id hid
  · intro id hid
    rw [h] at hid
    cases hid

end HealthMonitor.State
