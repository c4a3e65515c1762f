import HealthMonitor.Core.Policy

/-!
# EvaluationIndex

The comparison index of one apply: the previous complete observation of each
resource, the operations that are complete, and the clearing evidence recorded
so far. Recovery requires authoritative collection.
-/

namespace HealthMonitor

/-- The ids that some operation reports as `Complete`. -/
def completeIds (ops : List Operation) : List String :=
  (ops.filter fun op => op.coverage == .complete).map Operation.id

/-- `operations.iter().any(|op| op.id == obs.operation && op.coverage ==
Complete)`. -/
def CheckResult.backs (result : CheckResult) (obs : Observation) : Bool :=
  result.operations.any fun op => op.id == obs.operation && op.coverage == .complete

structure Index where
  prior : Table Observation
  complete : List String
  clear : Table (String × Time)

namespace Index

/-- The complete observations of the replaced result, the last of each
resource. -/
def priorOf (old : Option CheckResult) : Table Observation :=
  match old with
  | none => ∅
  | some old =>
      (old.observations.filter fun obs =>
        (completeIds old.operations).contains obs.operation).foldl
          (fun prior obs => prior.insert obs.resource obs) ∅

def new (old : Option CheckResult) (operations : List Operation) : Index :=
  { prior := priorOf old
    complete := completeIds operations
    clear := ∅ }

def isComplete (index : Index) (obs : Observation) : Bool :=
  index.complete.contains obs.operation

def recordClear (index : Index) (obs : Observation) (health : Health) : Index :=
  if index.isComplete obs && health.clear then
    { index with clear := index.clear.insert obs.resource (obs.operation, obs.observedAt) }
  else index

/-- One iteration of the health downgrade in `reconcile`. -/
def downgradeHealth (complete : List String) (health : Table Health)
    (obs : Observation) : Table Health :=
  if !complete.contains obs.operation && (health[obs.resource]?).any Health.clear then
    health.insert obs.resource .unknown
  else health

/-- An evaluation limit reached later in the scan invalidates earlier clear
decisions too. -/
def reconcile (index : Index) (operations : List Operation)
    (observations : List Observation) (health : Table Health) :
    Index × Table Health :=
  let complete := completeIds operations
  ({ index with
      complete
      clear := index.clear.retain fun _ at' => complete.contains at'.1 },
    observations.foldl (downgradeHealth complete) health)

/-- The clearing evidence for a finding. -/
def clearFor (index : Index) (finding : Finding) : Option Time :=
  ((index.clear[finding.resource]?).filter fun evidence =>
    finding.evidence.contains evidence.1 && finding.observedAt < evidence.2).map Prod.snd

def canRemove (index : Index) (finding : Finding) : Bool :=
  !finding.evidence.isEmpty && finding.evidence.all index.complete.contains

end Index

/-! ## Complete operations -/

theorem mem_completeIds {ops : List Operation} {id : String} :
    id ∈ completeIds ops ↔ ∃ op ∈ ops, op.id = id ∧ op.coverage = .complete := by
  simp only [completeIds, List.mem_map, List.mem_filter, beq_iff_eq]
  constructor
  · rintro ⟨op, ⟨hm, hc⟩, rfl⟩
    exact ⟨op, hm, rfl, hc⟩
  · rintro ⟨op, hm, rfl, hc⟩
    exact ⟨op, ⟨hm, hc⟩, rfl⟩

theorem CheckResult.backs_iff {result : CheckResult} {obs : Observation} :
    result.backs obs = true ↔ obs.operation ∈ completeIds result.operations := by
  simp [CheckResult.backs, mem_completeIds]

theorem mem_downgrade {p : Operation → Bool} {coverage : Coverage}
    {ops : List Operation} {op : Operation} (h : op ∈ downgrade p coverage ops) :
    ∃ old ∈ ops, op.id = old.id ∧ op.observedAt = old.observedAt
      ∧ (op = old ∨ op.coverage = coverage) := by
  obtain ⟨old, hold, rfl⟩ := List.mem_map.mp h
  refine ⟨old, hold, ?_⟩
  split <;> simp

/-- A downgrade completes nothing. -/
theorem completeIds_downgrade {p : Operation → Bool} {coverage : Coverage}
    (hne : coverage ≠ .complete) {ops : List Operation} {id : String}
    (h : id ∈ completeIds (downgrade p coverage ops)) : id ∈ completeIds ops := by
  obtain ⟨op, hop, rfl, hc⟩ := mem_completeIds.mp h
  obtain ⟨old, hold, hid, _, rfl | hcov⟩ := mem_downgrade hop
  · exact mem_completeIds.mpr ⟨_, hold, rfl, hc⟩
  · exact absurd (hcov.symm.trans hc) hne

/-- After every operation is truncated none is complete. -/
theorem completeIds_truncateOperations (ops : List Operation) :
    completeIds (truncateOperations ops) = [] := by
  rw [List.eq_nil_iff_forall_not_mem]
  intro id h
  obtain ⟨op, hop, _, hc⟩ := mem_completeIds.mp h
  obtain ⟨old, _, rfl⟩ := List.mem_map.mp hop
  by_cases hold : old.coverage = .complete
  · simp [hold] at hc
  · simp [hold] at hc

end HealthMonitor
