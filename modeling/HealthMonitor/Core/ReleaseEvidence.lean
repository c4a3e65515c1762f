import HealthMonitor.Core.EvaluationIndex

/-!
# ReleaseEvidence

Image references and the provenance facts of a snapshot: the latest current,
complete observation of every resource, with Kubernetes owner traversal over
them. Registry digests and source revisions are kept distinct.
-/

namespace HealthMonitor

/-! ## Image references -/

namespace Images

def isHexDigit (c : Char) : Bool :=
  c.isDigit || ('a' ≤ c && c ≤ 'f') || ('A' ≤ c && c ≤ 'F')

/-- A reference without digest and tag, with its registry and library made
explicit. -/
def canonical (reference : String) : Option String :=
  let reference := (Text.stripPrefix reference "docker-pullable://").getD reference
  let name := Text.head reference '@'
  let name := match Text.rsplitOnce name "/" with
    | some (path, last) => path ++ "/" ++ Text.head last ':'
    | none => Text.head name ':'
  if name = "" || 1024 < name.utf8ByteSize
      || !name.toList.all fun c => c.isAlphanum || "-._/:".toList.contains c then
    none
  else
    let first := Text.head name '/'
    if !name.toList.contains '/' then some ("docker.io/library/" ++ name)
    else if first.toList.any ['.', ':'].contains || first = "localhost" then some name
    else some ("docker.io/" ++ name)

def tag (reference : String) : Option String :=
  if reference.toList.contains '@' then none
  else
    let last := ((Text.rsplitOnce reference "/").map Prod.snd).getD reference
    (Text.splitOnce last ":").map Prod.snd

def digest (reference : String) : Option String :=
  let digest := ((Text.rsplitOnce reference "@").map Prod.snd).getD reference
  (Text.splitOnce digest ":").bind fun (algorithm, hex) =>
    if ((algorithm == "sha256" && hex.utf8ByteSize == 64)
          || (algorithm == "sha512" && hex.utf8ByteSize == 128))
        && hex.toList.all isHexDigit then
      some digest
    else none

/-- A short revision and the full one it abbreviates, ignoring case. -/
def revisionMatches (short full : String) : Bool :=
  7 ≤ short.utf8ByteSize && short.utf8ByteSize ≤ 40 && full.utf8ByteSize == 40
    && (short.toList ++ full.toList).all isHexDigit
    && (full.toList.take short.toList.length).map Char.toLower
        == short.toList.map Char.toLower

end Images

/-! ## Facts -/

structure Evidence where
  candidates : Table Observation
  expiry : Table Time
  facts : List Observation
  owners : Table (String × Option String)

namespace Evidence

def kubernetesOperations : List String :=
  ["pods", "nodes", "deployments", "statefulsets", "replicasets", "daemonsets", "jobs",
    "cronjobs", "scaledobjects"]

def sourceLimit (snapshot : Snapshot) (target : String) (obs : Observation)
    (limit : Nat) : Nat :=
  if kubernetesOperations.contains obs.operation then
    (snapshot.freshness[target ++ "/Kubernetes"]?).getD (min limit 150)
  else limit

/-- The stored results of the other jobs in key order, then the current one. -/
def inputs (snapshot : Snapshot) (job : Job) (current : CheckResult) :
    List (String × CheckResult) :=
  snapshot.results.toList.filter (·.1 != job.key) ++ [(job.key, current)]

/-- The latest observation instant of an operation id within a target. -/
def latestOperation (inputs : List (String × CheckResult)) (target id : String) :
    Option Time :=
  (inputs.flatMap fun input =>
    if input.2.target = target then
      (input.2.operations.filter (·.id == id)).map Operation.observedAt
    else []).max?

/-- The later of two observations of one resource, the new one on a tie. -/
def latest (table : Table Observation) (obs : Observation) : Table Observation :=
  match table[obs.resource]? with
  | some old => if old.observedAt ≤ obs.observedAt then table.insert obs.resource obs else table
  | none => table.insert obs.resource obs

def isImage : Data → Bool
  | .image .. => true
  | _ => false

/-- A current observation under the latest complete operation of its id. -/
def isFact (snapshot : Snapshot) (all : List (String × CheckResult)) (now : Time)
    (limit : Nat) (result : CheckResult) (obs : Observation) : Bool :=
  obs.observedAt ≤ now
    && numSeconds now obs.observedAt ≤ sourceLimit snapshot result.target obs limit
    && result.operations.any fun op =>
      op.id == obs.operation && op.coverage == .complete
        && latestOperation all result.target op.id == some op.observedAt

def limitOf (snapshot : Snapshot) (job : Job) (key : String) : Nat :=
  (snapshot.freshness[key]?).getD job.settings.freshness

/-- When the observations of each resource expire, at the latest. -/
def expiryStep (snapshot : Snapshot) (limit : Nat) (target : String)
    (table : Table Time) (obs : Observation) : Table Time :=
  match checkedAdd obs.observedAt (sourceLimit snapshot target obs limit) with
  | none => table
  | some until' =>
      match table[obs.resource]? with
      | some at' => table.insert obs.resource (max at' until')
      | none => table.insert obs.resource until'

def ownersOf (facts : List Observation) : Table (String × Option String) :=
  facts.foldl (fun table obs =>
    match obs.data, Text.stripSuffix obs.resource "/owner" with
    | .owner uid ownerUid, some resource => table.insert resource (uid, ownerUid)
    | _, _ => table) ∅

def new (snapshot : Snapshot) (job : Job) (current : CheckResult) (now : Time) :
    Evidence :=
  let all := inputs snapshot job current
  let facts := all.flatMap fun (key, result) =>
    result.observations.filter
      (isFact snapshot all now (limitOf snapshot job key) result)
  let facts := ((facts.foldl latest ∅).toList).map Prod.snd
  { candidates :=
      (all.flatMap fun (_, result) =>
        result.observations.filter fun obs => isImage obs.data).foldl latest ∅
    expiry := all.foldl (fun table (key, result) =>
      result.observations.foldl
        (expiryStep snapshot (limitOf snapshot job key) result.target) table) ∅
    facts
    owners := ownersOf facts }

/-- The artifact facts of a canonical image. -/
def artifacts (evidence : Evidence) (image : String) : List Observation :=
  evidence.facts.filter fun obs =>
    match obs.data with
    | .artifact a => a.image == image
    | _ => false

/-- The commit facts of a revision. -/
def commits (evidence : Evidence) (revision : String) : List Observation :=
  evidence.facts.filter fun obs =>
    match obs.data with
    | .commit _ known _ => known == revision
    | _ => false

/-- The owner of the controller with this uid; the last in key order wins. -/
def parent (evidence : Evidence) (target uid : String) : Option String :=
  (evidence.owners.toList.reverse.find? fun entry =>
    Text.head entry.1 '/' == target && entry.2.1 == uid).bind fun entry => entry.2.2

/-- The owner chain from `current` reaches `uid` within `fuel` steps. -/
def ownedBy (evidence : Evidence) (target uid : String) : Nat → Option String → Bool
  | 0, _ => false
  | _, none => false
  | fuel + 1, some parent =>
      parent == uid || evidence.ownedBy target uid fuel (evidence.parent target parent)

def imageBase (resource : String) : String × String :=
  (Text.rsplitOnce resource "/image/").getD (resource, "")

/-- The running images of the controller that declares `image`. -/
def runtimeImages (evidence : Evidence) (image : Observation) : List Observation :=
  let (base, container) := imageBase image.resource
  let target := Text.head image.resource '/'
  match evidence.owners[base]? with
  | none => []
  | some (uid, _) =>
      evidence.facts.filter fun candidate =>
        Text.startsWith candidate.resource (target ++ "/")
          && (match candidate.data with
              | .image _ digest _ => digest.isSome
              | _ => false)
          && (imageBase candidate.resource).2 == container
          && match evidence.owners[(imageBase candidate.resource).1]? with
             | some (_, owner) => evidence.ownedBy target uid 64 owner
             | none => false

def inactive (evidence : Evidence) (image : Observation) : Bool :=
  image.inactive || evidence.facts.any fun obs =>
    obs.resource == (imageBase image.resource).1
      && match obs.data with
         | .workload w => w.desired == 0
         | .schedule s => s.active == 0
         | .job run => run.complete
         | _ => false

/-- A rollout of the controller is still within its grace period. -/
def grace (evidence : Evidence) (image : Observation) (job : Job) (now : Time) : Bool :=
  let base := (imageBase image.resource).1
  evidence.facts.any fun obs =>
    let created := match obs.data with
      | .workload w => if obs.resource = base then w.createdAt else none
      | .pod pod =>
          if Text.startsWith obs.resource (base ++ "/") then pod.createdAt else none
      | _ => none
    created.any fun t =>
      0 ≤ numSeconds now t && numSeconds now t < job.settings.rolloutGrace.seconds

/-- The image observations of a target, one a resource. -/
def images (evidence : Evidence) (target : Target) : List Observation :=
  (evidence.candidates.toList.map Prod.snd).filter fun obs =>
    Text.startsWith obs.resource target.root && isImage obs.data

def fresh (evidence : Evidence) (obs : Observation) : Bool :=
  evidence.facts.any fun fact =>
    fact.resource == obs.resource && fact.observedAt == obs.observedAt

def expires (evidence : Evidence) (obs : Observation) : Time :=
  (evidence.expiry[obs.resource]?).getD obs.observedAt

/-! ## Where images come from -/

/-- Folding `latest` keeps observations that were given. -/
theorem mem_foldl_latest {l : List Observation} {k : String} {obs : Observation}
    (h : (l.foldl latest ∅)[k]? = some obs) : obs ∈ l ∧ obs.resource = k := by
  have key : ∀ k obs, (l.foldl latest ∅)[k]? = some obs → obs ∈ l ∧ obs.resource = k := by
    refine List.foldlRecOn
      (motive := fun table : Table Observation =>
        ∀ k obs, table[k]? = some obs → obs ∈ l ∧ obs.resource = k) l latest ?_ ?_
    · intro k obs h
      simp at h
    · intro table ih a ha k obs h
      have insert : (table.insert a.resource a)[k]? = some obs →
          obs ∈ l ∧ obs.resource = k := by
        intro h
        rw [Std.ExtTreeMap.getElem?_insert] at h
        split at h
        · rename_i hk
          cases h
          exact ⟨ha, by simpa using hk⟩
        · exact ih k obs h
      unfold latest at h
      split at h
      · split at h
        · exact insert h
        · exact ih k obs h
      · exact insert h
  exact key k obs h

/-- An image of the evidence is an observation of the current result or of
another stored one, and lies within the target. -/
theorem mem_images {snapshot : Snapshot} {job : Job} {current : CheckResult} {now : Time}
    {target : Target} {obs : Observation}
    (h : obs ∈ (new snapshot job current now).images target) :
    Text.startsWith obs.resource target.root = true
      ∧ (obs ∈ current.observations
          ∨ ∃ (key : String) (result : CheckResult), snapshot.results[key]? = some result
            ∧ obs ∈ result.observations) := by
  simp only [images, List.mem_filter, Bool.and_eq_true] at h
  obtain ⟨hm, hroot, _⟩ := h
  refine ⟨hroot, ?_⟩
  obtain ⟨⟨k, o⟩, he, rfl⟩ := List.mem_map.mp hm
  obtain ⟨hmem, _⟩ := mem_foldl_latest (Table.mem_toList.mp he)
  obtain ⟨⟨key, result⟩, hin, ho⟩ := List.mem_flatMap.mp hmem
  have hobs : o ∈ result.observations := (List.mem_filter.mp ho).1
  rcases List.mem_append.mp hin with hin | hin
  · exact .inr ⟨key, result, Table.mem_toList.mp (List.mem_filter.mp hin).1, hobs⟩
  · rw [List.mem_singleton] at hin
    cases hin
    exact .inl hobs

end Evidence

end HealthMonitor
