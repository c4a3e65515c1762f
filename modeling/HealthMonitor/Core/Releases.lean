import HealthMonitor.Core.ReleaseEvidence

/-!
# Releases

Correlate runtime images with registry, build and repository evidence. Every
tracked image of the target yields one provenance operation and, unless the
reference is malformed or untracked, one provenance observation.
-/

namespace HealthMonitor.Releases

open Images

/-- `BTreeSet` of texts: sorted, without duplicates. -/
def textSet (texts : List String) : List String := sortDedup texts

/-- The only element of a set. -/
def single (texts : List String) : Option String :=
  match texts with
  | [text] => some text
  | _ => none

def isProvenance : Data → Bool
  | .provenance _ => true
  | _ => false

/-! ## The evidence about one image -/

def tracked (evidence : Evidence) (job : Job) (canonical : String)
    (revision : Option String) : Bool :=
  revision.isSome || Text.contains canonical job.target.scope
    || (job.target.buildTargets.toList.any fun entry =>
          Text.endsWith canonical ("/" ++ entry.2))
    || !(evidence.artifacts canonical).isEmpty

/-- The observations that say which digest runs. -/
def runtime (evidence : Evidence) (image : Observation) (canonical : String)
    (observedDigest : Option String) : List Observation :=
  let running :=
    if observedDigest.isSome && evidence.fresh image then [image]
    else evidence.runtimeImages image
  running.filter fun obs =>
    match obs.data with
    | .image desired _ _ => Images.canonical desired == some canonical
    | _ => false

def runningDigests (runtime : List Observation) : List String :=
  textSet <| runtime.filterMap fun obs =>
    match obs.data with
    | .image _ (some digest) _ => Images.digest digest
    | _ => none

/-- The registry entries of an image. -/
def registries (evidence : Evidence) (canonical : String) :
    List (Observation × Artifact) :=
  (evidence.artifacts canonical).filterMap fun obs =>
    match obs.data with
    | .artifact a => if a.image = canonical ∧ a.built = false then some (obs, a) else none
    | _ => none

/-- The digests the desired reference resolves to. -/
def expectedDigests (desired : String) (registries : List (Observation × Artifact)) :
    List String :=
  match ((Text.splitOnce desired "@").map Prod.snd).bind Images.digest with
  | some digest => [digest]
  | none => textSet <| registries.filterMap fun (_, a) =>
      if (Images.tag desired).any a.tags.contains then some a.digest else none

/-- The platform manifests of the wanted index. -/
def childDigests (wanted : Option String) (registries : List (Observation × Artifact)) :
    List String :=
  textSet <| registries.flatMap fun (_, a) =>
    if some a.digest = wanted ∧ a.manifest = .index then a.children else []

/-- A rollout or a push is still within its grace period. -/
def pending (evidence : Evidence) (image : Observation) (job : Job)
    (registries : List (Observation × Artifact)) (wanted : Option String) (now : Time) :
    Bool :=
  evidence.grace image job now || registries.any fun (_, a) =>
    some a.digest == wanted && a.createdAt.any fun t =>
      0 ≤ numSeconds now t && numSeconds now t < job.settings.rolloutGrace.seconds

/-- The build records of the running digests. -/
def builds (evidence : Evidence) (canonical : String) (digests children : List String)
    (wanted : Option String) : List (Observation × Artifact) :=
  (evidence.artifacts canonical).filterMap fun obs =>
    match obs.data with
    | .artifact a =>
        if a.built && (digests.contains a.digest
            || (some a.digest == wanted && !children.isEmpty)) then
          some (obs, a)
        else none
    | _ => none

/-- The successful pipelines whose target and revision match the image. -/
def mapped (evidence : Evidence) (job : Job) (canonical : String)
    (revision : Option String) : List (Observation × Build) :=
  evidence.facts.filterMap fun obs =>
    match obs.data with
    | .build b =>
        if Text.startsWith obs.resource job.target.root && b.state == .ready
            && b.target ≠ "" && Text.endsWith canonical ("/" ++ b.target)
            && revision.any (revisionMatches · b.revision) then
          some (obs, b)
        else none
    | _ => none

/-- The repositories the builds came from. -/
def repositories (job : Job) (builds : List (Observation × Artifact))
    (mapped : List (Observation × Build)) : List String :=
  builds.filterMap (fun (_, a) => a.repository)
    ++ mapped.filterMap fun (_, b) => job.target.buildRepositories[b.pipeline]?

/-- The commits of the built revision, with their repository. -/
def matchingCommits (evidence : Evidence) (revision : Option String)
    (repositories : List String) : List (Observation × String) :=
  ((revision.map evidence.commits).getD []).filterMap fun obs =>
    match obs.data with
    | .commit repository _ _ =>
        if repositories.isEmpty || repositories.contains repository then
          some (obs, repository)
        else none
    | _ => none

/-! ## Enrichment -/

def operation (id : String) (coverage : Coverage) (time : Time) (required : Bool) :
    Operation :=
  { id, coverage, observedAt := time, pages := 0, attempts := 0, required }

/-- The operation and the observation about one image. -/
def enrichTracked (evidence : Evidence) (job : Job) (image : Observation)
    (desired canonical : String) (observedDigest revision : Option String)
    (now : Time) : Operation × Option Observation :=
  let id := "provenance/" ++ image.resource
  let inactive := evidence.inactive image
  let running := runtime evidence image canonical observedDigest
  let digests := runningDigests running
  let registries := registries evidence canonical
  let wanted := single (expectedDigests desired registries)
  let pending := pending evidence image job registries wanted now
  let children := childDigests wanted registries
  let comparable := registries.any (fun (_, a) =>
      some a.digest == wanted && a.manifest == .image) || !children.isEmpty
  let matching (digest : String) : Bool := some digest == wanted || children.contains digest
  let drifted := !pending && comparable && !digests.isEmpty && wanted.isSome
    && digests.any fun digest => !matching digest
  let registryVerified := !digests.isEmpty && wanted.isSome && digests.all matching
    && digests.all fun digest =>
      registries.any (fun (_, a) => a.digest == digest) || children.contains digest
  let builds := builds evidence canonical digests children wanted
  let mapped := mapped evidence job canonical revision
  let built := single <| textSet <| builds.filterMap (fun (_, a) => a.revision)
    ++ mapped.map fun (_, b) => b.revision
  let mismatch := drifted || (!pending
    && revision.any fun short => built.any fun full => !revisionMatches short full)
  let buildVerified := built.isSome && !digests.isEmpty
    && ((digests.all fun digest => builds.any fun (_, a) =>
          a.digest == digest || (some a.digest == wanted && children.contains digest))
        || !mapped.isEmpty)
  let commits := matchingCommits evidence built (repositories job builds mapped)
  let repository := single (textSet (commits.map Prod.snd))
  let sources := running ++ registries.map Prod.fst ++ builds.map Prod.fst
    ++ mapped.map Prod.fst ++ commits.map Prod.fst
  let time := ((sources.map Observation.observedAt).max?).getD image.observedAt
  let validUntil := ((sources.map evidence.expires).min?).getD (evidence.expires image)
  let coverage :=
    if 16 < digests.length then .truncated
    else if inactive || pending
        || (registryVerified && buildVerified && repository.isSome) then .complete
    else .missing
  (operation id coverage time true,
    some
      { context := image.context
        resource := image.resource ++ "/provenance"
        operation := id
        observedAt := time
        expected := if inactive then .scaleToZero else image.expected
        data := .provenance
          { validUntil
            observedDigests := digests.take 16
            desiredDigest := wanted
            pending
            revision := built
            repository
            registryVerified
            buildVerified
            commitVerified := repository.isSome
            mismatch } })

/-- What one image adds to the result. -/
def enrichImage (evidence : Evidence) (job : Job) (now : Time) (image : Observation) :
    Option (Operation × Option Observation) :=
  match image.data with
  | .image desired observedDigest revision =>
      let id := "provenance/" ++ image.resource
      match Images.canonical desired with
      | none => some (operation id .malformed now true, none)
      | some canonical =>
          if !tracked evidence job canonical revision && !evidence.inactive image then
            some (operation id .inventoryOnly now false, none)
          else
            some (enrichTracked evidence job image desired canonical observedDigest
              revision now)
  | _ => none

/-- The result without the provenance of earlier correlations. -/
def strip (current : CheckResult) : CheckResult :=
  { current with
    operations := current.operations.filter fun op => !Text.startsWith op.id "provenance/"
    observations := current.observations.filter fun obs => !isProvenance obs.data }

def enrich (snapshot : Snapshot) (job : Job) (current : CheckResult) (now : Time) :
    CheckResult :=
  let current := strip current
  let evidence := Evidence.new snapshot job current now
  let images := (evidence.images job.target).take
    (job.settings.maxAssets - current.observations.length)
  let added := images.filterMap (enrichImage evidence job now)
  { current with
    operations := current.operations ++ added.map Prod.fst
    observations := current.observations ++ added.filterMap Prod.snd }

/-! ## What enrichment adds -/

variable {snapshot : Snapshot} {job : Job} {current : CheckResult} {now : Time}

theorem enrichImage_resource {evidence : Evidence} {image : Observation}
    {op : Operation} {obs : Observation}
    (h : enrichImage evidence job now image = some (op, some obs)) :
    obs.resource = image.resource ++ "/provenance" := by
  unfold enrichImage at h
  split at h
  · dsimp only at h
    split at h
    · cases h
    · split at h
      · cases h
      · cases h
        rfl
  · cases h

/-- An added observation describes an image of the job's target that the
stored results or the current one report. -/
theorem mem_enrich {obs : Observation}
    (h : obs ∈ (enrich snapshot job current now).observations) :
    obs ∈ current.observations ∨ ∃ image : Observation,
      obs.resource = image.resource ++ "/provenance"
        ∧ Text.startsWith image.resource job.target.root = true
        ∧ (image ∈ current.observations
          ∨ ∃ (key : String) (result : CheckResult),
            snapshot.results[key]? = some result ∧ image ∈ result.observations) := by
  rcases List.mem_append.mp h with h | h
  · exact .inl (List.mem_filter.mp h).1
  · obtain ⟨⟨op, o⟩, hadded, ho⟩ := List.mem_filterMap.mp h
    obtain ⟨image, himage, he⟩ := List.mem_filterMap.mp hadded
    have ho : o = some obs := ho
    subst ho
    obtain ⟨hroot, hfrom⟩ := Evidence.mem_images (List.mem_of_mem_take himage)
    refine .inr ⟨image, enrichImage_resource he, hroot, ?_⟩
    rcases hfrom with hfrom | hfrom
    · exact .inl (List.mem_filter.mp hfrom).1
    · exact .inr hfrom

end HealthMonitor.Releases
