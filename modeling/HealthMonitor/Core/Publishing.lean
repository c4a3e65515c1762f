import HealthMonitor.Core.Storage

/-!
# Publishing

What a publication leaves in the directory, however it ends. The steps of
`atomic` and `retain` touch only names the monitor writes, so everything else
is framed away; the latest snapshot changes in one renaming, so every state a
publication can stop in holds the old one or the new one whole.
-/

namespace HealthMonitor.Storage

open Faulty

variable {parses : String → Bool}

/-! ## Names -/

/-- The files the monitor writes, its lock apart. -/
def Written (parses : String → Bool) (name : String) : Prop :=
  name = latestName ∨ name = reportName ∨ (owned parses name).isSome = true

/-- The files the monitor may touch: what it writes and their temporaries. -/
def Monitored (parses : String → Bool) (name : String) : Prop :=
  Written parses name ∨ ∃ base, Written parses base ∧ name = temporary base

theorem owned_snapshot {text : String} (h : parses text = true) :
    owned parses ("monitor-snapshot-" ++ text ++ ".json") = some true := by
  have hstrip : Text.stripPrefix ("monitor-snapshot-" ++ text ++ ".json") "monitor-snapshot-" =
      some (text ++ ".json") :=
    Text.stripPrefix_eq_some.mpr (String.append_assoc ..)
  have htext : Text.stripSuffix (text ++ ".json") ".json" = some text :=
    Text.stripSuffix_eq_some.mpr rfl
  simp only [owned, hstrip, Option.bind_some, htext, h, if_true]

theorem owned_events {text : String} (h : parses text = true) :
    owned parses ("monitor-events-" ++ text ++ ".ndjson") = some false := by
  have hother : Text.stripPrefix ("monitor-events-" ++ text ++ ".ndjson")
      "monitor-snapshot-" = none := by
    rw [Text.stripPrefix, if_neg]
    simp [Text.startsWith, String.toList_append]
  have hstrip : Text.stripPrefix ("monitor-events-" ++ text ++ ".ndjson") "monitor-events-" =
      some (text ++ ".ndjson") :=
    Text.stripPrefix_eq_some.mpr (String.append_assoc ..)
  have htext : Text.stripSuffix (text ++ ".ndjson") ".ndjson" = some text :=
    Text.stripSuffix_eq_some.mpr rfl
  simp only [owned, hother, hstrip, Option.bind_none, Option.bind_some, htext, h, if_true]

theorem owned_snapshotName {captured : Time} (h : parses (stamp captured) = true) :
    owned parses (snapshotName captured) = some true :=
  owned_snapshot h

theorem owned_eventsName {captured : Time} (h : parses (stamp captured) = true) :
    owned parses (eventsName captured) = some false :=
  owned_events h

theorem owned_latestName : owned parses latestName = none := by
  simp [owned, latestName, Text.stripPrefix, Text.startsWith]

theorem owned_reportName : owned parses reportName = none := by
  simp [owned, reportName, Text.stripPrefix, Text.startsWith]

theorem owned_lockName : owned parses lockName = none := by
  simp [owned, lockName, Text.stripPrefix, Text.startsWith]

theorem owned_temporary (base : String) : owned parses (temporary base) = none := by
  simp [owned, temporary, Text.stripPrefix, Text.startsWith, String.toList_append]

/-- Temporaries are hidden files, and nothing the monitor writes is one. -/
theorem temporary_ne (base : String) :
    temporary base ≠ latestName ∧ temporary base ≠ reportName ∧ temporary base ≠ lockName := by
  have hhead : ∀ s : String, s.toList.head? ≠ some '.' → temporary base ≠ s := by
    rintro s hs rfl
    simp [temporary, String.toList_append] at hs
  exact ⟨hhead _ (by decide), hhead _ (by decide), hhead _ (by decide)⟩

/-- `leftover` recognises exactly the temporaries of what the monitor writes. -/
theorem leftover_iff {name : String} :
    leftover parses name = true ↔ ∃ base, Written parses base ∧ name = temporary base := by
  have hname : ∀ base, (Text.stripPrefix name ".").bind (Text.stripSuffix · ".tmp") = some base ↔
      name = temporary base := by
    intro base
    rw [Option.bind_eq_some_iff, temporary]
    constructor
    · rintro ⟨rest, hrest, hbase⟩
      rw [Text.stripPrefix_eq_some.mp hrest, Text.stripSuffix_eq_some.mp hbase,
        String.append_assoc]
    · rintro rfl
      exact ⟨base ++ ".tmp", Text.stripPrefix_eq_some.mpr (String.append_assoc ..),
        Text.stripSuffix_eq_some.mpr rfl⟩
  unfold leftover
  cases hstrip : (Text.stripPrefix name ".").bind (Text.stripSuffix · ".tmp") with
  | none =>
      constructor
      · intro h; cases h
      · rintro ⟨base, -, h⟩
        rw [(hname base).mpr h] at hstrip
        cases hstrip
  | some base =>
      have hbase := (hname base).mp hstrip
      constructor
      · intro h
        refine ⟨base, ?_, hbase⟩
        simpa [Written, or_assoc] using h
      · rintro ⟨other, hwritten, h⟩
        have hsame : some other = some base := by rw [← (hname other).mpr h, hstrip]
        cases hsame
        simpa [Written, or_assoc] using hwritten

/-! ## What a step may touch -/

variable {allowed : Fate → Prop} {I J : Directory → Prop}

/-- `I` survives whatever is written under the name, and its removal. -/
structure Blind (I : Directory → Prop) (name : String) : Prop where
  put : ∀ d place node, I d → I (d.put place name node)
  erase : ∀ d, I d → I (d.erase name)

theorem call_triple (fault : Error) :
    Triple allowed I (call fault) (fun _ => I) I :=
  Triple.read (fun _ _ hs _ => hs) fun _ hs => hs

theorem readDir_triple :
    Triple allowed I readDir (fun entries d => I d ∧ entries = d.entries) I :=
  Triple.read (fun _ _ hs h => ⟨hs, (Except.ok.inj h).symm⟩) fun _ hs => hs

theorem rejectSymlink_triple (name : String) :
    Triple allowed I (rejectSymlink name) (fun _ => I) I :=
  Triple.read (fun _ _ hs _ => hs) fun _ hs => hs

theorem measure_triple (name : String) :
    Triple allowed I (measure name) (fun _ => I) I := by
  apply Triple.bind (Q := fun _ => I)
  · exact Triple.attempt (Triple.read (fun _ _ hs _ => hs) fun _ hs => hs)
      (fun _ _ hs => hs) fun _ _ hs => hs
  · intro found
    cases found with
    | ok length => exact Triple.ret fun _ hs => hs
    | error error => exact Triple.ret fun _ hs => hs

theorem removeFile_triple {name : String} (hI : ∀ d, I d → I (d.erase name)) :
    Triple allowed I (removeFile name) (fun _ => I) I := by
  apply Triple.step
  · intro _ d value d' hd h
    dsimp only at h
    split at h
    · cases h
    · cases h
      exact hI d hd
    · cases h
  · exact fun _ _ _ hd _ => hd
  · intro torn d _ hd
    dsimp only
    split
    · exact hI d hd
    · exact hI d hd
    · exact hd

theorem createTruncated_triple {name : String} (hI : Blind I name) :
    Triple allowed I (createTruncated name) (fun _ => I) I := by
  apply Triple.step
  · intro pick d value d' hd h
    dsimp only at h
    split at h
    · cases h
      exact hI.put d _ _ hd
    · cases h
      exact hI.put d _ _ hd
    · cases h
  · exact fun _ _ _ hd _ => hd
  · intro torn d _ hd
    dsimp only
    split
    · exact hI.put d _ _ hd
    · exact hI.put d _ _ hd
    · exact hd

/-- After a write that succeeds, the file holds the bytes. -/
theorem writeAll_triple {name : String} (bytes : Bytes) (hI : Blind I name) :
    Triple allowed I (writeAll name bytes)
      (fun _ d => I d ∧ ∃ modified, d.get name = some (.file bytes modified)) I := by
  apply Triple.step
  · intro pick d value d' hd h
    cases h
    exact ⟨hI.put d _ _ hd, pick, Listing.get_put_self ..⟩
  · exact fun _ _ _ hd _ => hd
  · exact fun torn d _ hd => hI.put d _ _ hd

theorem moved_eq_ok {place : Nat} {source target : String} {d d' : Directory} {node : Node}
    (hsource : d.get source = some node) (h : moved place source target d = .ok d') :
    d' = (d.erase source).put place target node := by
  unfold moved at h
  rw [hsource] at h
  split at h
  · cases h
  · rename_i heq _
    cases heq
    exact (Except.ok.inj h).symm
  · rename_i heq
    cases heq

/-- A renaming is done or not, whatever else happens. -/
theorem rename_triple {source target : String} {bytes : Bytes}
    (hJ : ∀ d place modified, I d → d.get source = some (.file bytes modified) →
      J ((d.erase source).put place target (.file bytes modified))) :
    Triple allowed
      (fun d => I d ∧ ∃ modified, d.get source = some (.file bytes modified))
      (rename source target) (fun _ => J) (fun d => I d ∨ J d) := by
  apply Triple.step
  · rintro pick d value d' ⟨hd, modified, hget⟩ h
    dsimp only at h
    cases hmoved : moved pick source target d with
    | error error => rw [hmoved] at h; cases h
    | ok next =>
        rw [hmoved] at h
        cases h
        rw [moved_eq_ok hget hmoved]
        exact hJ d pick modified hd hget
  · exact fun _ _ _ hd _ => Or.inl hd.1
  · rintro torn d _ ⟨hd, modified, hget⟩
    dsimp only
    split
    · rename_i hmoved
      rw [moved_eq_ok hget hmoved]
      exact Or.inr (hJ d _ modified hd hget)
    · exact Or.inl hd

/-- `atomic` leaves the file as it was or holding the bytes whole: `I` holds
until the renaming and `J` from then on. -/
theorem atomic_triple {name : String} {bytes : Bytes} (hI : Blind I (temporary name))
    (hJerase : ∀ d, J d → J (d.erase (temporary name)))
    (hJ : ∀ d place modified, I d →
      J ((d.erase (temporary name)).put place name (.file bytes modified))) :
    Triple allowed I (atomic name bytes) (fun _ => J) (fun d => I d ∨ J d) := by
  have hkept : ∀ {α : Type} {one : Action α},
      Triple allowed I one (fun _ => I) I →
      Triple allowed I one (fun _ => I) (fun d => I d ∨ J d) :=
    fun h => h.weaken (fun _ h => h) (fun _ _ h => h) fun _ => Or.inl
  have hmoved : ∀ {α : Type} {one : Action α},
      Triple allowed J one (fun _ => J) J →
      Triple allowed J one (fun _ => J) (fun d => I d ∨ J d) :=
    fun h => h.weaken (fun _ h => h) (fun _ _ h => h) fun _ => Or.inr
  have hclean : Triple allowed (fun d => I d ∨ J d) (removeFile (temporary name))
      (fun _ d => I d ∨ J d) (fun d => I d ∨ J d) :=
    removeFile_triple fun d h => h.imp (hI.erase d) (hJerase d)
  unfold atomic
  refine (hkept (rejectSymlink_triple name)).bind fun _ => ?_
  refine (hkept (rejectSymlink_triple _)).bind fun _ => ?_
  apply Triple.bind (Q := fun outcome d => (outcome = .ok () ∧ J d) ∨ (outcome ≠ .ok () ∧ (I d ∨ J d)))
  · apply Triple.attempt (Q := fun _ => J) (X := fun d => I d ∨ J d)
    · refine (hkept (createTruncated_triple hI)).bind fun _ => ?_
      refine (hkept (call_triple .io)).bind fun _ => ?_
      refine ((writeAll_triple bytes hI).weaken (fun _ h => h) (fun _ _ h => h)
        fun _ => Or.inl).bind fun _ => ?_
      refine ((call_triple .io).weaken (fun _ h => h) (fun _ _ h => h)
        fun _ h => Or.inl h.1).bind fun _ => ?_
      refine (rename_triple fun d place modified hd _ => hJ d place modified hd).bind fun _ => ?_
      exact (hmoved (call_triple .io)).bind fun _ => hmoved (call_triple .io)
    · exact fun _ _ h => Or.inl ⟨rfl, h⟩
    · exact fun _ _ h => Or.inr ⟨by simp, h⟩
  · intro outcome
    cases outcome with
    | ok _ => exact Triple.ret fun d h => by simpa using h
    | error error =>
        apply Triple.bind (Q := fun _ d => I d ∨ J d)
        · exact (Triple.attempt hclean (fun _ _ h => h) fun _ _ h => h).weaken
            (fun d h => by simpa using h) (fun _ _ h => h) fun _ h => h
        · exact fun _ => Triple.raise fun _ h => h

/-! ## Retention -/

/-- The history file an entry is, if it is one. -/
def candidate (parses : String → Bool) (entry : String × Node) : Option Candidate :=
  match owned parses entry.1, entry.2 with
  | some snapshot, .file bytes modified =>
      some { stamp := sortKey entry.1, name := entry.1, size := bytes.length, snapshot, modified }
  | _, _ => none

theorem candidate_name {entry : String × Node} {file : Candidate}
    (h : candidate parses entry = some file) :
    file.name = entry.1 ∧ (owned parses entry.1) = some file.snapshot := by
  unfold candidate at h
  split at h
  · rename_i howned _
    rw [← Option.some.inj h]
    exact ⟨rfl, howned⟩
  · cases h

def Gathered.add (gathered : Gathered) : Option Candidate → Gathered
  | some file => { files := gathered.files ++ [file]
                   bytes := saturatingAdd gathered.bytes file.size }
  | none => gathered

/-- Everything gathered from a listing. -/
def gatherAll (parses : String → Bool) (entries : List (String × Node)) (gathered : Gathered) :
    Gathered :=
  entries.foldl (fun gathered entry => gathered.add (candidate parses entry)) gathered

theorem gatherAll_files (entries : List (String × Node)) (gathered : Gathered) :
    (gatherAll parses entries gathered).files =
      gathered.files ++ entries.filterMap (candidate parses) := by
  induction entries generalizing gathered with
  | nil => simp [gatherAll]
  | cons entry entries ih =>
      rw [gatherAll, List.foldl_cons, ← gatherAll, ih]
      cases h : candidate parses entry with
      | none => simp [Gathered.add, h]
      | some file => simp [Gathered.add, h]

theorem gather_triple (gathered : Gathered) (entry : String × Node)
    (hlimit : gathered.files.length ≤ 20002) :
    Triple allowed I (gather parses gathered entry)
      (fun next d => I d ∧
        next = gathered.add (candidate parses entry) ∧ next.files.length ≤ 20002) I := by
  unfold gather
  refine (call_triple .io).bind fun _ => ?_
  cases howned : owned parses entry.1 with
  | none =>
      have hnone : candidate parses entry = none := by simp [candidate, howned]
      exact Triple.ret fun _ hd => ⟨hd, by rw [hnone]; rfl, hlimit⟩
  | some snapshot =>
      refine (call_triple .io).bind fun _ => ?_
      cases hnode : entry.2 with
      | directory =>
          have hnone : candidate parses entry = none := by simp [candidate, howned, hnode]
          exact Triple.ret fun _ hd => ⟨hd, by rw [hnone]; rfl, hlimit⟩
      | symlink =>
          have hnone : candidate parses entry = none := by simp [candidate, howned, hnode]
          exact Triple.ret fun _ hd => ⟨hd, by rw [hnone]; rfl, hlimit⟩
      | file bytes modified =>
          refine (call_triple .io).bind fun _ => ?_
          dsimp only
          split
          · exact Triple.raise fun _ hd => hd
          · rename_i hroom
            refine Triple.ret fun _ hd => ⟨hd, ?_, ?_⟩
            · simp [candidate, howned, hnode, Gathered.add]
            · rw [List.length_append, List.length_singleton]
              omega

theorem gatherAll_triple (entries : List (String × Node)) (gathered : Gathered)
    (hlimit : gathered.files.length ≤ 20002) :
    Triple allowed I (loop (gather parses) entries gathered)
      (fun next d => I d ∧
        next = gatherAll parses entries gathered ∧ next.files.length ≤ 20002) I := by
  induction entries generalizing gathered with
  | nil => exact Triple.ret fun _ hd => ⟨hd, rfl, hlimit⟩
  | cons entry entries ih =>
      refine (gather_triple gathered entry hlimit).bind fun next => ?_
      apply Triple.assuming
      rintro ⟨rfl, hnext⟩
      exact ih _ hnext

theorem mem_history {entries : List (String × Node)} {bytes : Nat} {file : Candidate}
    (h : file ∈ ((gatherAll parses entries { bytes }).files).insertionSort Candidate.precedes) :
    ∃ entry ∈ entries, candidate parses entry = some file := by
  rw [List.mem_insertionSort, gatherAll_files, List.nil_append, List.mem_filterMap] at h
  exact h

/-- Pruning removes nothing but the files it is given. -/
theorem pruneAll_triple (settings : Settings) (now : Time) (files : List Candidate)
    (usage : Usage) (hI : ∀ file ∈ files, ∀ d, I d → I (d.erase file.name)) :
    Triple allowed I (loop (prune settings now) files usage) (fun _ => I) I := by
  induction files generalizing usage with
  | nil => exact Triple.ret fun _ hd => hd
  | cons file files ih =>
      have hlater := (List.forall_mem_cons.mp hI).2
      apply Triple.bind (Q := fun _ => I)
      · unfold prune
        split
        · exact (removeFile_triple (hI file (by simp))).bind fun _ => Triple.ret fun _ hd => hd
        · exact Triple.ret fun _ hd => hd
      · exact fun next => ih next hlater

/-- Retention only ever removes history files. -/
theorem retain_triple (settings : Settings) (now : Time)
    (hI : ∀ name, (owned parses name).isSome = true → ∀ d, I d → I (d.erase name)) :
    Triple allowed I (retain parses settings now) (fun _ => I) I := by
  unfold retain
  refine (measure_triple _).bind fun _ => ?_
  refine (measure_triple _).bind fun _ => ?_
  refine (measure_triple _).bind fun _ => ?_
  refine (readDir_triple.weaken (fun _ h => h) (fun _ _ h => h.1) fun _ h => h).bind
    fun entries => ?_
  refine (gatherAll_triple entries _ (by simp)).bind fun gathered => ?_
  apply Triple.assuming
  rintro ⟨rfl, -⟩
  refine (pruneAll_triple settings now _ _ ?_).bind fun _ => Triple.ret fun _ h => h
  intro file hfile
  obtain ⟨entry, -, hentry⟩ := mem_history hfile
  obtain ⟨hname, howned⟩ := candidate_name hentry
  exact hI file.name (by rw [hname, howned]; rfl)

/-! ## Publication -/

/-- The directory as it was, outside what the monitor may touch. -/
def Framed (parses : String → Bool) (before after : Directory) : Prop :=
  ∀ name, ¬ Monitored parses name → after.get name = before.get name

/-- Nothing is published yet: only other files of the monitor have changed. -/
def Unpublished (parses : String → Bool) (before after : Directory) : Prop :=
  Framed parses before after ∧ after.get latestName = before.get latestName

/-- The latest snapshot is the new one. -/
def Replaced (parses : String → Bool) (before : Directory) (encoded : Bytes)
    (after : Directory) : Prop :=
  Framed parses before after ∧
    ∃ modified, after.get latestName = some (.file encoded modified)

theorem Framed.put {before after : Directory} {name : String} (h : Framed parses before after)
    (hname : Monitored parses name) (place : Nat) (node : Node) :
    Framed parses before (after.put place name node) := by
  intro other hother
  rw [Listing.get_put_of_ne _ _ _ (by rintro rfl; exact hother hname), h other hother]

theorem Framed.erase {before after : Directory} {name : String} (h : Framed parses before after)
    (hname : Monitored parses name) : Framed parses before (after.erase name) := by
  intro other hother
  rw [Listing.get_erase_of_ne _ (by rintro rfl; exact hother hname), h other hother]

theorem Unpublished.blind (before : Directory) {name : String} (hname : Monitored parses name)
    (hne : name ≠ latestName) : Blind (Unpublished parses before) name where
  put d place node h :=
    ⟨h.1.put hname place node, by rw [Listing.get_put_of_ne _ _ _ hne.symm, h.2]⟩
  erase d h := ⟨h.1.erase hname, by rw [Listing.get_erase_of_ne _ hne.symm, h.2]⟩

theorem Replaced.erase {before d : Directory} {encoded : Bytes} {name : String}
    (h : Replaced parses before encoded d) (hname : Monitored parses name)
    (hne : name ≠ latestName) : Replaced parses before encoded (d.erase name) := by
  obtain ⟨hframed, modified, hlatest⟩ := h
  exact ⟨hframed.erase hname, modified, by rw [Listing.get_erase_of_ne _ hne.symm, hlatest]⟩

theorem monitored_temporary {base : String} (h : Written parses base) :
    Monitored parses (temporary base) :=
  Or.inr ⟨base, h, rfl⟩

theorem owned_ne_latest {name : String} (h : (owned parses name).isSome = true) :
    name ≠ latestName := by
  rintro rfl
  rw [owned_latestName] at h
  cases h

/-- Writing any file but the latest snapshot leaves it alone. -/
theorem atomic_unpublished {before : Directory} {name : String} (bytes : Bytes)
    (hname : Written parses name) (hne : name ≠ latestName) :
    Triple allowed (Unpublished parses before) (atomic name bytes)
      (fun _ => Unpublished parses before) (Unpublished parses before) := by
  have htemp := Unpublished.blind before (monitored_temporary hname) (temporary_ne name).1
  have hfile := Unpublished.blind before (Or.inl hname) hne
  exact (atomic_triple htemp htemp.erase fun d place modified hd =>
    hfile.put _ place _ (htemp.erase d hd)).weaken (fun _ h => h) (fun _ _ h => h)
      fun _ h => h.elim id id

/-- Writing the latest snapshot publishes it in one step. -/
theorem atomic_latest {before : Directory} (encoded : Bytes) :
    Triple allowed (Unpublished parses before) (atomic latestName encoded)
      (fun _ => Replaced parses before encoded)
      (fun d => Unpublished parses before d ∨ Replaced parses before encoded d) := by
  have hwritten : Written parses latestName := Or.inl rfl
  have htemp := Unpublished.blind before (monitored_temporary hwritten)
    (temporary_ne latestName).1
  refine atomic_triple htemp (fun d h => ?_) fun d place modified hd => ?_
  · exact h.erase (monitored_temporary hwritten) (temporary_ne latestName).1
  · exact ⟨(htemp.erase d hd).1.put (Or.inl hwritten) place _, modified,
      Listing.get_put_self ..⟩

theorem publish_triple (encoders : Encoders) (snapshot : Snapshot)
    (transitions : List Transition) (settings : Settings) (before : Directory)
    (hstamp : parses (stamp snapshot.capturedAt) = true) :
    Triple allowed (Unpublished parses before)
      (publish parses encoders snapshot transitions settings)
      (fun _ => Replaced parses before (encoders.json snapshot))
      (fun d => Unpublished parses before d ∨
        Replaced parses before (encoders.json snapshot) d) := by
  have hsnapshot := owned_snapshotName hstamp
  have hevents := owned_eventsName hstamp
  have hold : ∀ {one : Action Unit},
      Triple allowed (Unpublished parses before) one (fun _ => Unpublished parses before)
        (Unpublished parses before) →
      Triple allowed (Unpublished parses before) one (fun _ => Unpublished parses before)
        (fun d => Unpublished parses before d ∨
          Replaced parses before (encoders.json snapshot) d) :=
    fun h => h.weaken (fun _ h => h) (fun _ _ h => h) fun _ => Or.inl
  refine Triple.bind (Q := fun _ => Replaced parses before (encoders.json snapshot)) ?_
    fun _ => ?_
  · unfold publishFiles
    dsimp only
    split
    · exact Triple.raise fun _ h => Or.inl h
    split
    · exact Triple.raise fun _ h => Or.inl h
    refine (hold (retain_triple _ _ fun name hname d h => ?_)).bind fun _ => ?_
    · exact (Unpublished.blind before (Or.inl (Or.inr (Or.inr hname)))
        (owned_ne_latest hname)).erase d h
    refine (hold (atomic_unpublished _ (Or.inr (Or.inr (by rw [hsnapshot]; rfl)))
      (owned_ne_latest (by rw [hsnapshot]; rfl)))).bind fun _ => ?_
    refine Triple.bind (Q := fun _ => Unpublished parses before) ?_ fun _ => ?_
    · unfold atomicNonempty
      split
      · exact Triple.ret fun _ h => h
      · exact hold (atomic_unpublished _ (Or.inr (Or.inr (by rw [hevents]; rfl)))
          (owned_ne_latest (by rw [hevents]; rfl)))
    refine (hold (atomic_unpublished _ (Or.inr (Or.inl rfl)) (by decide))).bind fun _ => ?_
    exact atomic_latest _
  · refine (retain_triple settings snapshot.capturedAt fun name hname d h => ?_).weaken
      (fun _ h => h) (fun _ _ h => h) fun _ h => Or.inr h
    exact h.erase (Or.inl (Or.inr (Or.inr hname))) (owned_ne_latest hname)

/-! ## Reopening -/

/-- A regular file that `open` removes. -/
def Left (parses : String → Bool) (before : Directory) (name : String) : Prop :=
  leftover parses name = true ∧ (before.get name).map Node.isFile = some true

/-- An entry as it was; only the lock may be new. -/
def Kept (before after : Directory) (name : String) : Prop :=
  after.get name = before.get name ∨ name = lockName ∧ before.get name = none

theorem leftover_ne_lock {name : String} (h : leftover parses name = true) :
    name ≠ lockName := by
  obtain ⟨base, -, rfl⟩ := leftover_iff.mp h
  exact (temporary_ne base).2.2

/-- Exactly the leftovers are gone. -/
def Swept (parses : String → Bool) (before after : Directory) : Prop :=
  ∀ name, (Left parses before name → after.get name = none) ∧
    (¬ Left parses before name → Kept before after name)

/-- At most leftovers are gone. -/
def Sweeping (parses : String → Bool) (before after : Directory) : Prop :=
  ∀ name, Kept before after name ∨ Left parses before name ∧ after.get name = none

theorem Swept.sweeping {before after : Directory} (h : Swept parses before after) :
    Sweeping parses before after := by
  intro name
  by_cases hleft : Left parses before name
  · exact Or.inr ⟨hleft, (h name).1 hleft⟩
  · exact Or.inl ((h name).2 hleft)

/-- The sweep has dealt with every leftover that is not still to come. -/
structure Ahead (parses : String → Bool) (before : Directory) (rest : List (String × Node))
    (after : Directory) : Prop where
  swept : Sweeping parses before after
  gone : ∀ name, Left parses before name → name ∉ rest.map Prod.fst → after.get name = none
  listed : ∀ entry ∈ rest, leftover parses entry.1 = true →
    before.get entry.1 = some entry.2

theorem Ahead.skip {before after : Directory} {entry : String × Node}
    {rest : List (String × Node)} (h : Ahead parses before (entry :: rest) after)
    (hleft : ¬ Left parses before entry.1) : Ahead parses before rest after where
  swept := h.swept
  gone name hname hrest := by
    apply h.gone name hname
    rw [List.map_cons, List.mem_cons, not_or]
    exact ⟨by rintro rfl; exact hleft hname, hrest⟩
  listed other hother := h.listed other (List.mem_cons_of_mem _ hother)

theorem Ahead.remove {before after : Directory} {entry : String × Node}
    {rest : List (String × Node)} (h : Ahead parses before (entry :: rest) after)
    (hleft : Left parses before entry.1) : Ahead parses before rest (after.erase entry.1) where
  swept name := by
    by_cases hname : name = entry.1
    · subst hname
      exact Or.inr ⟨hleft, Listing.get_erase_self ..⟩
    · rw [Kept, Listing.get_erase_of_ne _ hname]
      exact h.swept name
  gone name hname hrest := by
    by_cases hentry : name = entry.1
    · rw [hentry, Listing.get_erase_self]
    · rw [Listing.get_erase_of_ne _ hentry]
      apply h.gone name hname
      rw [List.map_cons, List.mem_cons, not_or]
      exact ⟨hentry, hrest⟩
  listed other hother := h.listed other (List.mem_cons_of_mem _ hother)

/-- Every way an entry is dealt with moves the sweep past it. -/
theorem sweep_triple (before : Directory) (entry : String × Node)
    (rest : List (String × Node)) :
    Triple allowed (Ahead parses before (entry :: rest)) (removeLeftover parses () entry)
      (fun _ => Ahead parses before rest) (Sweeping parses before) := by
  have hbroken : ∀ {α : Type} {program : Action α} {Q : α → Directory → Prop},
      Triple allowed (Ahead parses before (entry :: rest)) program Q
        (Ahead parses before (entry :: rest)) →
      Triple allowed (Ahead parses before (entry :: rest)) program Q
        (Sweeping parses before) :=
    fun h => h.weaken (fun _ h => h) (fun _ _ h => h) fun _ h => h.swept
  unfold removeLeftover
  refine (hbroken (call_triple .io)).bind fun _ => ?_
  split
  case isFalse hname =>
    exact Triple.ret fun _ h => h.skip fun hleft => hname hleft.1
  case isTrue hname =>
    refine (hbroken (rejectSymlink_triple entry.1)).bind fun _ => ?_
    refine (hbroken (call_triple .io)).bind fun _ => ?_
    have hnode : ∀ {d}, Ahead parses before (entry :: rest) d →
        (before.get entry.1).map Node.isFile = some entry.2.isFile := by
      intro d h
      rw [h.listed entry (by simp) hname, Option.map_some]
    split
    case isFalse hfile =>
      refine Triple.ret fun _ h => h.skip fun hleft => hfile ?_
      have := hleft.2
      rw [hnode h] at this
      exact Option.some.inj this
    case isTrue hfile =>
      have hleft : ∀ {d}, Ahead parses before (entry :: rest) d → Left parses before entry.1 :=
        fun h => ⟨hname, by rw [hnode h, hfile]⟩
      apply Triple.step
      · intro _ d value d' h hrun
        dsimp only at hrun
        split at hrun
        · cases hrun
        · cases hrun
          exact h.remove (hleft h)
        · cases hrun
      · exact fun _ _ _ h _ => h.swept
      · intro torn d _ h
        dsimp only
        split
        · exact (h.remove (hleft h)).swept
        · exact (h.remove (hleft h)).swept
        · exact h.swept

theorem openLock_triple (before : Directory) :
    Triple allowed (fun d => d = before) openLock (fun _ d => ∀ name, Kept before d name)
      (fun d => ∀ name, Kept before d name) := by
  have hcreated : ∀ place node, before.get lockName = none →
      ∀ name, Kept before (before.put place lockName node) name := by
    intro place node hnone name
    by_cases hname : name = lockName
    · exact Or.inr ⟨hname, by rw [hname, hnone]⟩
    · exact Or.inl (Listing.get_put_of_ne _ _ _ hname)
  apply Triple.step
  · rintro pick d value d' rfl h
    dsimp only at h
    split at h
    · cases h
    · cases h
      exact fun _ => Or.inl rfl
    · rename_i hnone
      cases h
      exact hcreated _ _ hnone
  · rintro _ d _ rfl _
    exact fun _ => Or.inl rfl
  · rintro torn d - rfl
    dsimp only
    split
    · rename_i hnone
      exact hcreated _ _ hnone
    · exact fun _ => Or.inl rfl

/-- Reopening removes the leftovers and nothing else; breaking off, at most leftovers. -/
theorem openStore_triple (linked : Bool) (before : Directory) :
    Triple allowed (fun d => d = before) (openStore parses linked)
      (fun _ => Swept parses before) (Sweeping parses before) := by
  have hstart : ∀ {α : Type} {one : Action α} {Q : α → Directory → Prop},
      Triple allowed (fun d => d = before) one Q (fun d => d = before) →
      Triple allowed (fun d => d = before) one Q (Sweeping parses before) :=
    fun h => h.weaken (fun _ h => h) (fun _ _ h => h)
      fun _ h _ => Or.inl (Or.inl (by rw [h]))
  have hopened : ∀ {α : Type} {one : Action α} {Q : α → Directory → Prop},
      Triple allowed (fun d => ∀ name, Kept before d name) one Q
        (fun d => ∀ name, Kept before d name) →
      Triple allowed (fun d => ∀ name, Kept before d name) one Q (Sweeping parses before) :=
    fun h => h.weaken (fun _ h => h) (fun _ _ h => h) fun _ h name => Or.inl (h name)
  unfold openStore
  refine (hstart (call_triple .io)).bind fun _ => ?_
  refine (hstart (call_triple .io)).bind fun _ => ?_
  split
  · exact Triple.raise fun _ h _ => Or.inl (Or.inl (by rw [h]))
  · refine (hstart (call_triple .io)).bind fun _ => ?_
    refine (hstart (rejectSymlink_triple _)).bind fun _ => ?_
    refine ((openLock_triple before).weaken (fun _ h => h) (fun _ _ h => h)
      fun _ h name => Or.inl (h name)).bind fun _ => ?_
    refine (hopened (call_triple .io)).bind fun _ => ?_
    refine (hopened (call_triple .locked)).bind fun _ => ?_
    refine (hopened (readDir_triple.weaken (fun _ h => h) (fun _ _ h => h)
      fun _ h => h)).bind fun entries => ?_
    refine (Triple.loop (I := fun rest _ => Ahead parses before rest) (fun entry rest _ =>
      sweep_triple before entry rest) entries ()).weaken ?_ ?_ fun _ h => h
    · rintro d ⟨hkept, rfl⟩
      have hsame : ∀ name, leftover parses name = true → d.get name = before.get name :=
        fun name hname => (hkept name).resolve_right fun h => leftover_ne_lock hname h.1
      refine ⟨fun name => Or.inl (hkept name), ?_, ?_⟩
      · intro name hleft hnot
        rw [hsame name hleft.1]
        cases hget : d.get name with
        | none => rw [← hsame name hleft.1, hget]
        | some node =>
            exact absurd (List.mem_map_of_mem (Listing.get_eq_some_iff.mp hget)) hnot
      · intro entry hentry hname
        rw [← hsame entry.1 hname]
        exact Listing.get_eq_some_iff.mpr hentry
    · intro _ d h name
      refine ⟨fun hleft => h.gone name hleft (by simp), fun hleft => ?_⟩
      exact (h.swept name).resolve_right fun hgone => hleft hgone.1

end HealthMonitor.Storage
