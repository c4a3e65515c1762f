import HealthMonitor.Core.Publishing

/-!
# History bytes

How much the files of the monitor take up after a publication. The two passes
of retention only ever remove history files, so what they cannot bring down is
the snapshot, the report and the lock.
-/

namespace HealthMonitor.Storage

open Faulty

variable {parses : String → Bool} {allowed : Fate → Prop}

/-! ## Sizes -/

/-- The length `measure` finds under a name, nothing counting as zero. -/
def lengthOf (d : Directory) (name : String) : Nat :=
  match d.get name with
  | some node => node.metadata.toOption.getD 0
  | none => 0

/-- The files retention counts but never removes. -/
def fixedBytes (d : Directory) : Nat :=
  lengthOf d latestName + lengthOf d reportName + lengthOf d lockName

def historySize (parses : String → Bool) (entry : String × Node) : Nat :=
  ((candidate parses entry).map Candidate.size).getD 0

def historyTotal (parses : String → Bool) (d : Directory) : Nat :=
  Entries.total (historySize parses) d.entries

/-- Everything the byte limit is about. -/
def totalBytes (parses : String → Bool) (d : Directory) : Nat :=
  fixedBytes d + historyTotal parses d

theorem historySize_of_not_owned {entry : String × Node} (h : owned parses entry.1 = none) :
    historySize parses entry = 0 := by
  simp [historySize, candidate, h]

theorem historySize_file_le (name : String) (bytes : Bytes) (modified : Time) :
    historySize parses (name, .file bytes modified) ≤ bytes.length := by
  unfold historySize candidate
  cases owned parses name <;> simp

theorem lengthOf_put_self (d : Directory) (place : Nat) (name : String) (bytes : Bytes)
    (modified : Time) : lengthOf (d.put place name (.file bytes modified)) name = bytes.length := by
  rw [lengthOf, Listing.get_put_self]
  rfl

theorem lengthOf_put_of_ne (d : Directory) (place : Nat) {name other : String} (node : Node)
    (h : other ≠ name) : lengthOf (d.put place name node) other = lengthOf d other := by
  rw [lengthOf, lengthOf, Listing.get_put_of_ne _ _ _ h]

theorem lengthOf_erase_of_ne (d : Directory) {name other : String} (h : other ≠ name) :
    lengthOf (d.erase name) other = lengthOf d other := by
  rw [lengthOf, lengthOf, Listing.get_erase_of_ne _ h]

/-- A name retention never removes. -/
def Fixed (name : String) : Prop := name = latestName ∨ name = reportName ∨ name = lockName

theorem Fixed.not_owned {name : String} (h : Fixed name) : owned parses name = none := by
  obtain rfl | rfl | rfl := h
  · exact owned_latestName
  · exact owned_reportName
  · exact owned_lockName

theorem Fixed.ne_owned {name other : String} (h : Fixed name)
    (hother : (owned parses other).isSome = true) : name ≠ other := by
  rintro rfl
  rw [h.not_owned] at hother
  cases hother

theorem Fixed.ne_temporary {name : String} (h : Fixed name) (base : String) :
    name ≠ temporary base := by
  have := temporary_ne base
  obtain rfl | rfl | rfl := h
  · exact this.1.symm
  · exact this.2.1.symm
  · exact this.2.2.symm

theorem ne_temporary_self (name : String) : name ≠ temporary name := by
  intro h
  have := congrArg (fun s => s.toList.length) h
  simp only [temporary, String.toList_append, List.length_append] at this
  have hdot : 0 < ".".toList.length := by decide
  omega

theorem fixedBytes_congr {d d' : Directory}
    (h : ∀ name, Fixed name → lengthOf d' name = lengthOf d name) : fixedBytes d' = fixedBytes d := by
  rw [fixedBytes, fixedBytes, h _ (Or.inl rfl), h _ (Or.inr (Or.inl rfl)),
    h _ (Or.inr (Or.inr rfl))]

/-- Names the limit is not about may come and go. -/
theorem totalBytes_put_hidden (d : Directory) (place : Nat) (base : String) (node : Node) :
    totalBytes parses (d.put place (temporary base) node) =
      totalBytes parses (d.erase (temporary base)) := by
  have hhidden : historySize parses (temporary base, node) = 0 :=
    historySize_of_not_owned (owned_temporary base)
  have hfixed : fixedBytes (d.put place (temporary base) node) =
      fixedBytes (d.erase (temporary base)) := by
    apply fixedBytes_congr
    intro name hname
    rw [lengthOf_put_of_ne _ _ _ (hname.ne_temporary base),
      lengthOf_erase_of_ne _ (hname.ne_temporary base)]
  rw [totalBytes, totalBytes, historyTotal, Listing.total_put, hhidden, historyTotal, hfixed]
  rfl

theorem lengthOf_erase_le (d : Directory) (name other : String) :
    lengthOf (d.erase name) other ≤ lengthOf d other := by
  by_cases h : other = name
  · rw [h, lengthOf, Listing.get_erase_self]
    exact Nat.zero_le _
  · exact Nat.le_of_eq (lengthOf_erase_of_ne d h)

theorem totalBytes_erase_le (d : Directory) (name : String) :
    totalBytes parses (d.erase name) ≤ totalBytes parses d := by
  have hhistory := Listing.total_erase_le (historySize parses) d name
  have hlatest := lengthOf_erase_le d name latestName
  have hreport := lengthOf_erase_le d name reportName
  have hlock := lengthOf_erase_le d name lockName
  simp only [totalBytes, fixedBytes, historyTotal]
  omega

/-- A file counts once: in its own right or as history. -/
theorem totalBytes_put_le (d : Directory) (place : Nat) (name : String) (bytes : Bytes)
    (modified : Time) :
    totalBytes parses (d.put place name (.file bytes modified)) ≤
      totalBytes parses d + bytes.length := by
  have hhistory := Listing.total_put (historySize parses) d place name (.file bytes modified)
  have hmonotone := Listing.total_erase_le (historySize parses) d name
  have hsize : historySize parses (name, .file bytes modified) ≤ bytes.length :=
    historySize_file_le name bytes modified
  by_cases hname : Fixed name
  · have hzero : historySize parses (name, .file bytes modified) = 0 :=
      historySize_of_not_owned hname.not_owned
    have hself := lengthOf_put_self d place name bytes modified
    have hother : ∀ other, other ≠ name →
        lengthOf (d.put place name (.file bytes modified)) other = lengthOf d other :=
      fun other => lengthOf_put_of_ne d place _
    simp only [totalBytes, fixedBytes, historyTotal]
    have hlr : latestName ≠ reportName := by decide
    have hlk : latestName ≠ lockName := by decide
    have hrk : reportName ≠ lockName := by decide
    obtain rfl | rfl | rfl := hname
    · rw [hother reportName hlr.symm, hother lockName hlk.symm]
      omega
    · rw [hother latestName hlr, hother lockName hrk.symm]
      omega
    · rw [hother latestName hlk, hother reportName hrk]
      omega
  · have hfixed : fixedBytes (d.put place name (.file bytes modified)) = fixedBytes d :=
      fixedBytes_congr fun other hother =>
        lengthOf_put_of_ne d place _ (by rintro rfl; exact hname hother)
    simp only [totalBytes, historyTotal, hfixed]
    omega

/-! ## What a publication adds -/

/-- The files take up at most `limit`, and the named ones are of known sizes. -/
structure Sized (parses : String → Bool) (limit : Nat) (sizes : List (String × Nat))
    (d : Directory) : Prop where
  total : totalBytes parses d ≤ limit
  sizes : ∀ p ∈ sizes, lengthOf d p.1 = p.2

variable {limit : Nat} {sizes : List (String × Nat)}

theorem Sized.erase {d : Directory} {name : String} (h : Sized parses limit sizes d)
    (hsizes : ∀ p ∈ sizes, p.1 ≠ name) : Sized parses limit sizes (d.erase name) where
  total := le_trans (totalBytes_erase_le d name) h.total
  sizes p hp := by rw [lengthOf_erase_of_ne _ (hsizes p hp), h.sizes p hp]

theorem Sized.blind (base : String) (hsizes : ∀ p ∈ sizes, Fixed p.1) :
    Blind (Sized parses limit sizes) (temporary base) where
  put d place node h := by
    have hne : ∀ p ∈ sizes, p.1 ≠ temporary base :=
      fun p hp => (hsizes p hp).ne_temporary base
    refine ⟨?_, fun p hp => by rw [lengthOf_put_of_ne _ _ _ (hne p hp), h.sizes p hp]⟩
    rw [totalBytes_put_hidden]
    exact (h.erase hne).total
  erase d h := h.erase fun p hp => (hsizes p hp).ne_temporary base

/-- Writing a file adds its size, and leaves the other known sizes. -/
theorem atomic_sized {name : String} (bytes : Bytes) (hsizes : ∀ p ∈ sizes, Fixed p.1)
    (hne : ∀ p ∈ sizes, p.1 ≠ name) :
    Triple allowed (Sized parses limit sizes) (atomic name bytes)
      (fun _ d => Sized parses (limit + bytes.length) sizes d ∧ lengthOf d name = bytes.length)
      (fun _ => True) := by
  have hblind : Blind (Sized parses limit sizes) (temporary name) := Sized.blind name hsizes
  refine (atomic_triple (J := fun d => Sized parses (limit + bytes.length) sizes d ∧
    (lengthOf d name = bytes.length)) hblind ?_ ?_).weaken (fun _ h => h) (fun _ _ h => h)
      fun _ _ => trivial
  · rintro d ⟨hd, hlength⟩
    refine ⟨hd.erase fun p hp => (hsizes p hp).ne_temporary name, ?_⟩
    rw [lengthOf_erase_of_ne _ (ne_temporary_self name), hlength]
  · intro d place modified hd
    have herased := hblind.erase d hd
    refine ⟨⟨?_, fun p hp => ?_⟩, lengthOf_put_self ..⟩
    · have hput : totalBytes parses ((d.erase (temporary name)).put place name
          (.file bytes modified)) ≤ totalBytes parses (d.erase (temporary name)) + bytes.length :=
        totalBytes_put_le ..
      have := herased.total
      omega
    · rw [lengthOf_put_of_ne _ _ _ (hne p hp), herased.sizes p hp]

/-! ## What retention brings it down to -/

/-- Every step of the script succeeds. -/
def Smooth (fate : Fate) : Prop := ∃ pick, fate = .done pick

theorem smooth_fail (torn : Nat) : ¬ (Smooth (.fail torn) ∨ Smooth (.stop torn)) := by
  rintro (⟨_, h⟩ | ⟨_, h⟩) <;> cases h

/-- When no step fails, what is measured is there. -/
theorem measure_smooth {before : Directory} (name : String) :
    Triple Smooth (fun d => d = before) (measure name)
      (fun length d => d = before ∧ length = lengthOf before name) (fun _ => True) := by
  apply Triple.weaken (X := fun d => d = before ∧ lengthOf before name = 0)
    (Q := fun length d => d = before ∧ length = lengthOf before name) (P := fun d => d = before)
    ?_ (fun _ h => h) (fun _ _ h => h) fun _ _ => trivial
  apply Triple.bind (Q := fun found d => d = before ∧ found.toOption.getD 0 = lengthOf before name)
  · apply Triple.attempt (Q := fun length d => d = before ∧ length = lengthOf before name)
    · apply Triple.look
      · rintro d length rfl h
        refine ⟨rfl, ?_⟩
        unfold lengthOf
        cases hget : d.get name with
        | none => simp [hget] at h
        | some node =>
            simp only [hget, Option.map_some, Option.getD_some] at h
            simp [h, Except.toOption]
      · rintro d error rfl h
        refine ⟨rfl, ?_⟩
        unfold lengthOf
        cases hget : d.get name with
        | none => rfl
        | some node =>
            simp only [hget, Option.map_some, Option.getD_some] at h
            simp [h, Except.toOption]
      · exact fun torn _ h => absurd h (smooth_fail torn)
    · exact fun _ _ h => h
    · exact fun _ _ h => ⟨h.1, h.2.symm⟩
  · intro found
    cases found with
    | ok length => exact Triple.ret fun _ h => h
    | error error => exact Triple.ret fun _ h => h

/-- Gathering adds the sizes up, as long as they fit. -/
theorem gatherAll_bytes (entries : List (String × Node)) (gathered : Gathered)
    (h : gathered.bytes + Entries.total (historySize parses) entries ≤ u64Max) :
    (gatherAll parses entries gathered).bytes =
      gathered.bytes + Entries.total (historySize parses) entries := by
  induction entries generalizing gathered with
  | nil => rfl
  | cons entry entries ih =>
      rw [Entries.total_cons] at h ⊢
      rw [gatherAll, List.foldl_cons, ← gatherAll]
      have hadd : (gathered.add (candidate parses entry)).bytes =
          gathered.bytes + historySize parses entry := by
        unfold historySize at h ⊢
        cases hc : candidate parses entry with
        | none => simp [Gathered.add]
        | some file =>
            simp only [hc, Option.map_some, Option.getD_some] at h
            simp only [Gathered.add, saturatingAdd, Option.map_some, Option.getD_some]
            omega
      rw [ih _ (by omega), hadd]
      omega

/-- While history is pruned: the limit is met, or only what lies ahead is left. -/
structure Pruning (parses : String → Bool) (settings : Settings) (fixed : Nat)
    (rest : List Candidate) (usage : Usage) (d : Directory) : Prop where
  fixed : fixedBytes d = fixed
  bytes : usage.bytes = totalBytes parses d
  ahead : ∀ file ∈ rest, ∃ node, d.get file.name = some node ∧
    candidate parses (file.name, node) = some file
  distinct : (rest.map Candidate.name).Nodup
  met : totalBytes parses d ≤ settings.historyBytes ∨
    historyTotal parses d = Entries.total Candidate.size rest

theorem Pruning.keep {settings : Settings} {fixed : Nat} {file : Candidate}
    {rest : List Candidate} {usage : Usage} {d : Directory}
    (h : Pruning parses settings fixed (file :: rest) usage d)
    (hmet : usage.bytes ≤ settings.historyBytes) :
    Pruning parses settings fixed rest usage d where
  fixed := h.fixed
  bytes := h.bytes
  ahead other hother := h.ahead other (List.mem_cons_of_mem _ hother)
  distinct := (List.nodup_cons.mp h.distinct).2
  met := Or.inl (h.bytes ▸ hmet)

theorem Pruning.remove {settings : Settings} {fixed : Nat} {file : Candidate}
    {rest : List Candidate} {usage : Usage} {d : Directory}
    (h : Pruning parses settings fixed (file :: rest) usage d) :
    Pruning parses settings fixed rest (usage.without file) (d.erase file.name) := by
  obtain ⟨node, hget, hcandidate⟩ := h.ahead file (by simp)
  obtain ⟨-, howned⟩ := candidate_name hcandidate
  have hdistinct := List.nodup_cons.mp h.distinct
  have hfixed : fixedBytes (d.erase file.name) = fixedBytes d := by
    apply fixedBytes_congr
    intro name hname
    apply lengthOf_erase_of_ne
    rintro rfl
    rw [hname.not_owned] at howned
    cases howned
  have hhistory := Listing.total_erase (historySize parses) hget
  have hsize : historySize parses (file.name, node) = file.size := by
    rw [historySize, hcandidate]
    rfl
  have htotal : totalBytes parses (d.erase file.name) + file.size = totalBytes parses d := by
    simp only [totalBytes, historyTotal, hfixed]
    omega
  refine ⟨hfixed.trans h.fixed, ?_, ?_, hdistinct.2, ?_⟩
  · have := h.bytes
    simp only [Usage.without]
    omega
  · intro other hother
    have hne : other.name ≠ file.name :=
      fun heq => hdistinct.1 (heq ▸ List.mem_map_of_mem hother)
    rw [Listing.get_erase_of_ne _ hne]
    exact h.ahead other (List.mem_cons_of_mem _ hother)
  · obtain hmet | hmet := h.met
    · left
      omega
    · right
      rw [Entries.total_cons] at hmet
      simp only [historyTotal] at hmet ⊢
      omega

theorem pruneAll_pruning (settings : Settings) (now : Time) (fixed : Nat)
    (files : List Candidate) (usage : Usage) :
    Triple allowed (Pruning parses settings fixed files usage)
      (loop (prune settings now) files usage) (Pruning parses settings fixed [])
      (fun _ => True) := by
  apply Triple.loop (I := fun rest usage => Pruning parses settings fixed rest usage)
  intro file rest usage
  unfold prune
  split
  · refine Triple.bind (Q := fun _ => Pruning parses settings fixed rest (usage.without file))
      ?_ fun _ => Triple.ret fun _ h => h
    apply Triple.step
    · intro _ d value d' hd h
      dsimp only at h
      split at h
      · cases h
      · cases h
        exact hd.remove
      · cases h
    · exact fun _ _ _ _ _ => trivial
    · exact fun _ _ _ _ => trivial
  · rename_i hexceeds
    refine Triple.ret fun _ hd => hd.keep ?_
    simp only [exceeds, Bool.or_eq_true, decide_eq_true_eq, not_or] at hexceeds
    omega

theorem total_history (entries : List (String × Node)) :
    Entries.total Candidate.size (entries.filterMap (candidate parses)) =
      Entries.total (historySize parses) entries := by
  induction entries with
  | nil => rfl
  | cons entry entries ih =>
      rw [Entries.total_cons, ← ih, historySize]
      cases h : candidate parses entry with
      | none => simp [h]
      | some file => simp [h]

theorem history_names (entries : List (String × Node)) :
    ((entries.filterMap (candidate parses)).map Candidate.name).Sublist
      (entries.map Prod.fst) := by
  induction entries with
  | nil => exact List.Sublist.refl _
  | cons entry entries ih =>
      rw [List.map_cons]
      cases h : candidate parses entry with
      | none =>
          rw [List.filterMap_cons_none h]
          exact ih.cons _
      | some file =>
          rw [List.filterMap_cons_some h, List.map_cons, (candidate_name h).1]
          exact ih.cons_cons _

/-- The history files of a directory in the order they are pruned. -/
def history (parses : String → Bool) (d : Directory) : List Candidate :=
  (d.entries.filterMap (candidate parses)).insertionSort Candidate.precedes

theorem history_perm (d : Directory) :
    (history parses d).Perm (d.entries.filterMap (candidate parses)) :=
  List.perm_insertionSort _ _

theorem history_nodup (d : Directory) : ((history parses d).map Candidate.name).Nodup :=
  ((history_perm d).map Candidate.name).nodup_iff.mpr ((history_names d.entries).nodup d.nodup)

theorem mem_history_iff {d : Directory} {file : Candidate} :
    file ∈ history parses d ↔
      ∃ node, d.get file.name = some node ∧ candidate parses (file.name, node) = some file := by
  rw [(history_perm d).mem_iff, List.mem_filterMap]
  constructor
  · rintro ⟨entry, hentry, hfile⟩
    have hname := (candidate_name hfile).1
    refine ⟨entry.2, ?_, ?_⟩
    · rw [hname]
      exact Listing.get_eq_some_iff.mpr hentry
    · rw [hname]
      exact hfile
  · rintro ⟨node, hget, hfile⟩
    exact ⟨_, Listing.get_eq_some_iff.mp hget, hfile⟩

theorem Pruning.start {settings : Settings} {d : Directory} {usage : Usage}
    (husage : usage.bytes = totalBytes parses d) :
    Pruning parses settings (fixedBytes d) (history parses d) usage d where
  fixed := rfl
  bytes := husage
  ahead _ hfile := mem_history_iff.mp hfile
  distinct := history_nodup d
  met := Or.inr (by
    rw [Entries.total_perm (history_perm d), total_history]
    rfl)

theorem readDir_known (before : Directory) :
    Triple allowed (fun d => d = before) readDir
      (fun entries d => d = before ∧ entries = before.entries) (fun d => d = before) :=
  Triple.read (fun _ _ hs h => ⟨hs, hs ▸ (Except.ok.inj h).symm⟩) fun _ hs => hs

/-- A pass in which no step fails meets the limit, or leaves no history. -/
theorem retain_smooth (settings : Settings) (now : Time) (before : Directory)
    (hfits : totalBytes parses before ≤ u64Max) :
    Triple Smooth (fun d => d = before) (retain parses settings now)
      (fun _ d => fixedBytes d = fixedBytes before ∧
        (totalBytes parses d ≤ settings.historyBytes ∨ historyTotal parses d = 0))
      (fun _ => True) := by
  unfold retain
  refine (measure_smooth latestName).bind fun latest => Triple.assuming fun hlatest => ?_
  refine (measure_smooth reportName).bind fun report => Triple.assuming fun hreport => ?_
  refine (measure_smooth lockName).bind fun lock => Triple.assuming fun hlock => ?_
  refine ((readDir_known before).weaken (fun _ h => h) (fun _ _ h => h)
    fun _ _ => trivial).bind fun entries => Triple.assuming fun hentries => ?_
  refine ((gatherAll_triple entries _ (by simp)).weaken (fun _ h => h)
    (fun _ _ h => ⟨h.1, h.2.1⟩) fun _ _ => trivial).bind fun gathered =>
      Triple.assuming fun hgathered => ?_
  subst hentries
  have hfixed : latest + report + lock = fixedBytes before := by
    rw [hlatest, hreport, hlock, fixedBytes]
  have hfiles : gathered.files.insertionSort Candidate.precedes = history parses before := by
    rw [hgathered, gatherAll_files, List.nil_append, history]
  have hbytes : gathered.bytes = totalBytes parses before := by
    rw [hgathered, gatherAll_bytes _ _ (by rw [hfixed]; exact hfits), hfixed]
    rfl
  dsimp only
  rw [hfiles]
  refine ((pruneAll_pruning settings now (fixedBytes before) _ _).weaken ?_ (fun _ _ h => h)
    fun _ h => h).bind fun _ => Triple.ret fun d h => ⟨h.fixed, h.met⟩
  rintro d rfl
  exact Pruning.start hbytes

theorem retain_sized (settings : Settings) (now : Time)
    (hsizes : ∀ p ∈ sizes, Fixed p.1) :
    Triple allowed (Sized parses limit sizes) (retain parses settings now)
      (fun _ => Sized parses limit sizes) (fun _ => True) :=
  (retain_triple settings now fun _ hname _ h => h.erase fun p hp =>
    (hsizes p hp).ne_owned hname).weaken (fun _ h => h) (fun _ _ h => h) fun _ _ => trivial

/-- Writing history adds its size, and nothing to the files of known sizes. -/
theorem atomic_history {name : String} (bytes : Bytes) (hsizes : ∀ p ∈ sizes, Fixed p.1)
    (hname : (owned parses name).isSome = true) :
    Triple allowed (Sized parses limit sizes) (atomic name bytes)
      (fun _ => Sized parses (limit + bytes.length) sizes) (fun _ => True) :=
  (atomic_sized bytes hsizes fun p hp => (hsizes p hp).ne_owned hname).weaken
    (fun _ h => h) (fun _ _ h => h.1) fun _ h => h

/-- Writing a file of its own fixes its size. -/
theorem atomic_fixed {name : String} (bytes : Bytes) (hsizes : ∀ p ∈ sizes, Fixed p.1)
    (hne : ∀ p ∈ sizes, p.1 ≠ name) :
    Triple allowed (Sized parses limit sizes) (atomic name bytes)
      (fun _ => Sized parses (limit + bytes.length) ((name, bytes.length) :: sizes))
      (fun _ => True) :=
  (atomic_sized bytes hsizes hne).weaken (fun _ h => h)
    (fun _ _ h => ⟨h.1.total, List.forall_mem_cons.mpr ⟨h.2, h.1.sizes⟩⟩) fun _ h => h

/-- The sizes a publication leaves for its last pass: what it wrote adds up to
its reserve, so nothing has saturated. -/
theorem publishFiles_sized (encoders : Encoders) (snapshot : Snapshot)
    (transitions : List Transition) (settings : Settings) (before : Directory)
    (hstamp : parses (stamp snapshot.capturedAt) = true)
    (hfits : totalBytes parses before + settings.historyBytes < u64Max) :
    Triple allowed (fun d => d = before)
      (publishFiles parses encoders snapshot transitions settings)
      (fun _ => Sized parses u64Max
        [(latestName, (encoders.json snapshot).length),
          (reportName, (encoders.markdown snapshot).length),
          (lockName, lengthOf before lockName)])
      (fun _ => True) := by
  unfold publishFiles
  dsimp only
  split
  · exact Triple.raise fun _ _ => trivial
  split
  · exact Triple.raise fun _ _ => trivial
  rename_i _ hreserve
  generalize encoders.json snapshot = encoded at *
  generalize encoders.markdown snapshot = report at *
  generalize (transitions.flatMap fun transition => encoders.event transition ++ [10]) =
    events at *
  have hsum : 2 * encoded.length + report.length + events.length ≤ settings.historyBytes := by
    simp only [saturatingAdd, saturatingMul] at hreserve
    omega
  let lock := (lockName, lengthOf before lockName)
  have hlock : ∀ p ∈ [lock], Fixed p.1 := by simp [lock, Fixed]
  have hboth : ∀ p ∈ [(reportName, report.length), lock], Fixed p.1 := by simp [lock, Fixed]
  have hsnapshot : (owned parses (snapshotName snapshot.capturedAt)).isSome = true := by
    rw [owned_snapshotName hstamp]
    rfl
  have hevents : (owned parses (eventsName snapshot.capturedAt)).isSome = true := by
    rw [owned_eventsName hstamp]
    rfl
  -- the total grows by what is written, one file after the other
  apply Triple.weaken (P := Sized parses (totalBytes parses before) [lock]) ?_
    (by rintro d rfl; exact ⟨Nat.le_refl _, by simp [lock]⟩) (fun _ _ h => h) fun _ h => h
  refine (retain_sized _ _ hlock).bind fun _ => ?_
  refine (atomic_history encoded hlock hsnapshot).bind fun _ => ?_
  refine Triple.bind (Q := fun _ => Sized parses
    (totalBytes parses before + encoded.length + events.length) [lock]) ?_ fun _ => ?_
  · unfold atomicNonempty
    split
    · exact Triple.ret fun _ h => ⟨le_trans h.total (Nat.le_add_right _ _), h.sizes⟩
    · exact atomic_history events hlock hevents
  refine (atomic_fixed report hlock (by simp [lock]; decide)).bind fun _ => ?_
  refine (atomic_fixed encoded hboth (by simp [lock]; decide)).weaken (fun _ h => h)
    (fun _ d h => ⟨?_, h.sizes⟩) fun _ h => h
  have := h.total
  omega

/-- When no step of the last pass fails, the limit is met exactly when the files that
stay allow it. -/
theorem lastPass_smooth (settings : Settings) (now : Time) {encoded report lock : Nat} :
    Triple Smooth
      (Sized parses u64Max [(latestName, encoded), (reportName, report), (lockName, lock)])
      (retain parses settings now)
      (fun _ d => totalBytes parses d ≤ settings.historyBytes ↔
        encoded + report + lock ≤ settings.historyBytes)
      (fun _ => True) := by
  apply Triple.pointwise
  intro start hstart
  have hfixed : fixedBytes start = encoded + report + lock := by
    have hlatest := hstart.sizes (latestName, encoded) (by simp)
    have hreport := hstart.sizes (reportName, report) (by simp)
    have hkept := hstart.sizes (lockName, lock) (by simp)
    rw [fixedBytes, hlatest, hreport, hkept]
  refine (retain_smooth settings now start hstart.total).weaken (fun _ h => h) ?_ fun _ h => h
  rintro _ d ⟨hsame, hmet⟩
  rw [hfixed] at hsame
  simp only [totalBytes] at hmet ⊢
  omega

/-- No step of the last pass of retention fails. -/
def LastPassSucceeds (parses : String → Bool) (encoders : Encoders) (snapshot : Snapshot)
    (transitions : List Transition) (settings : Settings) (script : List Fate)
    (before : Directory) : Prop :=
  ∀ fate ∈ (publishFiles parses encoders snapshot transitions settings script before).rest,
    Smooth fate

theorem publish_bytes (encoders : Encoders) (snapshot : Snapshot)
    (transitions : List Transition) (settings : Settings) (before : Directory)
    (hstamp : parses (stamp snapshot.capturedAt) = true)
    (hfits : totalBytes parses before + settings.historyBytes < u64Max) (script : List Fate)
    (hlast : LastPassSucceeds parses encoders snapshot transitions settings script before)
    (hreturned : (publish parses encoders snapshot transitions settings script before).ending =
      .returned ()) :
    totalBytes parses
        (publish parses encoders snapshot transitions settings script before).store ≤
      settings.historyBytes ↔
    (encoders.json snapshot).length + (encoders.markdown snapshot).length +
      lengthOf before lockName ≤ settings.historyBytes := by
  have hfiles := (publishFiles_sized encoders snapshot transitions settings before hstamp
    hfits).meets script rfl
  have hpublish : publish parses encoders snapshot transitions settings script before =
      (publishFiles parses encoders snapshot transitions settings script before).followed
        (fun _ => retain parses settings snapshot.capturedAt) := rfl
  unfold LastPassSucceeds at hlast
  rw [hpublish] at hreturned ⊢
  cases hrun : publishFiles parses encoders snapshot transitions settings script before with
  | mk ending rest store =>
      rw [hrun] at hfiles hlast hreturned
      cases ending with
      | raised error => cases hreturned
      | stopped => cases hreturned
      | returned value =>
          have hpass := (lastPass_smooth settings snapshot.capturedAt rest store hlast hfiles).2
          simp only [Outcome.followed] at hreturned ⊢
          cases hretain : retain parses settings snapshot.capturedAt rest store with
          | mk ending rest' store' =>
              rw [hretain] at hreturned hpass
              cases hreturned
              exact hpass

/-! ## The whole of a publication -/

/-- A publication that may break off at any step leaves the latest snapshot whole, old
or new, and touches no file that is not the monitor's. Reopening then removes exactly
the interrupted temporaries. One that returns has replaced the latest snapshot, and
its files meet the limit exactly when snapshot, report and lock do. -/
theorem publish_crash_atomic (parses : String → Bool) (encoders : Encoders)
    (snapshot : Snapshot) (transitions : List Transition) (settings : Settings)
    (before : Directory) (script : List Fate)
    (hstamp : parses (stamp snapshot.capturedAt) = true) :
    let outcome := publish parses encoders snapshot transitions settings script before
    (outcome.store.get latestName = before.get latestName ∨
      ∃ modified,
        outcome.store.get latestName = some (.file (encoders.json snapshot) modified)) ∧
    (∀ name, ¬ Monitored parses name → outcome.store.get name = before.get name) ∧
    (∀ linked later,
      let reopened := openStore parses linked later outcome.store
      Sweeping parses outcome.store reopened.store ∧
        (reopened.ending = .returned () → Swept parses outcome.store reopened.store)) ∧
    (outcome.ending = .returned () →
      (∃ modified,
        outcome.store.get latestName = some (.file (encoders.json snapshot) modified)) ∧
      (LastPassSucceeds parses encoders snapshot transitions settings script before →
        totalBytes parses before + settings.historyBytes < u64Max →
        (totalBytes parses outcome.store ≤ settings.historyBytes ↔
          (encoders.json snapshot).length + (encoders.markdown snapshot).length +
            lengthOf before lockName ≤ settings.historyBytes))) := by
  intro outcome
  have hmeets := (publish_triple encoders snapshot transitions settings before hstamp).meets
    script ⟨fun _ _ => rfl, rfl⟩
  have hends : Unpublished parses before outcome.store ∨
      Replaced parses before (encoders.json snapshot) outcome.store := by
    obtain ⟨_, -, hdone⟩ | hbroken := hmeets.cases
    · exact Or.inr hdone
    · exact hbroken
  refine ⟨?_, ?_, ?_, ?_⟩
  · exact hends.imp And.right And.right
  · exact hends.elim And.left And.left
  · intro linked later
    have hopen : ((openStore parses linked) later outcome.store).Meets
        (fun _ => Swept parses outcome.store) (Sweeping parses outcome.store) :=
      (openStore_triple linked outcome.store).meets later rfl
    refine ⟨?_, fun hending => hopen.returned hending⟩
    obtain ⟨_, -, hswept⟩ | hbroken := hopen.cases
    · exact hswept.sweeping
    · exact hbroken
  · intro hending
    exact ⟨(hmeets.returned hending).2, fun hlast hfits =>
      publish_bytes encoders snapshot transitions settings before hstamp hfits script hlast
        hending⟩

/-! ## A lock with content -/

/-- The empty state of 5 September 2026, half a second after noon. -/
def quiet : Snapshot :=
  { revision := "test", capturedAt := 1788609600500000000, selectedScope := [] }

def quietJson : String :=
  "\x7b\"version\":1,\"revision\":\"test\",\"captured_at\":\"2026-09-05T12:00:00.500Z\","
    ++ "\"selected_scope\":[],\"collection_only\":[],\"scope_fingerprints\":\x7b\x7d,"
    ++ "\"samples\":\x7b\x7d,\"selectors\":\x7b\x7d,\"regions\":\x7b\x7d,\"freshness\":\x7b\x7d,"
    ++ "\"results\":\x7b\x7d,\"findings\":\x7b\x7d,\"health\":\x7b\x7d,\"pressure\":\x7b\x7d,"
    ++ "\"progress\":\x7b\x7d,\"retired\":\x7b\x7d,\"confirmations\":\x7b\x7d,"
    ++ "\"persistence_fault\":false,\"dropped_transitions\":0\x7d"

def quietReport : String :=
  "# Health check\n\nObserved: 2026-09-05T12:00:00.500+00:00\n\n"
    ++ "Selected scope: 0 checks. This report covers only the selected scope.\n\n"
    ++ "| Check | Collection coverage | Observations | Samples |\n| --- | --- | --- | --- |\n"
    ++ "\n| Resource | Rule | Severity | Stale |\n| --- | --- | --- | --- |\n"
    ++ "\nNo active findings. Inventory and missing telemetry do not establish system health.\n"

def quietEncoders : Encoders where
  json _ := quietJson.toUTF8.data.toList
  markdown _ := quietReport.toUTF8.data.toList
  event _ := []

def reads (text : String) : Bool := text == stamp quiet.capturedAt

/-- A lock file of the given length, in an otherwise empty directory. -/
def locked (length : Nat) : Directory where
  entries := [(lockName, .file (List.replicate length 0) 0)]
  nodup := by simp

/-- Every step succeeds, at the time of the snapshot. -/
def calm : List Fate := List.replicate 60 (.done 1788609600500000000)

/-- The publication breaks off in the middle of the first file it writes. -/
def torn : List Fate := List.replicate 9 (.done 1788609600500000000) ++ [.stop 100]

/-- Besides the lock there is a file of somebody else. -/
def notes : Directory where
  entries := [(lockName, .file [] 0), ("notes.txt", .file [7] 0)]
  nodup := by decide

theorem not_monitored_notes : ¬ Monitored reads "notes.txt" := by
  rintro (hwritten | htemporary)
  · exact absurd hwritten (by unfold Written; decide)
  · exact absurd (leftover_iff.mpr htemporary) (by decide)

def broken := publish reads quietEncoders quiet [] .default torn notes

/-- There is room for one snapshot and one report. -/
def narrow : Settings := { Settings.default with historyBytes := 2500 }

def whole := publish reads quietEncoders quiet [] narrow calm notes

/-- A publication that breaks off leaves its first temporary, and reopening removes it;
one that does not replaces the latest snapshot within the limit. -/
theorem publish_crash_atomic_torn :
    broken.store.get latestName = none
      ∧ broken.store.get "notes.txt" = some (.file [7] 0)
      ∧ broken.store.entries.length = 3
      ∧ Swept reads broken.store (openStore reads false calm broken.store).store
      ∧ (∃ modified, whole.store.get latestName = some (.file (quietEncoders.json quiet) modified))
      ∧ totalBytes reads whole.store ≤ 2500 := by
  have hstamp : reads (stamp quiet.capturedAt) = true := by decide +kernel
  obtain ⟨-, hforeign, hopen, -⟩ :=
    publish_crash_atomic reads quietEncoders quiet [] .default notes torn hstamp
  obtain ⟨-, -, -, hreturned⟩ :=
    publish_crash_atomic reads quietEncoders quiet [] narrow notes calm hstamp
  have hending : whole.ending = .returned () := by decide +kernel
  obtain ⟨hlatest, hbytes⟩ := hreturned hending
  have hlast : LastPassSucceeds reads quietEncoders quiet [] narrow calm notes := by
    have hrest : (publishFiles reads quietEncoders quiet [] narrow calm notes).rest.all
        (· == .done 1788609600500000000) = true := by decide +kernel
    exact fun fate hfate => ⟨_, beq_iff_eq.mp (List.all_eq_true.mp hrest fate hfate)⟩
  refine ⟨by decide +kernel, hforeign _ not_monitored_notes, by decide +kernel, ?_, hlatest, ?_⟩
  · exact (hopen false calm).2 (by decide +kernel)
  · exact (hbytes hlast (by decide +kernel)).mpr (by decide +kernel)

/-- A lock as long as the limit lets a publication return above it. -/
theorem publish_over_limit :
    (publish reads quietEncoders quiet [] { historyBytes := 2500, responseBytes := 1024 } calm
      (locked 2500)).ending = .returned () ∧
    2500 < totalBytes reads (publish reads quietEncoders quiet []
      { historyBytes := 2500, responseBytes := 1024 } calm (locked 2500)).store := by
  decide +kernel

end HealthMonitor.Storage
