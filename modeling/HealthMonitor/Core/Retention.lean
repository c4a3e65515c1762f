import HealthMonitor.Core.HistoryBytes

/-!
# Retention

Which history a pass of retention removes. Files are pruned in the order of
their sort keys, and a key is the stamp without its fraction of a second: files
of one second are equal to it and stay in the order the directory lists them.
-/

namespace HealthMonitor.Storage

open Faulty

variable {parses : String → Bool} {allowed : Fate → Prop}

/-! ## Pruning in order -/

/-- What is removed precedes, in the sense of `R`, what is kept. -/
def Oldest (R : Candidate → Candidate → Prop) (files : List Candidate) (d : Directory) : Prop :=
  ∀ a ∈ files, ∀ b ∈ files, a.snapshot = true → b.snapshot = true →
    d.get a.name = none → d.get b.name ≠ none → R a b

/-- Snapshots are listed in the order `R`, and no later one was modified earlier. -/
def Ranked (R : Candidate → Candidate → Prop) (files : List Candidate) : Prop :=
  files.Pairwise fun a b => a.snapshot = true → b.snapshot = true →
    R a b ∧ a.modified ≤ b.modified

/-- Pruning has removed every snapshot so far, or will not remove another. -/
structure Progressing (R : Candidate → Candidate → Prop) (settings : Settings) (now : Time)
    (before rest : List Candidate) (usage : Usage) (d : Directory) : Prop where
  present : ∀ file ∈ rest, d.get file.name ≠ none
  split : (∀ file ∈ before, file.snapshot = true → d.get file.name = none) ∨
    (∀ file ∈ rest, file.snapshot = true → exceeds settings now usage file = false) ∧
      Oldest R (before ++ rest) d

section

variable {R : Candidate → Candidate → Prop} {settings : Settings} {now : Time}
  {before rest : List Candidate} {file : Candidate} {usage : Usage} {d : Directory}

theorem Progressing.oldest (h : Progressing R settings now before rest usage d)
    (hranked : Ranked R (before ++ rest)) : Oldest R (before ++ rest) d := by
  obtain hgone | ⟨-, holdest⟩ := h.split
  · intro a ha b hb hsa hsb hremoved hkept
    have hb' : b ∈ rest := by
      obtain hb | hb := List.mem_append.mp hb
      · exact absurd (hgone b hb hsb) hkept
      · exact hb
    have ha' : a ∈ before := by
      obtain ha | ha := List.mem_append.mp ha
      · exact ha
      · exact absurd hremoved (h.present a ha)
    exact ((List.pairwise_append.mp hranked).2.2 a ha' b hb' hsa hsb).1
  · exact holdest

/-- A file in the past is no younger than one modified later. -/
theorem age_le {now a b : Time} (h : a ≤ b) : age now b ≤ age now a := by
  have key : ∀ n x y : Int, x ≤ y →
      (if n < y then 0 else n - y) ≤ (if n < x then 0 else n - x) := by
    intro n x y hxy
    split <;> split <;> omega
  exact key now a b h

theorem exceeds_mono {usage' : Usage} {file' : Candidate}
    (h : exceeds settings now usage file = false) (hbytes : usage'.bytes ≤ usage.bytes)
    (hcount : usage'.count ≤ usage.count) (hage : file.modified ≤ file'.modified) :
    exceeds settings now usage' file' = false := by
  have := @age_le now _ _ hage
  simp only [exceeds, Bool.or_eq_false_iff, decide_eq_false_iff_not] at h ⊢
  refine ⟨⟨?_, ?_⟩, ?_⟩
  · omega
  · omega
  · exact fun hlt => h.2 (lt_of_lt_of_le hlt this)

theorem Usage.without_le (usage : Usage) (file : Candidate) :
    (usage.without file).bytes ≤ usage.bytes ∧ (usage.without file).count ≤ usage.count := by
  unfold Usage.without
  refine ⟨Nat.sub_le _ _, ?_⟩
  dsimp only
  split <;> omega

theorem Progressing.keep (h : Progressing R settings now before (file :: rest) usage d)
    (hranked : Ranked R (before ++ file :: rest))
    (hkept : exceeds settings now usage file = false) :
    Progressing R settings now (before ++ [file]) rest usage d where
  present other hother := h.present other (List.mem_cons_of_mem _ hother)
  split := by
    have holdest := h.oldest hranked
    rw [List.append_cons] at holdest
    by_cases hsnapshot : file.snapshot = true
    · right
      refine ⟨fun other hother hs => ?_, holdest⟩
      have hpair := (List.pairwise_append.mp hranked).2.1
      have hmodified := (List.pairwise_cons.mp hpair).1 other hother hsnapshot hs
      exact exceeds_mono hkept (Nat.le_refl _) (Nat.le_refl _) hmodified.2
    · obtain hgone | ⟨hstays, -⟩ := h.split
      · left
        intro other hother hs
        obtain hother | hother := List.mem_append.mp hother
        · exact hgone other hother hs
        · exact absurd (List.mem_singleton.mp hother ▸ hs) hsnapshot
      · exact Or.inr ⟨fun other hother => hstays other (List.mem_cons_of_mem _ hother), holdest⟩

theorem Progressing.remove (h : Progressing R settings now before (file :: rest) usage d)
    (hnodup : ((before ++ file :: rest).map Candidate.name).Nodup)
    (hexceeds : exceeds settings now usage file = true) :
    Progressing R settings now (before ++ [file]) rest (usage.without file)
      (d.erase file.name) := by
  have hne : ∀ other ∈ rest, other.name ≠ file.name := by
    intro other hother heq
    rw [List.map_append, List.map_cons, List.nodup_append, List.nodup_cons] at hnodup
    exact hnodup.2.1.1 (heq ▸ List.mem_map_of_mem hother)
  have hkeeps : ∀ name, d.get name = none → (d.erase file.name).get name = none := by
    intro name hname
    by_cases heq : name = file.name
    · rw [heq, Listing.get_erase_self]
    · rw [Listing.get_erase_of_ne _ heq, hname]
  refine ⟨fun other hother => ?_, ?_⟩
  · rw [Listing.get_erase_of_ne _ (hne other hother)]
    exact h.present other (List.mem_cons_of_mem _ hother)
  · obtain hgone | ⟨hstays, holdest⟩ := h.split
    · left
      intro other hother hs
      obtain hother | hother := List.mem_append.mp hother
      · exact hkeeps _ (hgone other hother hs)
      · rw [List.mem_singleton.mp hother, Listing.get_erase_self]
    · -- only events are removed once a snapshot has been kept
      have hevent : file.snapshot ≠ true := by
        intro hs
        rw [hstays file (by simp) hs] at hexceeds
        cases hexceeds
      right
      refine ⟨fun other hother hs => ?_, ?_⟩
      · exact exceeds_mono (hstays other (List.mem_cons_of_mem _ hother) hs)
          (Usage.without_le usage file).1 (Usage.without_le usage file).2 (le_refl _)
      · have hsame : ∀ a ∈ before ++ file :: rest, a.snapshot = true →
            (d.erase file.name).get a.name = d.get a.name := by
          intro a ha hs
          apply Listing.get_erase_of_ne
          intro heq
          have := List.inj_on_of_nodup_map hnodup ha (by simp) heq
          exact hevent (this ▸ hs)
        rw [← List.append_cons]
        intro a ha b hb hsa hsb hremoved hkept
        rw [hsame a ha hsa] at hremoved
        rw [hsame b hb hsb] at hkept
        exact holdest a ha b hb hsa hsb hremoved hkept

end

/-- However pruning ends, what it removed precedes what it kept. -/
theorem pruneAll_oldest {R : Candidate → Candidate → Prop} (settings : Settings) (now : Time)
    (before files : List Candidate) (usage : Usage) (hranked : Ranked R (before ++ files))
    (hnodup : ((before ++ files).map Candidate.name).Nodup) :
    Triple allowed (Progressing R settings now before files usage)
      (loop (prune settings now) files usage) (fun _ => Oldest R (before ++ files))
      (Oldest R (before ++ files)) := by
  induction files generalizing before usage with
  | nil => exact Triple.ret fun _ h => h.oldest hranked
  | cons file rest ih =>
      have hnext := fun next => ih (before ++ [file]) next (by rwa [← List.append_cons])
        (by rwa [← List.append_cons])
      simp only [← List.append_cons] at hnext
      refine Triple.bind (Q := fun next => Progressing R settings now (before ++ [file]) rest next)
        ?_ hnext
      unfold prune
      split
      case isFalse hkept =>
        exact Triple.ret fun _ h => h.keep hranked (by simpa using hkept)
      case isTrue hexceeds =>
        refine Triple.bind (Q := fun _ => Progressing R settings now (before ++ [file]) rest
          (usage.without file)) ?_ fun _ => Triple.ret fun _ h => h
        have hgone : ∀ d, Progressing R settings now before (file :: rest) usage d →
            Oldest R (before ++ file :: rest) (d.erase file.name) := by
          intro d h
          have := (h.remove hnodup hexceeds).oldest (by rwa [← List.append_cons])
          rwa [← List.append_cons] at this
        apply Triple.step
        · intro _ d value d' h hrun
          dsimp only at hrun
          split at hrun
          · cases hrun
          · cases hrun
            exact h.remove hnodup hexceeds
          · cases hrun
        · exact fun _ _ _ h _ => h.oldest hranked
        · intro torn d _ h
          dsimp only
          split
          · exact hgone d h
          · exact hgone d h
          · exact h.oldest hranked

/-- A pass over history ranked by `R` removes it in that order; one that finds too many
files removes nothing. -/
theorem retain_oldest {R : Candidate → Candidate → Prop} (settings : Settings) (now : Time)
    (before : Directory)
    (h : 20002 < (history parses before).length ∨ Ranked R (history parses before)) :
    Triple allowed (fun d => d = before) (retain parses settings now)
      (fun _ => Oldest R (history parses before)) (Oldest R (history parses before)) := by
  have hstart : Oldest R (history parses before) before := by
    intro a ha b _ _ _ hremoved
    obtain ⟨node, hget, -⟩ := mem_history_iff.mp ha
    rw [hremoved] at hget
    cases hget
  have hlook : ∀ {α : Type} {one : Action α} {Q : α → Directory → Prop},
      Triple allowed (fun d => d = before) one Q (fun d => d = before) →
      Triple allowed (fun d => d = before) one Q (Oldest R (history parses before)) :=
    fun h => h.weaken (fun _ h => h) (fun _ _ h => h) fun _ h => h ▸ hstart
  unfold retain
  refine (hlook (measure_triple _)).bind fun _ => ?_
  refine (hlook (measure_triple _)).bind fun _ => ?_
  refine (hlook (measure_triple _)).bind fun _ => ?_
  refine (hlook (readDir_known before)).bind fun entries => Triple.assuming fun hentries => ?_
  refine (hlook (gatherAll_triple entries _ (by simp))).bind fun gathered =>
    Triple.assuming fun ⟨hgathered, hlimit⟩ => ?_
  have hfiles : gathered.files = before.entries.filterMap (candidate parses) := by
    rw [hgathered, gatherAll_files, List.nil_append, hentries]
  dsimp only
  rw [hfiles]
  change Triple allowed _ (loop (prune settings now) (history parses before) _ >>= _) _ _
  have hranked : Ranked R (history parses before) := by
    refine h.resolve_left fun htoo => ?_
    rw [(history_perm before).length_eq, ← hfiles] at htoo
    omega
  refine ((pruneAll_oldest settings now [] _ _ hranked (history_nodup before)).weaken ?_
    (fun _ _ h => h) fun _ h => h).bind fun _ => Triple.ret fun _ h => h
  rintro d rfl
  refine ⟨fun file hfile => ?_, Or.inl fun _ h => absurd h (by simp)⟩
  obtain ⟨node, hget, -⟩ := mem_history_iff.mp hfile
  rw [hget]
  simp

/-! ## Sort keys -/

/-- The whole second of an instant. -/
def second (captured : Time) : Int := captured / nanosPerSecond

theorem stripPrefix_of_head {text pattern : String} {c m : Char} {cs ms : List Char}
    (htext : text.toList = c :: cs) (hpattern : pattern.toList = m :: ms) (hne : c ≠ m) :
    Text.stripPrefix text pattern = none := by
  cases h : Text.stripPrefix text pattern with
  | none => rfl
  | some rest =>
      have := congrArg String.toList (Text.stripPrefix_eq_some.mp h)
      rw [htext, String.toList_append, hpattern, List.cons_append, List.cons.injEq] at this
      exact absurd this.1 hne

theorem trimStartMatches_of_none {text pattern : String} (fuel : Nat)
    (h : Text.stripPrefix text pattern = none) : trimStartMatches pattern fuel text = text := by
  cases fuel with
  | zero => rfl
  | succ fuel => rw [trimStartMatches, h]

theorem snapshotName_eq (captured : Time) :
    snapshotName captured = "monitor-snapshot-" ++ (stamp captured ++ ".json") :=
  String.append_assoc

/-- Behind the prefix, the key is what comes before the first point. -/
theorem sortKey_eq {name rest : String} {front t : List Char}
    (hname : name = "monitor-snapshot-" ++ rest) (hrest : rest.toList = front ++ '.' :: t)
    (hnonempty : front ≠ []) (hfront : ∀ c ∈ front, c.isDigit = true ∨ c = 'T') :
    sortKey name = String.ofList front := by
  obtain ⟨c, cs, rfl⟩ := List.exists_cons_of_ne_nil hnonempty
  have hm : c ≠ 'm' := by
    rintro rfl
    have := hfront 'm' (by simp)
    revert this
    decide
  have hstrip : Text.stripPrefix name "monitor-snapshot-" = some rest :=
    Text.stripPrefix_eq_some.mpr hname
  have hsnapshot : Text.stripPrefix rest "monitor-snapshot-" = none :=
    stripPrefix_of_head hrest (by decide +kernel : _ = 'm' :: "onitor-snapshot-".toList) hm
  have hevents : Text.stripPrefix rest "monitor-events-" = none :=
    stripPrefix_of_head hrest (by decide +kernel : _ = 'm' :: "onitor-events-".toList) hm
  have htrim : trimStartMatches "monitor-snapshot-" name.length name = rest := by
    cases hlength : name.length with
    | zero =>
        rw [hname, String.length_append] at hlength
        have : "monitor-snapshot-".length = 17 := by decide +kernel
        omega
    | succ fuel =>
        rw [trimStartMatches, hstrip]
        exact trimStartMatches_of_none fuel hsnapshot
  unfold sortKey
  dsimp only
  rw [htrim, trimStartMatches_of_none _ hevents, Text.head, hrest,
    List.takeWhile_append_of_pos]
  · simp
  · intro char hchar
    obtain hdigit | rfl := hfront char hchar
    · have : char ≠ '.' := by
        rintro rfl
        revert hdigit
        decide
      simpa using this
    · decide

/-- The key of a snapshot is its stamp up to whole seconds. -/
theorem sortKey_snapshotName {captured : Time} (h : Calendar.FourDigits (second captured)) :
    sortKey (snapshotName captured) = String.ofList (Calendar.compact (second captured)) := by
  refine sortKey_eq (snapshotName_eq captured) (t :=
    Calendar.digits 9 (captured % nanosPerSecond).toNat ++ ['Z'] ++ ".json".toList) ?_ ?_
    (Calendar.mem_compact h)
  · rw [String.toList_append, stamp, String.toList_ofList, second]
    simp
  · intro hnil
    have hlength := congrArg List.length (Calendar.compact_eq h)
    rw [hnil] at hlength
    simp at hlength

/-- The name of a snapshot tells when it was captured. -/
theorem snapshotName_inj {s t : Time} (hs : Calendar.FourDigits (second s))
    (ht : Calendar.FourDigits (second t)) (h : snapshotName s = snapshotName t) : s = t := by
  have hstamp : (stamp s).toList = (stamp t).toList := by
    rw [snapshotName_eq, snapshotName_eq] at h
    have := congrArg String.toList h
    simpa only [String.toList_append, List.append_cancel_left_eq, List.append_cancel_right_eq]
      using this
  have hlength : (Calendar.compact (second s)).length = (Calendar.compact (second t)).length := by
    rw [Calendar.compact_eq hs, Calendar.compact_eq ht]
    simp
  simp only [stamp, String.toList_ofList, List.append_assoc, List.cons_append] at hstamp
  obtain ⟨hcompact, hrest⟩ := List.append_inj hstamp hlength
  have hsecond : second s = second t := by
    have hlt := Calendar.compact_lt_compact_iff hs ht
    have hgt := Calendar.compact_lt_compact_iff ht hs
    rw [show Calendar.compact (second s) = Calendar.compact (second t) from hcompact] at hlt hgt
    have hirrefl := lt_irrefl (Calendar.compact (second t))
    exact le_antisymm (not_lt.mp fun h => hirrefl (hgt.mpr h))
      (not_lt.mp fun h => hirrefl (hlt.mpr h))
  have hbound : ∀ x : Time, (x % nanosPerSecond).toNat < 10 ^ 9 := by
    intro x
    have := Int.emod_lt_of_pos x (show (0 : Int) < nanosPerSecond by decide)
    simp only [nanosPerSecond] at this ⊢
    omega
  have hnanos : (s % nanosPerSecond).toNat = (t % nanosPerSecond).toNat := by
    rw [List.cons.injEq] at hrest
    exact (Calendar.digits_inj (hbound s) (hbound t)).mp (List.append_inj hrest.2 (by simp)).1
  have hmod : ∀ x : Int, 0 ≤ x % nanosPerSecond := fun x => Int.emod_nonneg x (by decide)
  have hs' := hmod s
  have ht' := hmod t
  calc s = nanosPerSecond * second s + s % nanosPerSecond :=
        (Int.mul_ediv_add_emod s nanosPerSecond).symm
    _ = nanosPerSecond * second t + t % nanosPerSecond := by
        rw [hsecond]
        omega
    _ = t := Int.mul_ediv_add_emod t nanosPerSecond

/-! ## Captures -/

/-- The directory holds a snapshot captured at this instant, as a history file. -/
structure Holds (parses : String → Bool) (d : Directory) (captured : Time) : Prop where
  dated : Calendar.FourDigits (second captured)
  owned : owned parses (snapshotName captured) = some true
  file : (d.get (snapshotName captured)).map Node.isFile = some true

/-- History as publications leave it: snapshots under the names of their captures, the
later ones not modified before the earlier. -/
structure Published (parses : String → Bool) (d : Directory) : Prop where
  named : ∀ file ∈ history parses d, file.snapshot = true →
    ∃ captured, file.name = snapshotName captured ∧ Calendar.FourDigits (second captured)
  aged : ∀ a ∈ history parses d, ∀ b ∈ history parses d, ∀ s t,
    Calendar.FourDigits (second s) → Calendar.FourDigits (second t) →
    a.name = snapshotName s → b.name = snapshotName t → s < t → a.modified ≤ b.modified

/-- Every snapshot that was removed was captured before every one that was kept. -/
def OldestFirst (parses : String → Bool) (before after : Directory) : Prop :=
  ∀ s t, Holds parses before s → Holds parses before t →
    after.get (snapshotName s) = none → after.get (snapshotName t) ≠ none → s < t

/-- Of the snapshots of one second, the directory lists the earlier first. -/
def InListingOrder (parses : String → Bool) (d : Directory) : Prop :=
  ∀ s t, Holds parses d s → Holds parses d t → second s = second t → s < t →
    [snapshotName s, snapshotName t].Sublist (d.entries.map Prod.fst)

theorem Holds.listed {d : Directory} {captured : Time} (h : Holds parses d captured) :
    snapshotName captured ∈ d.entries.map Prod.fst := by
  obtain ⟨node, hget, -⟩ := Option.map_eq_some_iff.mp h.file
  exact List.mem_map_of_mem (Listing.get_eq_some_iff.mp hget)

/-- The order of captures, read off the names. -/
def CapturedBefore (a b : Candidate) : Prop :=
  ∀ s t, Calendar.FourDigits (second s) → Calendar.FourDigits (second t) →
    a.name = snapshotName s → b.name = snapshotName t → s < t

theorem Holds.candidate {d : Directory} {captured : Time} (h : Holds parses d captured) :
    ∃ file ∈ history parses d, file.name = snapshotName captured ∧ file.snapshot = true := by
  obtain ⟨node, hget, hfile⟩ := Option.map_eq_some_iff.mp h.file
  cases node with
  | directory => cases hfile
  | symlink => cases hfile
  | file bytes modified =>
      obtain ⟨file, hcandidate, hname, hsnapshot⟩ : ∃ file,
          Storage.candidate parses (snapshotName captured, .file bytes modified) = some file ∧
            file.name = snapshotName captured ∧ file.snapshot = true := by
        simp only [Storage.candidate, h.owned]
        exact ⟨_, rfl, rfl, rfl⟩
      refine ⟨file, mem_history_iff.mpr ⟨.file bytes modified, ?_, ?_⟩, hname, hsnapshot⟩
      · rw [hname, hget]
      · rw [hname, hcandidate]

theorem holds_of_mem {d : Directory} {captured : Time} {file : Candidate}
    (hfile : file ∈ history parses d) (hsnapshot : file.snapshot = true)
    (hname : file.name = snapshotName captured)
    (hdated : Calendar.FourDigits (second captured)) : Holds parses d captured := by
  obtain ⟨node, hget, hcandidate⟩ := mem_history_iff.mp hfile
  obtain ⟨-, howned⟩ := candidate_name hcandidate
  dsimp only at howned
  rw [hname] at hget howned
  refine ⟨hdated, by rw [howned, hsnapshot], ?_⟩
  rw [hget]
  unfold candidate at hcandidate
  split at hcandidate
  · rename_i hnode
    simp only at hnode
    rw [hnode]
    rfl
  · cases hcandidate

theorem history_stamp {d : Directory} {file : Candidate} (h : file ∈ history parses d) :
    file.stamp = sortKey file.name := by
  obtain ⟨node, -, hcandidate⟩ := mem_history_iff.mp h
  unfold candidate at hcandidate
  split at hcandidate
  · rw [← Option.some.inj hcandidate]
  · cases hcandidate

/-- Keys order the snapshots of different seconds as they were captured. -/
theorem precedes_iff {d : Directory} {a b : Candidate} {s t : Time}
    (ha : a ∈ history parses d) (hb : b ∈ history parses d)
    (hs : Calendar.FourDigits (second s)) (ht : Calendar.FourDigits (second t))
    (hsa : a.name = snapshotName s) (htb : b.name = snapshotName t) :
    a.precedes b ↔ second s ≤ second t := by
  have hlt := Calendar.compact_lt_compact_iff ht hs
  rw [Candidate.precedes, history_stamp ha, history_stamp hb, hsa, htb,
    sortKey_snapshotName hs, sortKey_snapshotName ht, ← String.not_lt, String.lt_iff_toList_lt,
    String.toList_ofList, String.toList_ofList, hlt]
  exact not_lt

/-! ## The order history is pruned in -/

instance : Std.Total Candidate.precedes := ⟨fun a b => le_total a.stamp b.stamp⟩

instance : IsTrans Candidate Candidate.precedes :=
  ⟨fun _ _ _ hab hbc => le_trans (α := String) hab hbc⟩

/-- A list without repetitions has two of its elements in one order only. -/
theorem not_sublist_of_sublist {α : Type} {l : List α} (hl : l.Nodup) {a b : α}
    (hab : [a, b].Sublist l) : ¬ [b, a].Sublist l := by
  intro hba
  induction l with
  | nil => simp at hab
  | cons x l ih =>
      rw [List.nodup_cons] at hl
      cases hab with
      | cons _ hab =>
          cases hba with
          | cons _ hba => exact ih hl.2 hab hba
          | cons_cons _ hba => exact hl.1 (hab.subset (by simp))
      | cons_cons _ hab =>
          cases hba with
          | cons _ hba => exact hl.1 (hba.subset (by simp))
          | cons_cons _ hba => exact hl.1 (hba.subset (by simp))

/-- What is listed in some order is gathered in that order. -/
theorem gathered_sublist {d : Directory} {a b : Candidate} (ha : a ∈ history parses d)
    (hb : b ∈ history parses d) (h : [a.name, b.name].Sublist (d.entries.map Prod.fst)) :
    [a, b].Sublist (d.entries.filterMap (candidate parses)) := by
  obtain ⟨entries, hsub, hmap⟩ := List.sublist_map_iff.mp h
  have hlength : entries.length = 2 := by
    have := congrArg List.length hmap
    rw [List.length_map] at this
    exact this.symm
  obtain ⟨x, y, rfl⟩ := List.length_eq_two.mp hlength
  simp only [List.map_cons, List.map_nil, List.cons.injEq, and_true] at hmap
  obtain ⟨hx, hy⟩ := hmap
  have hfind : ∀ {file : Candidate} {e : String × Node}, file ∈ history parses d →
      e ∈ d.entries → e.1 = file.name → candidate parses e = some file := by
    intro file e hfile he hname
    obtain ⟨node, hget, hcandidate⟩ := mem_history_iff.mp hfile
    have := Listing.get_eq_some_iff.mpr (show (file.name, e.2) ∈ d.entries from hname ▸ he)
    rw [hget] at this
    rw [← hcandidate, Option.some.inj this, ← hname]
  have hcx := hfind ha (hsub.subset (by simp)) hx.symm
  have hcy := hfind hb (hsub.subset (by simp)) hy.symm
  have := hsub.filterMap (candidate parses)
  rwa [List.filterMap_cons_some hcx, List.filterMap_cons_some hcy, List.filterMap_nil] at this

/-- If the directory lists the snapshots of each second in order, history is pruned in
the order of capture. -/
theorem InListingOrder.ranked {d : Directory} (hd : Published parses d)
    (h : InListingOrder parses d) : Ranked CapturedBefore (history parses d) := by
  have hnodup : (history parses d).Nodup := (history_nodup d).of_map _
  have hsorted : (history parses d).Pairwise Candidate.precedes :=
    List.pairwise_insertionSort _ _
  have hbefore : ∀ {a b}, [a, b].Sublist (history parses d) → a.snapshot = true →
      b.snapshot = true → CapturedBefore a b := by
    intro a b hsub hsa hsb s t hs ht hna hnb
    have ha : a ∈ history parses d := hsub.subset (by simp)
    have hb : b ∈ history parses d := hsub.subset (by simp)
    have hne : a ≠ b := by
      rintro rfl
      exact absurd ((hsub.nodup hnodup)) (by simp)
    have hprecedes : a.precedes b := List.pairwise_iff_forall_sublist.mp hsorted hsub
    have hseconds := (precedes_iff ha hb hs ht hna hnb).mp hprecedes
    by_contra hnot
    have hst : s ≠ t := by
      rintro rfl
      exact hne (List.inj_on_of_nodup_map (history_nodup d) ha hb (hna.trans hnb.symm))
    have hlt : t < s := lt_of_le_of_ne (not_lt.mp hnot) hst.symm
    have hsame : second t = second s :=
      le_antisymm (Int.ediv_le_ediv (by decide) (le_of_lt hlt)) hseconds
    -- of one second, so gathered in the order they are listed, and left in it
    have hlisted := h t s (holds_of_mem hb hsb hnb ht) (holds_of_mem ha hsa hna hs) hsame hlt
    rw [← hna, ← hnb] at hlisted
    have hback : b.precedes a := (precedes_iff hb ha ht hs hnb hna).mpr (le_of_eq hsame)
    have hgathered := gathered_sublist hb ha hlisted
    exact not_sublist_of_sublist hnodup hsub
      (List.pair_sublist_insertionSort hback hgathered)
  refine List.pairwise_iff_forall_sublist.mpr fun {a b} hsub hsa hsb => ?_
  have ha : a ∈ history parses d := hsub.subset (by simp)
  have hb : b ∈ history parses d := hsub.subset (by simp)
  obtain ⟨s, hna, hs⟩ := hd.named a ha hsa
  obtain ⟨t, hnb, ht⟩ := hd.named b hb hsb
  have horder := hbefore hsub hsa hsb
  exact ⟨horder, hd.aged a ha b hb s t hs ht hna hnb (horder s t hs ht hna hnb)⟩

theorem Oldest.oldestFirst {before after : Directory}
    (h : Oldest CapturedBefore (history parses before) after) :
    OldestFirst parses before after := by
  intro s t hs ht hremoved hkept
  obtain ⟨a, ha, hna, hsa⟩ := hs.candidate
  obtain ⟨b, hb, hnb, hsb⟩ := ht.candidate
  exact h a ha b hb hsa hsb (hna ▸ hremoved) (hnb ▸ hkept) s t hs.dated ht.dated hna hnb

/-! ## A pass in which every step succeeds -/

theorem call_runs (fault : Error) (d : Directory) : Runs (call fault) d () d :=
  Runs.read rfl

theorem measure_runs (name : String) (d : Directory) :
    ∃ length, Runs (measure name) d length d := by
  unfold measure
  cases h : ((d.get name).map Node.metadata).getD (.error .io) with
  | ok length =>
      have hfound : Runs (attempt (Faulty.read Error.io fun d =>
          ((d.get name).map Node.metadata).getD (.error .io))) d (.ok length) d :=
        Runs.attempt_ok (Runs.read h)
      exact ⟨length, hfound.bind Runs.ret⟩
  | error error =>
      have hmissing : Runs (attempt (Faulty.read Error.io fun d =>
          ((d.get name).map Node.metadata).getD (.error .io))) d (.error error) d :=
        Runs.attempt_read_error h
      exact ⟨0, hmissing.bind Runs.ret⟩

theorem removeFile_runs {d : Directory} {name : String}
    (h : (d.get name).map Node.isFile = some true) :
    Runs (removeFile name) d () (d.erase name) := by
  obtain ⟨node, hget, hfile⟩ := Option.map_eq_some_iff.mp h
  apply Runs.step
  cases node with
  | file bytes modified => simp only [hget]
  | directory => cases hfile
  | symlink => cases hfile

theorem gather_runs (gathered : Gathered) (entry : String × Node) (d : Directory)
    (hroom : (gathered.add (candidate parses entry)).files.length ≤ 20002) :
    Runs (gather parses gathered entry) d (gathered.add (candidate parses entry)) d := by
  unfold gather
  refine (call_runs .io d).bind ?_
  cases howned : owned parses entry.1 with
  | none =>
      have hnone : candidate parses entry = none := by simp [candidate, howned]
      rw [hnone]
      exact Runs.ret
  | some snapshot =>
      refine (call_runs .io d).bind ?_
      cases hnode : entry.2 with
      | directory =>
          have hnone : candidate parses entry = none := by simp [candidate, howned, hnode]
          rw [hnone]
          exact Runs.ret
      | symlink =>
          have hnone : candidate parses entry = none := by simp [candidate, howned, hnode]
          rw [hnone]
          exact Runs.ret
      | file bytes modified =>
          have hsome : candidate parses entry = some
              { stamp := sortKey entry.1, name := entry.1, size := bytes.length, snapshot,
                modified } := by
            simp only [candidate, howned, hnode]
          rw [hsome] at hroom ⊢
          refine (call_runs .io d).bind ?_
          simp only [Gathered.add, List.length_append, List.length_singleton] at hroom
          rw [if_neg (by omega)]
          exact Runs.ret

theorem gatherAll_runs (entries : List (String × Node)) (gathered : Gathered) (d : Directory)
    (hroom : (gatherAll parses entries gathered).files.length ≤ 20002) :
    Runs (loop (gather parses) entries gathered) d (gatherAll parses entries gathered) d := by
  induction entries generalizing gathered with
  | nil => exact Runs.ret
  | cons entry entries ih =>
      refine Runs.bind (gather_runs gathered entry d ?_) (ih _ hroom)
      rw [gatherAll, List.foldl_cons, ← gatherAll, gatherAll_files, List.length_append] at hroom
      omega

section

variable {settings : Settings} {now : Time}

/-- Only the count can exceed its limit. -/
theorem exceeds_iff_count {usage : Usage} {file : Candidate}
    (hbytes : usage.bytes ≤ settings.historyBytes) (hage : now < file.modified) :
    exceeds settings now usage file = true ↔ settings.historyCount < usage.count := by
  have hzero : age now file.modified = 0 := if_pos hage
  have hnot : ¬ (settings.historyAge.seconds : Int) * nanosPerSecond < 0 := by
    simp only [nanosPerSecond]
    omega
  simp only [exceeds, hzero, Bool.or_eq_true, decide_eq_true_eq]
  constructor
  · rintro ((h | h) | h)
    · omega
    · exact h
    · exact absurd h hnot
  · exact fun h => Or.inl (Or.inr h)

theorem prune_removes {usage : Usage} {file : Candidate} {d : Directory}
    (hexceeds : exceeds settings now usage file = true)
    (hfile : (d.get file.name).map Node.isFile = some true) :
    Runs (prune settings now usage file) d (usage.without file) (d.erase file.name) := by
  unfold prune
  rw [if_pos hexceeds]
  exact (removeFile_runs hfile).bind Runs.ret

theorem prune_keeps {usage : Usage} {file : Candidate} {d : Directory}
    (hkept : ¬ exceeds settings now usage file = true) :
    Runs (prune settings now usage file) d usage d := by
  unfold prune
  rw [if_neg hkept]
  exact Runs.ret

theorem prune_rest_runs {files : List Candidate} {usage : Usage} {d : Directory}
    (hbytes : usage.bytes ≤ settings.historyBytes) (hcount : usage.count ≤ settings.historyCount)
    (hage : ∀ file ∈ files, now < file.modified) :
    Runs (loop (prune settings now) files usage) d usage d := by
  induction files with
  | nil => exact Runs.ret
  | cons file files ih =>
      have hkept : ¬ exceeds settings now usage file = true := by
        rw [exceeds_iff_count hbytes (hage file (by simp))]
        omega
      exact (prune_keeps hkept).bind (ih fun f hf => hage f (by simp [hf]))

theorem snapshots_cons (file : Candidate) (files : List Candidate) :
    ((file :: files).filter Candidate.snapshot).length =
      (if file.snapshot then 1 else 0) + (files.filter Candidate.snapshot).length := by
  by_cases h : file.snapshot = true
  · simp [h, Nat.add_comm]
  · simp [h]

/-- With room for the snapshots of `back` alone, everything up to the snapshot before
them is removed. -/
theorem prune_front_runs {front back : List Candidate} {last : Candidate} (usage : Usage)
    (d : Directory) (hlast : last.snapshot = true)
    (hfiles : ∀ file ∈ front ++ last :: back, (d.get file.name).map Node.isFile = some true)
    (hnodup : ((front ++ last :: back).map Candidate.name).Nodup)
    (hbytes : usage.bytes ≤ settings.historyBytes)
    (hcount : usage.count = ((front ++ last :: back).filter Candidate.snapshot).length)
    (hlimit : settings.historyCount = (back.filter Candidate.snapshot).length)
    (hage : ∀ file ∈ front ++ last :: back, now < file.modified) :
    ∃ usage' d', Runs (loop (prune settings now) (front ++ last :: back) usage) d usage' d' ∧
      d'.get last.name = none ∧ ∀ file ∈ back, d'.get file.name = d.get file.name := by
  induction front generalizing usage d with
  | nil =>
      rw [List.nil_append] at hfiles hnodup hcount hage ⊢
      rw [snapshots_cons, if_pos hlast] at hcount
      have hexceeds : exceeds settings now usage last = true := by
        rw [exceeds_iff_count hbytes (hage last (by simp))]
        omega
      have hrest : Runs (loop (prune settings now) back (usage.without last))
          (d.erase last.name) (usage.without last) (d.erase last.name) := by
        apply prune_rest_runs (le_trans (Usage.without_le usage last).1 hbytes)
        · simp only [Usage.without, hlast, if_true]
          omega
        · exact fun f hf => hage f (by simp [hf])
      refine ⟨_, _, (prune_removes hexceeds (hfiles last (by simp))).bind hrest,
        Listing.get_erase_self .., fun file hfile => ?_⟩
      apply Listing.get_erase_of_ne
      rw [List.map_cons, List.nodup_cons] at hnodup
      exact fun heq => hnodup.1 (heq ▸ List.mem_map_of_mem hfile)
  | cons file front ih =>
      rw [List.cons_append] at hfiles hnodup hcount hage ⊢
      rw [List.map_cons, List.nodup_cons] at hnodup
      have hahead : (back.filter Candidate.snapshot).length <
          ((front ++ last :: back).filter Candidate.snapshot).length := by
        rw [List.filter_append, List.length_append, snapshots_cons, if_pos hlast]
        omega
      rw [snapshots_cons] at hcount
      have hexceeds : exceeds settings now usage file = true := by
        rw [exceeds_iff_count hbytes (hage file (by simp))]
        omega
      have hne : ∀ other ∈ front ++ last :: back, other.name ≠ file.name :=
        fun other hother heq => hnodup.1 (heq ▸ List.mem_map_of_mem hother)
      obtain ⟨usage', d', hrun, hgone, hkept⟩ := ih (usage.without file) (d.erase file.name)
        (fun other hother => by
          rw [Listing.get_erase_of_ne _ (hne other hother)]
          exact hfiles other (by simp [hother]))
        hnodup.2 (le_trans (Usage.without_le usage file).1 hbytes)
        (by
          simp only [Usage.without]
          split at hcount <;> simp_all)
        fun f hf => hage f (by simp [hf])
      refine ⟨usage', d', (prune_removes hexceeds (hfiles file (by simp))).bind hrun, hgone,
        fun other hother => ?_⟩
      rw [hkept other hother, Listing.get_erase_of_ne _ (hne other (by simp [hother]))]

end

theorem exists_before (files : List Candidate) :
    ∃ now : Time, ∀ file ∈ files, now < file.modified := by
  induction files with
  | nil => exact ⟨0, by simp⟩
  | cons file files ih =>
      obtain ⟨now, hnow⟩ := ih
      obtain h | h := lt_or_ge now file.modified
      · exact ⟨now, List.forall_mem_cons.mpr ⟨h, hnow⟩⟩
      · have hless : file.modified - 1 < file.modified := Int.sub_lt_self _ (by decide)
        exact ⟨file.modified - 1, List.forall_mem_cons.mpr ⟨hless, fun other hother =>
          lt_trans (lt_of_lt_of_le hless h) (hnow other hother)⟩⟩

/-- Any snapshot can be the last one a pass removes. -/
theorem retain_front_runs {d : Directory} {front back : List Candidate} {last : Candidate}
    (hlast : last.snapshot = true) (hsplit : history parses d = front ++ last :: back)
    (hroom : (history parses d).length ≤ 20002) :
    ∃ settings now d', Runs (retain parses settings now) d () d' ∧
      d'.get last.name = none ∧ ∀ file ∈ back, d'.get file.name = d.get file.name := by
  obtain ⟨latest, hlatest⟩ := measure_runs latestName d
  obtain ⟨report, hreport⟩ := measure_runs reportName d
  obtain ⟨lock, hlock⟩ := measure_runs lockName d
  obtain ⟨now, hnow⟩ := exists_before (history parses d)
  let gathered := gatherAll parses d.entries { bytes := latest + report + lock }
  have hfiles : gathered.files.insertionSort Candidate.precedes = history parses d := by
    rw [history]
    congr 1
    exact gatherAll_files ..
  have hgather : Runs (loop (gather parses) d.entries { bytes := latest + report + lock }) d
      gathered d := by
    apply gatherAll_runs
    rw [← List.length_insertionSort Candidate.precedes]
    exact hfiles ▸ hroom
  let settings : Settings :=
    { historyBytes := gathered.bytes, historyCount := (back.filter Candidate.snapshot).length }
  have hpresent : ∀ file ∈ front ++ last :: back,
      (d.get file.name).map Node.isFile = some true := by
    intro file hfile
    obtain ⟨node, hget, hcandidate⟩ := mem_history_iff.mp (hsplit ▸ hfile)
    rw [hget]
    unfold candidate at hcandidate
    split at hcandidate
    · rename_i hnode
      simp only at hnode
      rw [hnode]
      rfl
    · cases hcandidate
  let usage : Usage :=
    { bytes := gathered.bytes
      count := ((front ++ last :: back).filter Candidate.snapshot).length }
  obtain ⟨usage', d', hrun, hgone, hkept⟩ := @prune_front_runs settings now _ _ _ usage d hlast
    hpresent (hsplit ▸ history_nodup d) (le_refl _) rfl rfl (hsplit ▸ hnow)
  refine ⟨settings, now, d', ?_, hgone, hkept⟩
  unfold retain
  refine hlatest.bind (hreport.bind (hlock.bind (Runs.bind (Runs.read rfl) (hgather.bind ?_))))
  dsimp only
  rw [hfiles, hsplit]
  exact hrun.bind Runs.ret

theorem pair_sublist {α : Type} {l : List α} {a b : α} (ha : a ∈ l) (hb : b ∈ l)
    (hne : a ≠ b) : [a, b].Sublist l ∨ [b, a].Sublist l := by
  obtain ⟨before, after, rfl⟩ := List.append_of_mem ha
  obtain hb | hb := List.mem_append.mp hb
  · right
    exact (List.singleton_sublist.mpr hb).append (List.singleton_sublist.mpr (by simp))
  · left
    have hafter : b ∈ after := (List.mem_cons.mp hb).resolve_left (Ne.symm hne)
    exact ((List.singleton_sublist.mpr hafter).cons_cons a).trans (List.sublist_append_right _ _)

/-! ## Oldest first -/

/-- Whatever the limits and however it ends, a pass removes the oldest snapshots first
exactly when the directory lists the snapshots of one second in the order of their
capture, or holds more history than a pass takes on. -/
theorem retain_oldestFirst_iff (parses : String → Bool) (d : Directory)
    (hd : Published parses d) :
    (∀ settings now script,
      OldestFirst parses d (retain parses settings now script d).store) ↔
    20002 < (history parses d).length ∨ InListingOrder parses d := by
  constructor
  · intro holdest
    by_contra hnot
    rw [not_or, not_lt] at hnot
    obtain ⟨hroom, hlisted⟩ := hnot
    apply hlisted
    intro s t hs ht hsecond hlt
    by_contra hnotlisted
    obtain ⟨a, ha, hna, hsa⟩ := hs.candidate
    obtain ⟨b, hb, hnb, hsb⟩ := ht.candidate
    -- the later of the two is listed first, so it is also pruned first
    have hne : snapshotName s ≠ snapshotName t :=
      fun heq => ne_of_lt hlt (snapshotName_inj hs.dated ht.dated heq)
    have hback : [snapshotName t, snapshotName s].Sublist (d.entries.map Prod.fst) :=
      (pair_sublist hs.listed ht.listed hne).resolve_left hnotlisted
    rw [← hna, ← hnb] at hback
    have hprecedes : b.precedes a :=
      (precedes_iff hb ha ht.dated hs.dated hnb hna).mpr (le_of_eq hsecond.symm)
    have hpruned : [b, a].Sublist (history parses d) :=
      List.pair_sublist_insertionSort hprecedes (gathered_sublist hb ha hback)
    obtain ⟨start, rest, hsplit, hbstart, harest⟩ := List.cons_sublist_iff.mp hpruned
    obtain ⟨front, middle, rfl⟩ := List.append_of_mem hbstart
    rw [List.append_assoc, List.cons_append] at hsplit
    obtain ⟨settings, now, d', hrun, hgone, hkept⟩ := retain_front_runs hsb hsplit hroom
    have hfirst := holdest settings now []
    rw [hrun] at hfirst
    have hage : ¬ t < s := not_lt.mpr (le_of_lt hlt)
    refine hage (hfirst t s ht hs (hnb ▸ hgone) ?_)
    rw [← hna, hkept a (List.mem_append_right _ (List.singleton_sublist.mp harest)), hna]
    intro hnone
    have := hs.file
    rw [hnone] at this
    cases this
  · intro h settings now script
    have hranked := h.imp_right fun hlisted => hlisted.ranked hd
    have hmeets := (retain_oldest settings now d hranked).meets script rfl
    obtain ⟨_, -, hdone⟩ | hbroken := hmeets.cases
    · exact hdone.oldestFirst
    · exact hbroken.oldestFirst

/-! ## Two snapshots of one second -/

/-- Snapshots as a directory lists them, each modified when it was captured. -/
def snapshotFiles (captures : List Time) : List (String × Node) :=
  captures.map fun captured => (snapshotName captured, .file [] captured)

/-- A quarter and half a second past noon, on 5 September 2026. -/
def early : Time := 1788609600250000000
def late : Time := 1788609600500000000

def readsBoth (text : String) : Bool := text == stamp early || text == stamp late

def inOrder : Directory where
  entries := snapshotFiles [early, late]
  nodup := by decide +kernel

def outOfOrder : Directory where
  entries := snapshotFiles [late, early]
  nodup := by decide +kernel

theorem both_dated : ∀ captured ∈ [early, late], Calendar.FourDigits (second captured) := by
  decide +kernel

theorem readsBoth_published {d : Directory}
    (hd : ∀ file ∈ history readsBoth d, ∃ captured ∈ [early, late],
      file.name = snapshotName captured ∧ file.modified = captured) :
    Published readsBoth d where
  named file hfile _ := by
    obtain ⟨captured, hcaptured, hname, -⟩ := hd file hfile
    exact ⟨captured, hname, both_dated captured hcaptured⟩
  aged a ha b hb s t hs ht hna hnb hlt := by
    have hsame : ∀ file ∈ history readsBoth d, ∀ x, Calendar.FourDigits (second x) →
        file.name = snapshotName x → file.modified = x := by
      intro file hfile x hx hname
      obtain ⟨captured, hcaptured, hfilename, hmodified⟩ := hd file hfile
      rw [hmodified]
      exact snapshotName_inj (both_dated captured hcaptured) hx (hfilename ▸ hname)
    rw [hsame a ha s hs hna, hsame b hb t ht hnb]
    exact le_of_lt hlt

theorem inOrder_published : Published readsBoth inOrder :=
  readsBoth_published (by decide +kernel)

theorem retain_oldestFirst_inOrder :
    (∀ settings now script,
      OldestFirst readsBoth inOrder (retain readsBoth settings now script inOrder).store) ↔
    20002 < (history readsBoth inOrder).length ∨ InListingOrder readsBoth inOrder :=
  retain_oldestFirst_iff readsBoth inOrder inOrder_published

/-- With room for one snapshot, the newer of the two is removed. -/
theorem retain_newest_first :
    Published readsBoth outOfOrder ∧
    ¬ OldestFirst readsBoth outOfOrder
      (retain readsBoth { historyCount := 1 } late [] outOfOrder).store := by
  refine ⟨readsBoth_published (by decide +kernel), fun holdest => ?_⟩
  have hearly : Holds readsBoth outOfOrder early :=
    ⟨by decide +kernel, by decide +kernel, by decide +kernel⟩
  have hlate : Holds readsBoth outOfOrder late :=
    ⟨by decide +kernel, by decide +kernel, by decide +kernel⟩
  have hlt := holdest late early hlate hearly (by decide +kernel) (by decide +kernel)
  exact absurd hlt (by decide)

end HealthMonitor.Storage
