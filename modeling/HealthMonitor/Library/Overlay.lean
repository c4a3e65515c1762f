import HealthMonitor.Library.Groups
import HealthMonitor.Library.Keyset

/-!
# Overlay

An ordered map filled by inserting entries one after the other, the later ones in place of
the earlier, as the list of its entries in key order. Where one of two sources is cut, so
is their merge, and no sooner (`take_collect_cut`).
-/

namespace Overlay

open Groups

variable {κ α β : Type} [LinearOrder κ]

def insert (k : κ) (a : α) : List (κ × α) → List (κ × α)
  | [] => [(k, a)]
  | (j, b) :: rest =>
      if k < j then (k, a) :: (j, b) :: rest
      else if k = j then (j, a) :: rest
      else (j, b) :: insert k a rest

def collect (entries : List (κ × α)) : List (κ × α) :=
  entries.foldl (fun map entry => insert entry.1 entry.2 map) []

theorem altered_insert (k : κ) (a : α) {map : List (κ × α)} (hmap : Sorted map) :
    Altered k a map (insert k a map) := by
  induction map with
  | nil => exact altered_front hmap nofun
  | cons entry rest ih =>
      obtain ⟨j, b⟩ := entry
      have hj := (List.pairwise_cons.mp hmap).1
      rw [insert]
      split
      · next hlt =>
          refine altered_front hmap fun i hi => ?_
          obtain rfl | hi := List.mem_cons.mp hi
          · exact hlt
          · exact hlt.trans (hj i hi)
      · next hnot =>
          split
          · next heq =>
              subst heq
              exact altered_head hmap
          · next hne =>
              exact (ih (List.pairwise_cons.mp hmap).2).cons hmap
                (lt_of_le_of_ne (not_lt.mp hnot) (Ne.symm hne))

/-- The entry of a key is the last one that was inserted. -/
theorem collect_spec (entries : List (κ × α)) :
    Sorted (collect entries) ∧ ∀ k, (collect entries).lookup k = entries.reverse.lookup k := by
  induction entries using List.reverseRecOn with
  | nil => exact ⟨List.Pairwise.nil, fun _ => rfl⟩
  | append_singleton entries entry ih =>
      have hstep : collect (entries ++ [entry]) = insert entry.1 entry.2 (collect entries) := by
        rw [collect, List.foldl_append]
        rfl
      have haltered := altered_insert entry.1 entry.2 ih.1
      rw [hstep, List.reverse_append]
      refine ⟨haltered.sorted, fun k => ?_⟩
      rw [List.reverse_singleton, List.singleton_append, List.lookup_cons]
      by_cases hk : k = entry.1
      · rw [hk, haltered.self, beq_self_eq_true]
      · rw [haltered.other k hk, ih.2 k, beq_false_of_ne hk]

theorem sorted_collect (entries : List (κ × α)) : Sorted (collect entries) :=
  (collect_spec entries).1

theorem lookup_collect (entries : List (κ × α)) (k : κ) :
    (collect entries).lookup k = entries.reverse.lookup k :=
  (collect_spec entries).2 k

theorem mem_keys_collect {entries : List (κ × α)} {k : κ} :
    k ∈ (collect entries).map Prod.fst ↔ k ∈ entries.map Prod.fst := by
  rw [← not_iff_not, ← lookup_eq_none_iff, lookup_collect, lookup_eq_none_iff, List.map_reverse,
    List.mem_reverse]

/-! ## Maps with the same entries -/

theorem ordered_of_sorted {map : List (κ × α)} (h : Sorted map) :
    Keyset.Ordered Prod.fst map :=
  List.pairwise_map.mp h

theorem mem_iff_lookup {map : List (κ × α)} (h : Sorted map) {k : κ} {a : α} :
    (k, a) ∈ map ↔ map.lookup k = some a :=
  ⟨lookup_of_mem h, mem_of_lookup⟩

theorem eq_of_lookup {map other : List (κ × α)} (hmap : Sorted map) (hother : Sorted other)
    (h : ∀ k, map.lookup k = other.lookup k) : map = other := by
  have hnodup : ∀ {m : List (κ × α)}, Sorted m → m.Nodup := fun hm =>
    (ordered_of_sorted hm).imp fun hlt heq => hlt.ne (congrArg Prod.fst heq)
  have hperm : map.Perm other := by
    refine (List.perm_ext_iff_of_nodup (hnodup hmap) (hnodup hother)).mpr fun entry => ?_
    rw [mem_iff_lookup hmap, mem_iff_lookup hother, h]
  exact hperm.eq_of_pairwise (fun a b _ _ hab hba => absurd hab hba.asymm)
    (ordered_of_sorted hmap) (ordered_of_sorted hother)

theorem lookup_filter_fst (p : κ → Bool) (l : List (κ × α)) (k : κ) :
    (l.filter fun entry => p entry.1).lookup k = if p k then l.lookup k else none := by
  induction l with
  | nil => rw [List.filter_nil, List.lookup_nil, ite_self]
  | cons entry l ih =>
      by_cases hentry : p entry.1 = true
      · rw [List.filter_cons_of_pos (by exact hentry), List.lookup_cons, List.lookup_cons, ih]
        by_cases hk : k = entry.1
        · rw [hk, beq_self_eq_true, if_pos hentry, if_pos hentry]
        · rw [beq_false_of_ne hk]
      · rw [List.filter_cons_of_neg (by exact hentry), ih, List.lookup_cons]
        by_cases hk : k = entry.1
        · rw [hk, if_neg hentry, if_neg hentry]
        · rw [beq_false_of_ne hk]

/-- Filtering by keys before or after the entries are collected is the same. -/
theorem collect_filter (p : κ → Bool) (entries : List (κ × α)) :
    collect (entries.filter fun entry => p entry.1)
      = (collect entries).filter fun entry => p entry.1 := by
  refine eq_of_lookup (sorted_collect _) ?_ fun k => ?_
  · exact List.Pairwise.sublist (List.filter_sublist.map Prod.fst) (sorted_collect entries)
  · rw [lookup_collect, ← List.filter_reverse, lookup_filter_fst, lookup_filter_fst,
      lookup_collect]

/-- The order and the repetitions of the earlier source do not matter where its entries
are given by their keys. -/
theorem collect_append_congr {l m : List (κ × α)} (later : List (κ × α))
    (hmem : ∀ entry, entry ∈ l ↔ entry ∈ m)
    (hfun : ∀ entry ∈ l, ∀ other ∈ l, entry.1 = other.1 → entry = other) :
    collect (l ++ later) = collect (m ++ later) := by
  refine eq_of_lookup (sorted_collect _) (sorted_collect _) fun k => ?_
  have hlookup : l.reverse.lookup k = m.reverse.lookup k := by
    refine Option.ext fun a => ?_
    have hiff : ∀ n : List (κ × α), (∀ entry, entry ∈ n ↔ entry ∈ l) →
        (n.reverse.lookup k = some a ↔ (k, a) ∈ l) := by
      intro n hn
      constructor
      · exact fun h => (hn _).mp (List.mem_reverse.mp (mem_of_lookup h))
      · intro h
        cases hfound : n.reverse.lookup k with
        | none =>
            have hkey : k ∈ n.reverse.map Prod.fst :=
              List.mem_map.mpr ⟨(k, a), List.mem_reverse.mpr ((hn (k, a)).mpr h), rfl⟩
            exact absurd hkey (lookup_eq_none_iff.mp hfound)
        | some b =>
            have hb := (hn _).mp (List.mem_reverse.mp (mem_of_lookup hfound))
            have heq := hfun _ hb _ h rfl
            rw [Prod.mk.injEq] at heq
            rw [heq.2]
    rw [hiff l fun _ => Iff.rfl, hiff m fun entry => (hmem entry).symm]
  rw [lookup_collect, lookup_collect, List.reverse_append, List.reverse_append,
    List.lookup_append, List.lookup_append, hlookup]

theorem mem_of_mem_collect {entries : List (κ × α)} {entry : κ × α} (h : entry ∈ collect entries) :
    entry ∈ entries := by
  have hlookup := lookup_of_mem (sorted_collect entries) (show (entry.1, entry.2) ∈ _ from h)
  rw [lookup_collect] at hlookup
  exact List.mem_reverse.mp (mem_of_lookup hlookup)

/-- An entry of the earlier source is kept where the later one has none. -/
theorem mem_of_mem_collect_append {l m : List (κ × α)} {entry : κ × α}
    (h : entry ∈ collect (l ++ m)) :
    entry ∈ m ∨ entry.1 ∉ m.map Prod.fst ∧ entry ∈ l := by
  have hlookup := lookup_of_mem (sorted_collect (l ++ m)) (show (entry.1, entry.2) ∈ _ from h)
  rw [lookup_collect, List.reverse_append, List.lookup_append] at hlookup
  cases hm : m.reverse.lookup entry.1 with
  | some a =>
      rw [hm, Option.some_or, Option.some.injEq] at hlookup
      subst hlookup
      exact .inl (List.mem_reverse.mp (mem_of_lookup hm))
  | none =>
      rw [hm, Option.none_or] at hlookup
      rw [lookup_eq_none_iff, List.map_reverse, List.mem_reverse] at hm
      exact .inr ⟨hm, List.mem_reverse.mp (mem_of_lookup hlookup)⟩

/-! ## Cut sources -/

/-- The entries below a key come first. -/
theorem filter_lt_append {map : List (κ × α)} (h : Sorted map) (b : κ) :
    map = map.filter (fun entry => decide (entry.1 < b))
      ++ map.filter fun entry => !decide (entry.1 < b) := by
  induction map with
  | nil => rfl
  | cons entry map ih =>
      obtain ⟨hfirst, hrest⟩ := List.pairwise_cons.mp h
      by_cases hlt : entry.1 < b
      · rw [List.filter_cons_of_pos (by simp [hlt]), List.filter_cons_of_neg (by simp [hlt]),
          List.cons_append, ← ih hrest]
      · have hall : ∀ other ∈ map, ¬ other.1 < b := fun other hother hb =>
          hlt ((hfirst other.1 (List.mem_map_of_mem hother)).trans hb)
        rw [List.filter_cons_of_neg (by simp [hlt]), List.filter_cons_of_pos (by simp [hlt]),
          List.filter_eq_nil_iff.mpr (by simpa using hall), List.nil_append,
          List.filter_eq_self.mpr (by simpa using hall)]

theorem length_le_collect {source : List (κ × α)} (h : Sorted source) (later : List (κ × α)) :
    source.length ≤ (collect (source ++ later)).length := by
  have hsubset : source.map Prod.fst ⊆ (collect (source ++ later)).map Prod.fst := fun k hk =>
    mem_keys_collect.mpr (by rw [List.map_append]; exact List.mem_append_left _ hk)
  have hnodup : (source.map Prod.fst).Nodup := h.imp fun hlt => hlt.ne
  have hlength := (List.subperm_of_subset hnodup hsubset).length_le
  rwa [List.length_map, List.length_map] at hlength

/-- Where a source is cut after `n` entries, the first `n` entries of its merge with
another are still what they were. -/
theorem take_collect_cut {source : List (κ × α)} (h : Sorted source) (later : List (κ × α))
    (n : Nat) :
    (collect (source.take n ++ later)).take n = (collect (source ++ later)).take n := by
  by_cases hn : n < source.length
  · let b := (source[n]).1
    have hsplit := h
    rw [Sorted, ← List.take_append_drop n source, List.map_append, List.pairwise_append] at hsplit
    have hhead : source.drop n = source[n] :: source.drop (n + 1) := List.drop_eq_getElem_cons hn
    have hbelow : ∀ entry ∈ source.take n, entry.1 < b := by
      intro entry hentry
      refine hsplit.2.2 entry.1 (List.mem_map_of_mem hentry) b ?_
      rw [hhead]
      exact List.mem_cons_self
    have habove : ∀ entry ∈ source.drop n, ¬ entry.1 < b := by
      intro entry hentry
      rw [hhead, List.mem_cons] at hentry
      obtain rfl | hentry := hentry
      · exact lt_irrefl _
      · have hdrop := hsplit.2.1
        rw [hhead, List.map_cons, List.pairwise_cons] at hdrop
        exact (hdrop.1 entry.1 (List.mem_map_of_mem hentry)).asymm
    -- below the first entry that was cut the two merges are the same, and `n` entries long
    have hcut : (source.take n).filter (fun entry => decide (entry.1 < b)) = source.take n :=
      List.filter_eq_self.mpr fun entry hentry => decide_eq_true (hbelow entry hentry)
    have hwhole : source.filter (fun entry => decide (entry.1 < b)) = source.take n := by
      conv_lhs => rw [← List.take_append_drop n source, List.filter_append, hcut]
      rw [List.filter_eq_nil_iff.mpr (by simpa using habove), List.append_nil]
    have hsame : ∀ other : List (κ × α),
        other.filter (fun entry => decide (entry.1 < b)) = source.take n →
        (collect (other ++ later)).take n = (collect (source.take n
          ++ later.filter fun entry => decide (entry.1 < b))).take n := by
      intro other hother
      have hlow := collect_filter (fun k => decide (k < b)) (other ++ later)
      rw [List.filter_append, hother] at hlow
      rw [filter_lt_append (sorted_collect (other ++ later)) b, ← hlow]
      refine List.take_append_of_le_length ?_
      have hsource : Sorted (source.take n) := hsplit.1
      have hlength := length_le_collect hsource (later.filter fun entry => decide (entry.1 < b))
      rw [List.length_take, min_eq_left hn.le] at hlength
      exact hlength
    rw [hsame _ hcut, hsame _ hwhole]
  · rw [List.take_of_length_le (not_lt.mp hn)]

end Overlay
