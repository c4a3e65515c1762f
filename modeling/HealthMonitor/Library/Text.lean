import Mathlib.Data.List.Infix

/-!
# Text

Substring tests on strings, computed on their characters so that they reduce
in the kernel. Everything here is about `String` alone: `startsWith`,
`endsWith` and `contains` are the three substring relations, `splitOnce` and
`rsplitOnce` cut at the first and the last occurrence of a pattern, and
`stripPrefix` and `stripSuffix` undo an append.
-/

namespace Text

/-- `p` is an initial segment of `s`. -/
def startsWith (s p : String) : Bool :=
  p.toList.isPrefixOf s.toList

/-- `p` is a final segment of `s`. -/
def endsWith (s p : String) : Bool :=
  p.toList.isSuffixOf s.toList

/-- `p` occurs somewhere in `s`. -/
def contains (s p : String) : Bool :=
  s.toList.tails.any (p.toList.isPrefixOf ·)

/-- `s` without the initial segment `p`, if it has one. -/
def stripPrefix (s p : String) : Option String :=
  if startsWith s p then some (String.ofList (s.toList.drop p.toList.length))
  else none

/-- `s` without the final segment `p`, if it has one. -/
def stripSuffix (s p : String) : Option String :=
  if endsWith s p then
    some (String.ofList (s.toList.take (s.toList.length - p.toList.length)))
  else none

/-- Cut a list of characters at the first occurrence of `p`. -/
def cut (p : List Char) : List Char → Option (List Char × List Char)
  | [] => if p.isEmpty then some ([], []) else none
  | x :: xs =>
      if p.isPrefixOf (x :: xs) then some ([], (x :: xs).drop p.length)
      else (cut p xs).map fun sides => (x :: sides.1, sides.2)

/-- The two sides of the first occurrence of `p` in `s`. -/
def splitOnce (s p : String) : Option (String × String) :=
  (cut p.toList s.toList).map fun sides =>
    (String.ofList sides.1, String.ofList sides.2)

/-- The two sides of the last occurrence of `p` in `s`. -/
def rsplitOnce (s p : String) : Option (String × String) :=
  (cut p.toList.reverse s.toList.reverse).map fun sides =>
    (String.ofList sides.2.reverse, String.ofList sides.1.reverse)

/-- The pieces of `s` between occurrences of `c`. -/
def split (s : String) (c : Char) : List String :=
  (s.toList.splitOn c).map String.ofList

/-- The text before the first `c`, all of it when there is none. -/
def head (s : String) (c : Char) : String :=
  String.ofList (s.toList.takeWhile (· != c))

/-! ## The substring relations -/

theorem startsWith_iff {s p : String} :
    startsWith s p = true ↔ ∃ t, s = p ++ t := by
  rw [startsWith, List.isPrefixOf_iff_prefix]
  constructor
  · rintro ⟨t, ht⟩
    exact ⟨String.ofList t, String.ext (by simp [ht])⟩
  · rintro ⟨t, rfl⟩
    exact ⟨t.toList, by simp⟩

theorem endsWith_iff {s p : String} :
    endsWith s p = true ↔ ∃ t, s = t ++ p := by
  rw [endsWith, List.isSuffixOf_iff_suffix]
  constructor
  · rintro ⟨t, ht⟩
    exact ⟨String.ofList t, String.ext (by simp [ht])⟩
  · rintro ⟨t, rfl⟩
    exact ⟨t.toList, by simp⟩

theorem contains_iff {s p : String} : contains s p = true ↔ p.toList <:+: s.toList := by
  rw [contains, List.any_eq_true]
  constructor
  · rintro ⟨t, ht, hp⟩
    exact (List.isPrefixOf_iff_prefix.mp hp).isInfix.trans ((List.mem_tails _ _).mp ht).isInfix
  · rintro ⟨x, y, h⟩
    refine ⟨p.toList ++ y, (List.mem_tails _ _).mpr ⟨x, ?_⟩, ?_⟩
    · rw [← h, List.append_assoc]
    · exact List.isPrefixOf_iff_prefix.mpr (List.prefix_append _ _)

@[simp] theorem startsWith_append (p t : String) :
    startsWith (p ++ t) p = true :=
  startsWith_iff.mpr ⟨t, rfl⟩

@[simp] theorem endsWith_append (t p : String) :
    endsWith (t ++ p) p = true :=
  endsWith_iff.mpr ⟨t, rfl⟩

theorem startsWith_append_of_startsWith {s p : String} (t : String)
    (h : startsWith s p = true) : startsWith (s ++ t) p = true := by
  obtain ⟨u, rfl⟩ := startsWith_iff.mp h
  exact startsWith_iff.mpr ⟨u ++ t, by rw [String.append_assoc]⟩

/-- `stripPrefix` undoes an append, and nothing else. -/
theorem stripPrefix_eq_some {s p r : String} : stripPrefix s p = some r ↔ s = p ++ r := by
  rw [stripPrefix]
  constructor
  · intro h
    split at h
    case isTrue hs =>
      obtain ⟨t, rfl⟩ := startsWith_iff.mp hs
      rw [← Option.some.inj h]
      simp [String.toList_append]
    case isFalse => cases h
  · rintro rfl
    rw [if_pos (startsWith_append p r)]
    simp [String.toList_append]

/-- `stripSuffix` undoes an append, and nothing else. -/
theorem stripSuffix_eq_some {s p r : String} : stripSuffix s p = some r ↔ s = r ++ p := by
  rw [stripSuffix]
  constructor
  · intro h
    by_cases hs : endsWith s p = true
    · rw [if_pos hs] at h
      obtain ⟨t, rfl⟩ := endsWith_iff.mp hs
      have hr := Option.some.inj h
      rw [String.toList_append, List.length_append, Nat.add_sub_cancel,
        List.take_left] at hr
      rw [← hr, String.ofList_toList]
    · rw [if_neg hs] at h
      cases h
  · rintro rfl
    rw [if_pos (endsWith_append r p), String.toList_append, List.length_append,
      Nat.add_sub_cancel, List.take_left, String.ofList_toList]

theorem splitOn_single {text : List Char} {c : Char} (h : c ∉ text) : text.splitOn c = [text] := by
  have hsplit : ([c].intercalate [text]).splitOn c = [text] :=
    List.splitOn_intercalate c (by simpa using h) (by simp)
  simpa using hsplit

/-- Two texts with different heads up to a separator have no common start. -/
theorem startsWith_unique {s a b : String} {c : Char}
    (ha : c ∉ a.toList) (hb : c ∉ b.toList)
    (h : startsWith s (a ++ String.singleton c) = true)
    (h' : startsWith s (b ++ String.singleton c) = true) : a = b := by
  obtain ⟨t, rfl⟩ := startsWith_iff.mp h
  obtain ⟨u, hu⟩ := startsWith_iff.mp h'
  have hl : a.toList ++ c :: t.toList = b.toList ++ c :: u.toList := by
    simpa using congrArg String.toList hu
  have key : ∀ x y v w : List Char, c ∉ x → c ∉ y →
      x ++ c :: v = y ++ c :: w → x = y := by
    intro x
    induction x with
    | nil =>
        intro y v w _ hy he
        cases y with
        | nil => rfl
        | cons d y =>
            simp only [List.nil_append, List.cons_append, List.cons.injEq] at he
            exact absurd (by simp [he.1]) hy
    | cons d x ih =>
        intro y v w hx hy he
        cases y with
        | nil =>
            simp only [List.nil_append, List.cons_append, List.cons.injEq] at he
            exact absurd (by simp [he.1]) hx
        | cons e y =>
            simp only [List.cons_append, List.cons.injEq] at he
            obtain ⟨rfl, he⟩ := he
            rw [ih y v w (fun hm => hx (by simp [hm]))
              (fun hm => hy (by simp [hm])) he]
  exact String.ext (key _ _ _ _ ha hb hl)

/-- The first separator of a text is the one after a head without it. -/
theorem splitOnce_append {a : String} {c : Char} (ha : c ∉ a.toList) (b : String) :
    splitOnce (a ++ String.singleton c ++ b) (String.singleton c) = some (a, b) := by
  have key : ∀ x : List Char, c ∉ x → cut [c] (x ++ c :: b.toList) = some (x, b.toList) := by
    intro x
    induction x with
    | nil =>
        intro _
        simp [cut]
    | cons d x ih =>
        intro hx
        rw [List.mem_cons, not_or] at hx
        rw [List.cons_append, cut, ih hx.2]
        simp [hx.1]
  have hl : (a ++ String.singleton c ++ b).toList = a.toList ++ c :: b.toList := by simp
  rw [splitOnce, hl]
  have hc : (String.singleton c).toList = [c] := by simp
  rw [hc, key _ ha]
  simp

end Text
