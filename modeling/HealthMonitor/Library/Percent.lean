import Mathlib.Data.List.Infix
import HealthMonitor.Library.Padding
import HealthMonitor.Library.Text

/-!
# Percent

Percent-encoded texts. An escape is read as the byte it stands for, the character of that
number; everything else is read as itself. A text can be written in many ways that decode to
the same: `encode` escapes all of it, and `decode_append` says where a text can be cut
without taking an escape apart.
-/

namespace Percent

/-- The value of a hexadecimal digit. -/
def hexValue (c : Char) : Option Nat :=
  if 48 ≤ c.toNat ∧ c.toNat ≤ 57 then some (c.toNat - 48)
  else if 65 ≤ c.toNat ∧ c.toNat ≤ 70 then some (c.toNat - 55)
  else if 97 ≤ c.toNat ∧ c.toNat ≤ 102 then some (c.toNat - 87)
  else none

/-- The byte that an escape stands for, of the two characters after the percent sign. -/
def byteOf (high low : Char) : Option Char :=
  (hexValue high).bind fun h => (hexValue low).map fun l => Char.ofNat (16 * h + l)

def decode : List Char → List Char
  | '%' :: high :: low :: rest =>
      match byteOf high low with
      | some byte => byte :: decode rest
      | none => '%' :: decode (high :: low :: rest)
  | c :: rest => c :: decode rest
  | [] => []

def escape (byte : Char) : List Char :=
  ['%', Nat.digitChar (byte.toNat / 16), Nat.digitChar (byte.toNat % 16)]

/-- Every character escaped. -/
def encode (text : List Char) : List Char := text.flatMap escape

/-- The text in lower case. -/
def lower (text : List Char) : List Char := text.map Char.toLower

theorem decode_nil : decode [] = [] := rfl

theorem decode_cons_of_ne {c : Char} (h : c ≠ '%') (rest : List Char) :
    decode (c :: rest) = c :: decode rest := by
  rw [decode.eq_def]
  split
  · rename_i heq
    cases heq
    exact absurd rfl h
  · rename_i heq
    cases heq
    rfl
  · rename_i heq
    cases heq

theorem decode_escape {high low b : Char} (h : byteOf high low = some b) (rest : List Char) :
    decode ('%' :: high :: low :: rest) = b :: decode rest := by
  rw [decode, h]

/-- A percent sign that no escape starts with is read as itself. -/
theorem decode_percent {rest : List Char}
    (h : ∀ high low t, rest = high :: low :: t → byteOf high low = none) :
    decode ('%' :: rest) = '%' :: decode rest := by
  match rest with
  | [] => rfl
  | [c] =>
    rw [decode]
    rintro _ _ _ _ ⟨⟩
  | high :: low :: t => rw [decode, h high low t rfl]

theorem decode_singleton (c : Char) : decode [c] = [c] := by
  by_cases hc : c = '%'
  · subst hc
    exact decode_percent nofun
  · exact decode_cons_of_ne hc []

/-! ## Digits -/

theorem hexValue_digitChar : ∀ n < 16, hexValue (Nat.digitChar n) = some n := by decide

theorem byteOf_of_left {high : Char} (h : hexValue high = none) (low : Char) :
    byteOf high low = none := by
  rw [byteOf, h, Option.bind_none]

theorem byteOf_of_right {low : Char} (h : hexValue low = none) (high : Char) :
    byteOf high low = none := by
  rw [byteOf, h]
  cases hexValue high <;> rfl

theorem byteOf_digits {b : Char} (h : b.toNat < 256) :
    byteOf (Nat.digitChar (b.toNat / 16)) (Nat.digitChar (b.toNat % 16)) = some b := by
  rw [byteOf, hexValue_digitChar _ (by omega), hexValue_digitChar _ (by omega)]
  show some (Char.ofNat (16 * (b.toNat / 16) + b.toNat % 16)) = some b
  rw [Nat.div_add_mod, Char.ofNat_toNat]

theorem hexValue_lt {c : Char} {n : Nat} (h : hexValue c = some n) : n < 16 := by
  simp only [hexValue] at h
  split at h
  · cases h
    omega
  · split at h
    · cases h
      omega
    · split at h
      · cases h
        omega
      · cases h

theorem toNat_ofNat : ∀ n < 256, (Char.ofNat n).toNat = n := by decide +kernel

theorem toNat_byteOf {high low b : Char} (h : byteOf high low = some b) :
    ∃ m n, hexValue high = some m ∧ hexValue low = some n ∧ b.toNat = 16 * m + n := by
  obtain ⟨m, hm, h⟩ := Option.bind_eq_some_iff.mp h
  obtain ⟨n, hn, rfl⟩ := Option.map_eq_some_iff.mp h
  have hmlt := hexValue_lt hm
  have hnlt := hexValue_lt hn
  exact ⟨m, n, hm, hn, toNat_ofNat _ (by omega)⟩

theorem toNat_byteOf_lt {high low b : Char} (h : byteOf high low = some b) : b.toNat < 256 := by
  obtain ⟨m, n, hm, hn, heq⟩ := toNat_byteOf h
  have hmlt := hexValue_lt hm
  have hnlt := hexValue_lt hn
  omega

/-! ## Cutting -/

/-- A text can be cut before what is not a digit. -/
theorem decode_append {x y : List Char} (h : ∀ c ∈ y.head?, hexValue c = none) :
    decode (x ++ y) = decode x ++ decode y := by
  induction x using decode.induct with
  | case1 high low rest b hb ih =>
    rw [List.cons_append, List.cons_append, List.cons_append, decode_escape hb, decode_escape hb,
      ih, List.cons_append]
  | case2 high low rest hb ih =>
    rw [List.cons_append, decode_percent, decode_percent, ih, List.cons_append]
    · rintro _ _ _ ⟨⟩
      exact hb
    · rintro _ _ _ ⟨⟩
      exact hb
  | case3 c rest hne ih =>
    by_cases hc : c = '%'
    · subst hc
      rw [List.cons_append, decode_percent, decode_percent, ih, List.cons_append]
      · rintro high low t rfl
        exact absurd rfl (hne high low t rfl)
      · rintro high low t heq
        -- the rest is shorter than an escape, so `y` starts within it
        match rest with
        | [] =>
          rw [List.nil_append] at heq
          exact byteOf_of_left (h high (by rw [heq]; rfl)) low
        | [d] =>
          cases y with
          | nil => cases heq
          | cons e y =>
            cases heq
            exact byteOf_of_right (h low rfl) high
        | d :: e :: s => exact absurd rfl (hne d e s rfl)
    · rw [List.cons_append, decode_cons_of_ne hc, decode_cons_of_ne hc, ih, List.cons_append]
  | case4 => rfl

theorem decode_plain_append {w : List Char} (h : '%' ∉ w) (y : List Char) :
    decode (w ++ y) = w ++ decode y := by
  induction w with
  | nil => rfl
  | cons c w ih =>
    rw [List.mem_cons, not_or] at h
    rw [List.cons_append, decode_cons_of_ne (Ne.symm h.1), ih h.2, List.cons_append]

/-- A word that no digit starts stands in the decoded text as well. -/
theorem decode_around {w : List Char} (hplain : '%' ∉ w) {c : Char} (hhead : w.head? = some c)
    (hdigit : hexValue c = none) (x y : List Char) :
    decode (x ++ w ++ y) = decode x ++ w ++ decode y := by
  rw [List.append_assoc, decode_append, decode_plain_append hplain, List.append_assoc]
  intro d hd
  rw [List.head?_append, hhead] at hd
  cases hd
  exact hdigit

/-- The last character is read as itself, or ends an escape. -/
theorem decode_concat (x : List Char) (c : Char) :
    ∃ y b, decode (x ++ [c]) = y ++ [b] ∧ (b = c ∨ ∃ high, byteOf high c = some b) := by
  induction x using decode.induct with
  | case1 high low rest b hb ih =>
    obtain ⟨y, d, hy, hd⟩ := ih
    refine ⟨b :: y, d, ?_, hd⟩
    rw [List.cons_append, List.cons_append, List.cons_append, decode_escape hb, hy,
      List.cons_append]
  | case2 high low rest hb ih =>
    obtain ⟨y, d, hy, hd⟩ := ih
    refine ⟨'%' :: y, d, ?_, hd⟩
    rw [List.cons_append, decode_percent, hy, List.cons_append]
    rintro _ _ _ ⟨⟩
    exact hb
  | case3 d rest hne ih =>
    obtain ⟨y, b, hy, hb⟩ := ih
    by_cases hescape : d = '%' ∧ ∃ high, rest = [high] ∧ (byteOf high c).isSome
    · obtain ⟨rfl, high, rfl, hsome⟩ := hescape
      obtain ⟨e, he⟩ := Option.isSome_iff_exists.mp hsome
      refine ⟨[], e, ?_, Or.inr ⟨high, he⟩⟩
      rw [List.cons_append, List.singleton_append, decode_escape he]
      rfl
    · refine ⟨d :: y, b, ?_, hb⟩
      rw [List.cons_append, List.cons_append, ← hy]
      by_cases hd : d = '%'
      · subst hd
        refine decode_percent ?_
        intro high low t heq
        match rest with
        | [] => cases heq
        | [e] =>
          cases heq
          refine Option.not_isSome_iff_eq_none.mp fun hsome => hescape ⟨rfl, high, rfl, hsome⟩
        | e :: f :: s => exact absurd rfl (hne e f s rfl)
      · exact decode_cons_of_ne hd _
  | case4 => exact ⟨[], c, decode_singleton c, Or.inl rfl⟩

theorem decode_bytes {t : List Char} (h : ∀ c ∈ t, c.toNat < 256) :
    ∀ b ∈ decode t, b.toNat < 256 := by
  induction t using decode.induct with
  | case1 high low rest b hb ih =>
    rw [decode_escape hb]
    intro d hd
    obtain rfl | hd := List.mem_cons.mp hd
    · exact toNat_byteOf_lt hb
    · exact ih (fun c hc => h c (by simp [hc])) d hd
  | case2 high low rest hb ih =>
    rw [decode_percent]
    · intro d hd
      obtain rfl | hd := List.mem_cons.mp hd
      · decide
      · exact ih (fun c hc => h c (List.mem_cons_of_mem _ hc)) d hd
    · rintro _ _ _ ⟨⟩
      exact hb
  | case3 c rest hne ih =>
    have hrest := ih fun d hd => h d (List.mem_cons_of_mem _ hd)
    rw [decode]
    · intro d hd
      obtain rfl | hd := List.mem_cons.mp hd
      · exact h d List.mem_cons_self
      · exact hrest d hd
    · exact hne
  | case4 => exact fun b hb => absurd hb List.not_mem_nil

/-! ## Writing -/

theorem decode_encode_append {text : List Char} (h : ∀ b ∈ text, b.toNat < 256)
    (y : List Char) : decode (encode text ++ y) = text ++ decode y := by
  induction text with
  | nil => rfl
  | cons b text ih =>
    have hb := byteOf_digits (h b List.mem_cons_self)
    show decode ('%' :: _ :: _ :: (encode text ++ y)) = _
    rw [decode_escape hb, ih fun c hc => h c (List.mem_cons_of_mem _ hc), List.cons_append]

theorem decode_encode {text : List Char} (h : ∀ b ∈ text, b.toNat < 256) :
    decode (encode text) = text := by
  have happend := decode_encode_append h []
  rwa [List.append_nil, decode_nil, List.append_nil] at happend

theorem mem_encode {text : List Char} {c : Char} (hbytes : ∀ b ∈ text, b.toNat < 256)
    (h : c ∈ encode text) : c = '%' ∨ ∃ n < 16, c = Nat.digitChar n := by
  obtain ⟨b, hb, hc⟩ := List.mem_flatMap.mp h
  have hlt := hbytes b hb
  simp only [escape, List.mem_cons, List.not_mem_nil, or_false] at hc
  obtain rfl | rfl | rfl := hc
  · exact Or.inl rfl
  · exact Or.inr ⟨_, by omega, rfl⟩
  · exact Or.inr ⟨_, by omega, rfl⟩

/-! ## Lower case -/

@[simp] theorem lower_nil : lower [] = [] := rfl

@[simp] theorem lower_cons (c : Char) (t : List Char) : lower (c :: t) = c.toLower :: lower t :=
  rfl

@[simp] theorem lower_append (x y : List Char) : lower (x ++ y) = lower x ++ lower y :=
  List.map_append

/-- A character that is neither a letter nor equal to `c` does not become `c`. -/
theorem mem_lower {c : Char} (h : c.toNat < 97) (hupper : c.isUpper = false) {t : List Char} :
    c ∈ lower t ↔ c ∈ t := by
  rw [lower, List.mem_map]
  constructor
  · rintro ⟨d, hd, heq⟩
    rwa [← (Padding.toLower_eq_iff h hupper).mp heq]
  · intro hc
    exact ⟨c, hc, (Padding.toLower_eq_iff h hupper).mpr rfl⟩

theorem digitChar_toLower : ∀ n < 16, (Nat.digitChar n).toLower = Nat.digitChar n := by decide

theorem hexValue_toLower (c : Char) : hexValue c.toLower = hexValue c := by
  rw [hexValue, hexValue, Padding.toNat_toLower]
  split
  · rename_i hupper
    by_cases hdigit : c.toNat ≤ 70
    · rw [if_neg (by omega), if_neg (by omega), if_pos (by omega), if_neg (by omega),
        if_pos (by omega)]
      congr 1
    · rw [if_neg (by omega), if_neg (by omega), if_neg (by omega), if_neg (by omega),
        if_neg (by omega), if_neg (by omega)]
  · rfl

theorem byteOf_toLower (high low : Char) : byteOf high.toLower low.toLower = byteOf high low := by
  rw [byteOf, byteOf, hexValue_toLower, hexValue_toLower]

theorem toLower_eq_percent {c : Char} : c.toLower = '%' ↔ c = '%' :=
  Padding.toLower_eq_iff (by decide) (by decide)

/-- Whether the escapes are written in lower case does not matter for what they stand for. -/
theorem lower_decode_lower (t : List Char) : lower (decode (lower t)) = lower (decode t) := by
  induction t using decode.induct with
  | case1 high low rest b hb ih =>
    rw [decode_escape hb, lower_cons b, ← ih]
    show lower (decode ('%' :: high.toLower :: low.toLower :: lower rest)) = _
    rw [decode_escape ((byteOf_toLower high low).trans hb), lower_cons]
  | case2 high low rest hb ih =>
    rw [decode_percent, lower_cons '%' (decode _), ← ih]
    · show lower (decode ('%' :: high.toLower :: low.toLower :: lower rest)) = _
      rw [decode_percent]
      · rfl
      · rintro _ _ _ ⟨⟩
        exact (byteOf_toLower high low).trans hb
    · rintro _ _ _ ⟨⟩
      exact hb
  | case3 c rest hne ih =>
    have hsame : decode (c :: rest) = c :: decode rest := by
      rw [decode]
      exact hne
    rw [hsame, lower_cons c (decode rest), ← ih, lower_cons]
    by_cases hc : c = '%'
    · subst hc
      show lower (decode ('%' :: lower rest)) = _
      rw [decode_percent]
      · rfl
      · intro high low t heq
        obtain ⟨h, s, rfl, -, hs⟩ := List.map_eq_cons_iff.mp heq
        obtain ⟨l, s, rfl, -, -⟩ := List.map_eq_cons_iff.mp hs
        exact absurd rfl (hne h l s rfl)
    · rw [decode_cons_of_ne (toLower_eq_percent.not.mpr hc), lower_cons, Padding.toLower_toLower]
  | case4 => rfl

/-- What is written in escapes alone is in lower case. -/
theorem lower_encode {text : List Char} (hbytes : ∀ b ∈ text, b.toNat < 256) :
    lower (encode text) = encode text := by
  rw [lower]
  refine (List.map_congr_left fun c hc => ?_).trans (List.map_id _)
  obtain rfl | ⟨n, hn, rfl⟩ := mem_encode hbytes hc
  · rfl
  · exact digitChar_toLower n hn

/-! ## Paths -/

/-- The texts of the segments that stand for a directory. -/
def Dots (segment : List Char) : Prop := segment = ['.'] ∨ segment = ['.', '.']

instance (segment : List Char) : Decidable (Dots segment) :=
  inferInstanceAs (Decidable (_ ∨ _))

/-- No segment of the path stands for a directory. -/
def Resolved (path : List Char) : Prop := ∀ segment ∈ path.splitOn '/', ¬Dots (decode segment)

instance (path : List Char) : Decidable (Resolved path) :=
  inferInstanceAs (Decidable (∀ segment ∈ path.splitOn '/', ¬Dots (decode segment)))

theorem not_dots_nil : ¬Dots [] := by
  rintro (h | h) <;> cases h

theorem not_dots_of_mem {t : List Char} {c : Char} (hc : c ≠ '.') (h : c ∈ t) : ¬Dots t := by
  rintro (rfl | rfl) <;> simp_all

theorem dots_lower {t : List Char} : Dots (lower t) ↔ Dots t := by
  have hdot : ∀ c : Char, c.toLower = '.' ↔ c = '.' :=
    fun c => Padding.toLower_eq_iff (by decide) (by decide)
  simp only [Dots, lower, List.map_eq_cons_iff, List.map_eq_nil_iff]
  constructor
  · rintro (⟨c, _, rfl, hc, rfl⟩ | ⟨c, _, rfl, hc, d, _, rfl, hd, rfl⟩)
    · exact Or.inl (by rw [(hdot c).mp hc])
    · exact Or.inr (by rw [(hdot c).mp hc, (hdot d).mp hd])
  · rintro (rfl | rfl)
    · exact Or.inl ⟨'.', [], rfl, rfl, rfl⟩
    · exact Or.inr ⟨'.', ['.'], rfl, rfl, '.', [], rfl, rfl, rfl⟩

theorem splitOn_lower (t : List Char) : (lower t).splitOn '/' = (t.splitOn '/').map lower := by
  induction t with
  | nil => simp
  | cons c t ih =>
    rw [lower_cons, List.splitOn_cons_eq_if_modifyHead, List.splitOn_cons_eq_if_modifyHead, ih]
    by_cases hc : c = '/'
    · subst hc
      rfl
    · have hlower : ¬c.toLower = '/' :=
        (Padding.toLower_eq_iff (by decide) (by decide)).not.mpr hc
      rw [if_neg (by simpa using hlower), if_neg (by simpa using hc)]
      cases t.splitOn '/' <;> rfl

theorem resolved_lower {t : List Char} : Resolved (lower t) ↔ Resolved t := by
  have hdots : ∀ s, Dots (decode (lower s)) ↔ Dots (decode s) := by
    intro s
    rw [← dots_lower, lower_decode_lower, dots_lower]
  rw [Resolved, splitOn_lower, List.forall_mem_map]
  exact forall₂_congr fun s _ => (hdots s).not

theorem resolved_append {x y : List Char} :
    Resolved (x ++ '/' :: y) ↔ Resolved x ∧ Resolved y := by
  simp only [Resolved, List.splitOn_append_cons_self, List.mem_append]
  constructor
  · exact fun h => ⟨fun s hs => h s (Or.inl hs), fun s hs => h s (Or.inr hs)⟩
  · rintro ⟨hx, hy⟩ s (hs | hs)
    · exact hx s hs
    · exact hy s hs

theorem resolved_single {x : List Char} (h : '/' ∉ x) : Resolved x ↔ ¬Dots (decode x) := by
  rw [Resolved, Text.splitOn_single h]
  simp

theorem resolved_nil : Resolved [] :=
  (resolved_single List.not_mem_nil).mpr not_dots_nil

theorem resolved_slash {y : List Char} : Resolved ('/' :: y) ↔ Resolved y := by
  have happend : Resolved ([] ++ '/' :: y) ↔ _ := resolved_append
  rw [List.nil_append] at happend
  rw [happend]
  exact and_iff_right resolved_nil

theorem Resolved.not_dots {x : List Char} (h : Resolved x) : ¬Dots (decode x) := by
  by_cases hslash : '/' ∈ x
  · obtain ⟨p, q, rfl⟩ := List.append_of_mem hslash
    refine not_dots_of_mem (by decide : '/' ≠ '.') ?_
    have hcut := decode_around (w := ['/']) (by decide) rfl (by decide) p q
    rw [List.append_assoc, List.singleton_append] at hcut
    rw [hcut]
    simp
  · exact (resolved_single hslash).mp h

theorem slash_notMem_encode {text : List Char} (hbytes : ∀ b ∈ text, b.toNat < 256) :
    '/' ∉ encode text := by
  intro h
  have hdigit : ∀ n < 16, Nat.digitChar n ≠ '/' := by decide
  obtain h | ⟨n, hn, h⟩ := mem_encode hbytes h
  · cases h
  · exact hdigit n hn h.symm

theorem resolved_encode {text : List Char} (hbytes : ∀ b ∈ text, b.toNat < 256) :
    Resolved (encode text) ↔ ¬Dots text := by
  rw [resolved_single (slash_notMem_encode hbytes), decode_encode hbytes]

/-! ## Hiding a segment -/

/-- Nothing, or a slash and a text that can be one segment of a path. -/
def Apart (text : List Char) : Prop :=
  text = [] ∨ ∃ segment, text = '/' :: segment ∧ ¬Dots segment

/-- All of the text but its first character escaped. -/
def veil : List Char → List Char
  | [] => []
  | c :: rest => c :: encode rest

section

variable {x : List Char} (hbytes : ∀ b ∈ x, b.toNat < 256) (hapart : Apart x)

include hbytes hapart

theorem decode_veil_append (y : List Char) : decode (veil x ++ y) = x ++ decode y := by
  obtain rfl | ⟨segment, rfl, -⟩ := hapart
  · rfl
  · rw [veil, List.cons_append, decode_cons_of_ne (by decide),
      decode_encode_append fun b hb => hbytes b (List.mem_cons_of_mem _ hb), List.cons_append]

theorem resolved_veil : Resolved (veil x) := by
  obtain rfl | ⟨segment, rfl, hdots⟩ := hapart
  · exact resolved_nil
  · rw [veil, resolved_slash, resolved_encode fun b hb => hbytes b (List.mem_cons_of_mem _ hb)]
    exact hdots

theorem mem_veil {c : Char} (h : c ∈ veil x) :
    c = '/' ∨ c = '%' ∨ ∃ n < 16, c = Nat.digitChar n := by
  obtain rfl | ⟨segment, rfl, -⟩ := hapart
  · cases h
  · obtain rfl | h := List.mem_cons.mp h
    · exact Or.inl rfl
    · exact Or.inr (mem_encode (fun b hb => hbytes b (List.mem_cons_of_mem _ hb)) h)

end

theorem apart_lower {t : List Char} : Apart (lower t) ↔ Apart t := by
  have hslash : ∀ c : Char, c.toLower = '/' ↔ c = '/' :=
    fun c => Padding.toLower_eq_iff (by decide) (by decide)
  cases t with
  | nil => exact Iff.rfl
  | cons c t =>
    simp only [Apart, lower_cons, List.cons.injEq, hslash, reduceCtorEq, false_or]
    constructor
    · rintro ⟨s, ⟨rfl, rfl⟩, hdots⟩
      exact ⟨t, ⟨rfl, rfl⟩, dots_lower.not.mp hdots⟩
    · rintro ⟨s, ⟨rfl, rfl⟩, hdots⟩
      exact ⟨lower t, ⟨rfl, rfl⟩, dots_lower.not.mpr hdots⟩

/-- What comes before a slash in a path. -/
theorem apart_decode {p y : List Char} (hroot : ∀ c ∈ p.head?, c = '/')
    (h : Resolved (p ++ '/' :: y)) : Apart (decode p) := by
  cases p with
  | nil => exact Or.inl rfl
  | cons c p =>
    obtain rfl := hroot c rfl
    rw [decode_cons_of_ne (by decide)]
    exact Or.inr ⟨decode p, rfl, (resolved_slash.mp (resolved_append.mp h).1).not_dots⟩

end Percent
