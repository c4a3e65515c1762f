import Mathlib.Data.List.Basic

/-!
# Json

Texts as they stand in compact JSON: between quotes, with the two special characters and
the control characters escaped. `unquote` reads back what `quote` writes, and stops at the
quote that ends it; `literal` and `number` read what stands between texts.
-/

namespace Json

def escape (c : Char) : List Char :=
  if c = '"' then ['\\', '"']
  else if c = '\\' then ['\\', '\\']
  else if c = '\x08' then ['\\', 'b']
  else if c = '\t' then ['\\', 't']
  else if c = '\n' then ['\\', 'n']
  else if c = '\x0c' then ['\\', 'f']
  else if c = '\r' then ['\\', 'r']
  else if c.toNat < 32 then
    ['\\', 'u', '0', '0', Nat.digitChar (c.toNat / 16), Nat.digitChar (c.toNat % 16)]
  else [c]

def quote (s : String) : String :=
  "\"" ++ String.ofList (s.toList.flatMap escape) ++ "\""

/-- The digit of a small number. -/
def digit (c : Char) : Nat :=
  if c.isDigit then c.toNat - 48 else c.toNat - 87

/-- What a one-letter escape stands for. -/
def letter (c : Char) : Char :=
  if c = 'b' then '\x08'
  else if c = 't' then '\t'
  else if c = 'n' then '\n'
  else if c = 'f' then '\x0c'
  else if c = 'r' then '\r'
  else c

/-- The characters up to the closing quote, and what follows it. -/
def body : List Char → Option (List Char × List Char)
  | [] => none
  | '"' :: rest => some ([], rest)
  | '\\' :: 'u' :: a :: b :: c :: d :: rest =>
      (body rest).map fun read =>
        (Char.ofNat (((digit a * 16 + digit b) * 16 + digit c) * 16 + digit d) :: read.1, read.2)
  | '\\' :: c :: rest => (body rest).map fun read => (letter c :: read.1, read.2)
  | c :: rest => (body rest).map fun read => (c :: read.1, read.2)

def literal (p : String) (l : List Char) : Option (List Char) :=
  if p.toList.isPrefixOf l then some (l.drop p.toList.length) else none

def unquote (l : List Char) : Option (String × List Char) :=
  (literal "\"" l).bind fun l => (body l).map fun read => (String.ofList read.1, read.2)

def number (l : List Char) : Nat × List Char :=
  (Nat.ofDigitChars 10 (l.takeWhile Char.isDigit) 0, l.dropWhile Char.isDigit)

/-! ## Reading what was written -/

theorem literal_append (p : String) (l : List Char) : literal p (p.toList ++ l) = some l := by
  rw [literal, if_pos (List.isPrefixOf_iff_prefix.mpr (List.prefix_append _ _)), List.drop_left]

theorem number_append (n : Nat) {c : Char} (hc : c.isDigit = false) (l : List Char) :
    number (n.repr.toList ++ c :: l) = (n, c :: l) := by
  have hdigits : ∀ d ∈ n.repr.toList, d.isDigit = true := by
    rw [Nat.toList_repr]
    exact fun d hd => Nat.isDigit_of_mem_toDigits (by decide) (by decide) hd
  rw [number, List.takeWhile_append_of_pos hdigits, List.dropWhile_append_of_pos hdigits,
    List.takeWhile_cons_of_neg (by simp [hc]), List.dropWhile_cons_of_neg (by simp [hc]),
    List.append_nil, Nat.toList_repr, Nat.ofDigitChars_ten_toDigits]

/-- The escape of one character is read as that character. -/
theorem body_escape (c : Char) (l : List Char) :
    body (escape c ++ l) = (body l).map fun read => (c :: read.1, read.2) := by
  rw [escape]
  split
  · next h => subst h; rfl
  split
  · next h => subst h; rfl
  split
  · next h => subst h; rfl
  split
  · next h => subst h; rfl
  split
  · next h => subst h; rfl
  split
  · next h => subst h; rfl
  split
  · next h => subst h; rfl
  split
  · next hsmall =>
      have hread : ∀ n < 32, ((digit '0' * 16 + digit '0') * 16 + digit (Nat.digitChar (n / 16))) * 16
          + digit (Nat.digitChar (n % 16)) = n := by
        decide
      show (body l).map _ = _
      rw [hread c.toNat hsmall, Char.ofNat_toNat]
  · next hquote hslash _ _ _ _ _ _ =>
      rw [List.singleton_append, body]
      · exact fun h => hquote h
      · exact fun _ _ _ _ _ h => absurd h hslash
      · exact fun _ _ h => absurd h hslash

theorem body_quoted (l rest : List Char) :
    body (l.flatMap escape ++ '"' :: rest) = some (l, rest) := by
  induction l with
  | nil => rfl
  | cons c l ih => rw [List.flatMap_cons, List.append_assoc, body_escape, ih, Option.map_some]

theorem unquote_quote (s : String) (rest : List Char) :
    unquote ((quote s).toList ++ rest) = some (s, rest) := by
  have hquote : (quote s).toList ++ rest
      = "\"".toList ++ (s.toList.flatMap escape ++ '"' :: rest) := by
    simp [quote]
  rw [unquote, hquote, literal_append, Option.bind_some, body_quoted, Option.map_some,
    String.ofList_toList]

/-- Quoted texts can be told apart, whatever follows them. -/
theorem quote_append_inj {s t : String} {l m : List Char}
    (h : (quote s).toList ++ l = (quote t).toList ++ m) : s = t ∧ l = m := by
  have hread := congrArg unquote h
  rw [unquote_quote, unquote_quote, Option.some.injEq, Prod.mk.injEq] at hread
  exact hread

/-! ## Texts without escapes -/

theorem escape_eq_self {c : Char} (hquote : c ≠ '"') (hslash : c ≠ '\\') (hlarge : 32 ≤ c.toNat) :
    escape c = [c] := by
  have hcontrol : ∀ d : Char, d.toNat < 32 → c ≠ d := fun d hd hc => absurd hlarge (by rw [hc]; omega)
  rw [escape, if_neg hquote, if_neg hslash, if_neg (hcontrol _ (by decide)),
    if_neg (hcontrol _ (by decide)), if_neg (hcontrol _ (by decide)),
    if_neg (hcontrol _ (by decide)), if_neg (hcontrol _ (by decide)), if_neg (Nat.not_lt.mpr hlarge)]

/-- A text without characters to escape takes the two quotes more. -/
theorem utf8ByteSize_quote {s : String} (h : ∀ c ∈ s.toList, escape c = [c]) :
    (quote s).utf8ByteSize = s.utf8ByteSize + 2 := by
  have hbody : s.toList.flatMap escape = s.toList := by
    rw [List.flatMap_congr h, List.flatMap_singleton']
  rw [quote, hbody, String.ofList_toList, String.utf8ByteSize_append, String.utf8ByteSize_append]
  have hmark : "\"".utf8ByteSize = 1 := by decide
  omega

-- unification would otherwise write texts out to compare their sizes
attribute [irreducible] quote

end Json
