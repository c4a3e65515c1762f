import Mathlib.Algebra.GroupWithZero.Nat
import HealthMonitor.Library.Text
import HealthMonitor.Library.Padding

/-!
# Encoding

Negotiation of a prebuilt representation from an Accept-Encoding header. The header is
read twice: as the source reads its characters, and as the list of weighted codings that
a well-formed value is the text of.
-/

namespace HealthMonitor.Encoding

open Padding

/-! ## The source -/

inductive Coding where
  | raw | gzip | zstd
  deriving DecidableEq, Repr

/-- The number that digits spell. -/
def number (digits : List Char) : Nat :=
  digits.foldl (fun n digit => n * 10 + (digit.toNat - 48)) 0

/-- A weight in thousandths, zero when it is malformed. -/
def quality (value : List Char) : Nat :=
  match Text.cut ['.'] value with
  | none => if value = ['1'] then 1000 else 0
  | some (whole, fraction) =>
      if decide (3 < fraction.length) || !fraction.all (·.isDigit) then 0
      else if whole = ['1'] then if fraction.all (· == '0') then 1000 else 0
      else if whole ≠ ['0'] then 0
      else number fraction * 10 ^ (3 - fraction.length)

/-- `strip_prefix("q=")`. -/
def stripWeight (part : List Char) : Option (List Char) :=
  if ['q', '='].isPrefixOf part then some (part.drop 2) else none

/-- The coding of an entry and its weight. -/
def readEntry (entry : List Char) : List Char × Nat :=
  let parts := entry.splitOn ';'
  (trim isWhitespace (parts.headD []),
    (parts.tail.findSome? fun part => stripWeight (trim isWhitespace part)).elim 1000 quality)

/-- `eq_ignore_ascii_case`. -/
def sameName (a b : List Char) : Bool := a.map Char.toLower == b.map Char.toLower

def gzipName : List Char := ['g', 'z', 'i', 'p']

def zstdName : List Char := ['z', 's', 't', 'd']

def identityName : List Char := ['i', 'd', 'e', 'n', 't', 'i', 't', 'y']

structure Weights where
  gzip : Option Nat := none
  zstd : Option Nat := none
  identity : Option Nat := none
  wildcard : Option Nat := none
  deriving DecidableEq

/-- A later entry of a coding replaces an earlier one. -/
def Weights.enter (weights : Weights) (entry : List Char × Nat) : Weights :=
  if sameName entry.1 gzipName then { weights with gzip := some entry.2 }
  else if sameName entry.1 zstdName then { weights with zstd := some entry.2 }
  else if sameName entry.1 identityName then { weights with identity := some entry.2 }
  else if entry.1 = ['*'] then { weights with wildcard := some entry.2 }
  else weights

def Weights.select (weights : Weights) : Option Coding :=
  let gzip := (weights.gzip.or weights.wildcard).getD 0
  let zstd := (weights.zstd.or weights.wildcard).getD 0
  let raw := weights.identity.getD (if weights.wildcard = some 0 then 0 else 1)
  if 0 < zstd ∧ gzip ≤ zstd ∧ raw ≤ zstd then some .zstd
  else if 0 < gzip ∧ raw ≤ gzip then some .gzip
  else if 0 < raw then some .raw
  else none

def select (header : Option String) : Option Coding :=
  match header with
  | none => some .raw
  | some header =>
      ((((header.toList.splitOn ',').take 32).map readEntry).foldl Weights.enter {}).select

/-! ## Well-formed headers -/

def isTokenChar (c : Char) : Bool := c.isAlphanum || "!#$%&'*+-.^_`|~".toList.contains c

/-- Optional white space. -/
def IsBlank (text : List Char) : Prop := ∀ c ∈ text, c = ' ' ∨ c = '\t'

/-- `qvalue`: 0 or 1 with at most three decimals, which are zeros after 1. -/
structure QValue where
  whole : Bool
  fraction : Option (List (Fin 10))
  short : ∀ digits, fraction = some digits → digits.length ≤ 3
  zeros : whole = true → ∀ digits, fraction = some digits → ∀ digit ∈ digits, digit = 0

def digitText (digit : Fin 10) : Char := Nat.digitChar digit.val

def QValue.render (value : QValue) : List Char :=
  (if value.whole then '1' else '0') ::
    (value.fraction.elim [] fun digits => '.' :: digits.map digitText)

/-- The value in thousandths. -/
def QValue.thousandths (value : QValue) : Nat :=
  if value.whole then 1000
  else value.fraction.elim 0 fun digits =>
    digits.foldl (fun n digit => n * 10 + digit.val) 0 * 10 ^ (3 - digits.length)

/-- The weight of an entry, its parameter spelled with either case. -/
structure Weight where
  upper : Bool
  value : QValue
  before : List Char
  after : List Char
  blank : IsBlank before ∧ IsBlank after

def Weight.render (weight : Weight) : List Char :=
  weight.before ++ ';' :: weight.after ++ (if weight.upper then 'Q' else 'q') :: '=' ::
    weight.value.render

/-- An element of the list: a coding with its weight. -/
structure Entry where
  name : List Char
  token : name ≠ [] ∧ ∀ c ∈ name, isTokenChar c = true
  weight : Option Weight

def Entry.render (entry : Entry) : List Char :=
  entry.name ++ entry.weight.elim [] Weight.render

/-- What stands between two commas: blanks, and an entry between them unless the element
is empty. -/
structure Element where
  before : List Char
  entry : Option Entry
  after : List Char
  blank : IsBlank before ∧ IsBlank after

def Element.render (element : Element) : List Char :=
  element.before ++ element.entry.elim [] Entry.render ++ element.after

/-- A well-formed header value of at most 32 elements. -/
structure Header where
  elements : List Element
  nonempty : elements ≠ []
  few : elements.length ≤ 32

def Header.render (header : Header) : String :=
  String.ofList ([','].intercalate (header.elements.map Element.render))

/-! ## What a header says -/

/-- A weight in thousandths, one when there is none. -/
def Entry.rating (entry : Entry) : Nat := entry.weight.elim 1000 fun weight => weight.value.thousandths

/-- A weight below one, spelled with an upper-case letter. -/
def Entry.misread (entry : Entry) : Bool :=
  entry.weight.any fun weight => weight.upper && decide (weight.value.thousandths < 1000)

def Coding.name : Coding → List Char
  | .raw => identityName
  | .gzip => gzipName
  | .zstd => zstdName

/-- The last entry that lists the name. -/
def Header.listed (header : Header) (name : List Char) : Option Entry :=
  (header.elements.filterMap (·.entry)).findRev? fun entry => sameName entry.name name

/-- The entry that decides on a coding: its own, else the wildcard. -/
def Header.deciding (header : Header) (coding : Coding) : Option Entry :=
  (header.listed coding.name).or (header.listed ['*'])

/-- The weight of a coding that is listed or covered by the wildcard. -/
def Header.rated (header : Header) (coding : Coding) : Option Nat :=
  (header.deciding coding).map Entry.rating

/-- The header refuses the coding: with weight zero, or a content coding by not allowing it. -/
def Header.Refuses (header : Header) (coding : Coding) : Prop :=
  header.rated coding = some 0 ∨ header.rated coding = none ∧ coding ≠ .raw

/-- The answer obeys the header. -/
def Header.Obeyed (header : Header) (answer : Option Coding) : Prop :=
  (∀ coding, answer = some coding → ¬ header.Refuses coding ∧
    ∀ other weight, header.rated other = some weight →
      ¬ (header.rated coding).getD 0 < weight) ∧
  (answer = none → ∀ coding, header.Refuses coding)

/-! ## The text of a header is read back -/

theorem digitText_facts : ∀ digit : Fin 10, (digitText digit).isDigit = true ∧
    (digitText digit).toNat - 48 = digit.val ∧
    (digitText digit == '0') = decide (digit = 0) ∧ digitText digit ≠ ',' ∧
    digitText digit ≠ ';' ∧ isWhitespace (digitText digit) = false := by
  decide

theorem number_digits (digits : List (Fin 10)) :
    number (digits.map digitText) =
      digits.foldl (fun n digit => n * 10 + digit.val) 0 := by
  rw [number, List.foldl_map]
  simp only [(digitText_facts _).2.1]

/-- A weight is read as what it is worth. -/
theorem quality_render (value : QValue) : quality value.render = value.thousandths := by
  unfold quality QValue.render QValue.thousandths
  cases hfraction : value.fraction with
  | none => cases value.whole <;> rfl
  | some digits =>
      have hcut : Text.cut ['.'] ((if value.whole then '1' else '0') ::
          '.' :: digits.map digitText) =
          some ([if value.whole then '1' else '0'], digits.map digitText) := by
        cases value.whole <;> simp [Text.cut]
      have hdigits : (digits.map digitText).all (·.isDigit) = true := by
        simp [(digitText_facts _).1]
      have hshort := value.short digits hfraction
      have hlength : decide (3 < (digits.map digitText).length) = false := by
        simpa using hshort
      simp only [Option.elim_some, hcut, hdigits, hlength]
      cases hwhole : value.whole with
      | true =>
          have hzeros : (digits.map digitText).all (· == '0') = true := by
            simp only [List.all_map, List.all_eq_true, Function.comp_apply]
            intro digit hdigit
            rw [(digitText_facts digit).2.2.1, value.zeros hwhole digits hfraction digit hdigit]
            rfl
          simp only [hzeros]
          rfl
      | false =>
          rw [number_digits, List.length_map]
          simp

/-- The weight the source takes an entry to have. -/
def Entry.read (entry : Entry) : Nat := if entry.misread then 1000 else entry.rating

theorem IsBlank.whitespace {text : List Char} (h : IsBlank text) :
    ∀ c ∈ text, isWhitespace c = true := by
  intro c hc
  rcases h c hc with rfl | rfl <;> decide

theorem isTokenChar_facts {c : Char} (h : isTokenChar c = true) :
    isWhitespace c = false ∧ c ≠ ';' ∧ c ≠ ',' := by
  rcases Bool.or_eq_true _ _ ▸ h with h | h
  · have hrange := isAlphanum_range h
    refine ⟨?_, ?_, ?_⟩
    · unfold isWhitespace
      simp only [Bool.or_eq_false_iff, Bool.and_eq_false_iff, decide_eq_false_iff_not,
        beq_eq_false_iff_ne]
      omega
    · rintro rfl
      revert hrange
      decide
    · rintro rfl
      revert hrange
      decide
  · have hall : "!#$%&'*+-.^_`|~".toList.all
        (fun c => !isWhitespace c && (c != ';' && c != ',')) = true := by
      decide
    have hplain := List.all_eq_true.mp hall c (List.contains_iff_mem.mp h)
    simpa only [Bool.and_eq_true, Bool.not_eq_true', bne_iff_ne] using hplain

theorem value_chars (value : QValue) :
    ∀ c ∈ value.render, isWhitespace c = false ∧ c ≠ ';' ∧ c ≠ ',' := by
  intro c hc
  rcases List.mem_cons.mp hc with rfl | hc
  · cases value.whole <;> decide
  · cases hfraction : value.fraction with
    | none =>
        rw [hfraction] at hc
        cases hc
    | some digits =>
        rw [hfraction] at hc
        rcases List.mem_cons.mp hc with rfl | hc
        · decide
        · obtain ⟨digit, -, rfl⟩ := List.mem_map.mp hc
          have hfacts := digitText_facts digit
          exact ⟨hfacts.2.2.2.2.2, hfacts.2.2.2.2.1, hfacts.2.2.2.1⟩

theorem thousandths_le (value : QValue) : value.thousandths ≤ 1000 := by
  have hbound : ∀ (digits : List (Fin 10)) (n k : Nat), n < 10 ^ k →
      digits.foldl (fun n digit => n * 10 + digit.val) n < 10 ^ (k + digits.length) := by
    intro digits
    induction digits with
    | nil => exact fun n k h => h
    | cons digit digits ih =>
        intro n k h
        rw [List.foldl_cons, List.length_cons, Nat.add_comm digits.length, ← Nat.add_assoc]
        refine ih _ (k + 1) ?_
        have := digit.isLt
        rw [Nat.pow_succ]
        omega
  unfold QValue.thousandths
  split
  · exact Nat.le_refl _
  · cases hfraction : value.fraction with
    | none => exact Nat.zero_le _
    | some digits =>
        have hshort := value.short digits hfraction
        have hlt := hbound digits 0 0 (by decide)
        rw [Nat.zero_add] at hlt
        have hpow : 10 ^ digits.length * 10 ^ (3 - digits.length) = 1000 := by
          rw [← Nat.pow_add, Nat.add_sub_cancel' hshort]
        exact hpow ▸ Nat.mul_le_mul_right _ hlt.le

theorem IsBlank.chars {text : List Char} (h : IsBlank text) : ∀ c ∈ text, c ≠ ';' ∧ c ≠ ',' := by
  intro c hc
  rcases h c hc with rfl | rfl <;> decide

theorem readEntry_blank {element : Element} (h : element.entry = none) :
    readEntry element.render = ([], 1000) := by
  have hrender : element.render = element.before ++ element.after := by
    simp [Element.render, h]
  have hblank : IsBlank element.render := by
    rw [hrender]
    exact fun c hc => (List.mem_append.mp hc).elim (element.blank.1 c) (element.blank.2 c)
  rw [readEntry, Text.splitOn_single fun hmem => (hblank.chars _ hmem).1 rfl]
  exact Prod.ext (trim_blank hblank.whitespace) rfl

/-- An element with an entry is read as its coding and the weight it is taken to have. -/
theorem readEntry_render {element : Element} {entry : Entry} (h : element.entry = some entry) :
    readEntry element.render = (entry.name, entry.read) := by
  have hname : Tight isWhitespace entry.name :=
    tight_of_forall fun c hc => (isTokenChar_facts (entry.token.2 c hc)).1
  have hsemicolon : ';' ∉ entry.name := fun hmem =>
    (isTokenChar_facts (entry.token.2 _ hmem)).2.1 rfl
  have hbefore := element.blank.1
  have hafter := element.blank.2
  have hnotBlank : ∀ {text : List Char}, IsBlank text → ';' ∉ text :=
    fun htext hmem => (htext.chars _ hmem).1 rfl
  cases hweight : entry.weight with
  | none =>
      have hrender : element.render = element.before ++ entry.name ++ element.after := by
        simp [Element.render, Entry.render, h, hweight]
      have hread : entry.read = 1000 := by simp [Entry.read, Entry.misread, Entry.rating, hweight]
      rw [readEntry, hrender, Text.splitOn_single, hread]
      · exact Prod.ext (trim_pad hbefore.whitespace hafter.whitespace hname) rfl
      · simp only [List.mem_append, not_or]
        exact ⟨⟨hnotBlank hbefore, hsemicolon⟩, hnotBlank hafter⟩
  | some weight =>
      have hvalue := value_chars weight.value
      let letter := if weight.upper then 'Q' else 'q'
      let parameter := letter :: '=' :: weight.value.render
      have hrender : element.render = (element.before ++ (entry.name ++ weight.before)) ++
          ';' :: (weight.after ++ parameter ++ element.after) := by
        simp [Element.render, Entry.render, Weight.render, h, hweight, parameter, letter]
      have hchars : ∀ c ∈ parameter, isWhitespace c = false ∧ c ≠ ';' := by
        intro c hc
        rcases List.mem_cons.mp hc with rfl | hc
        · have hletter : ∀ upper : Bool, isWhitespace (if upper then 'Q' else 'q') = false ∧
              (if upper then 'Q' else 'q') ≠ ';' := by decide
          exact hletter weight.upper
        · rcases List.mem_cons.mp hc with rfl | hc
          · decide
          · exact ⟨(hvalue c hc).1, (hvalue c hc).2.1⟩
      have hleft : ';' ∉ element.before ++ (entry.name ++ weight.before) := by
        simp only [List.mem_append, not_or]
        exact ⟨hnotBlank hbefore, hsemicolon, hnotBlank weight.blank.1⟩
      have hright : ';' ∉ weight.after ++ parameter ++ element.after := by
        simp only [List.mem_append, not_or]
        exact ⟨⟨hnotBlank weight.blank.2, fun hmem => (hchars _ hmem).2 rfl⟩, hnotBlank hafter⟩
      have htrimLeft : trim isWhitespace (element.before ++ (entry.name ++ weight.before)) =
          entry.name := by
        rw [← List.append_assoc]
        exact trim_pad hbefore.whitespace weight.blank.1.whitespace hname
      have htrimRight : trim isWhitespace (weight.after ++ parameter ++ element.after) =
          parameter :=
        trim_pad weight.blank.2.whitespace hafter.whitespace
          (tight_of_forall fun c hc => (hchars c hc).1)
      rw [readEntry, hrender, List.splitOn_append_cons_self_of_not_mem hleft,
        Text.splitOn_single hright]
      refine Prod.ext htrimLeft ?_
      simp only [List.tail_cons, List.findSome?_cons, List.findSome?_nil, htrimRight]
      have hle := thousandths_le weight.value
      cases hupper : weight.upper with
      | true =>
          have hstrip : stripWeight parameter = none := by
            simp [stripWeight, parameter, letter, hupper]
          simp only [hstrip, Option.elim_none, Entry.read, Entry.misread, Entry.rating, hweight,
            Option.any_some, hupper, Bool.true_and, decide_eq_true_eq, Option.elim_some]
          split
          · rfl
          · omega
      | false =>
          have hstrip : stripWeight parameter = some weight.value.render := by
            simp [stripWeight, parameter, letter, hupper]
          simp only [hstrip, Option.elim_some, quality_render, Entry.read, Entry.misread,
            Entry.rating, hweight, Option.any_some, hupper, Bool.false_and, Bool.false_eq_true,
            if_false]

theorem comma_notMem_render (element : Element) : ',' ∉ element.render := by
  have hblank : ∀ {text : List Char}, IsBlank text → ',' ∉ text :=
    fun htext hmem => (htext.chars _ hmem).2 rfl
  simp only [Element.render, List.mem_append, not_or]
  refine ⟨⟨hblank element.blank.1, ?_⟩, hblank element.blank.2⟩
  cases element.entry with
  | none => simp
  | some entry =>
      simp only [Option.elim_some, Entry.render, List.mem_append, not_or]
      refine ⟨fun hmem => (isTokenChar_facts (entry.token.2 _ hmem)).2.2 rfl, ?_⟩
      cases entry.weight with
      | none => simp
      | some weight =>
          simp only [Option.elim_some, Weight.render, List.mem_append, List.mem_cons, not_or]
          refine ⟨⟨hblank weight.blank.1, by decide, hblank weight.blank.2⟩, ?_, by decide,
            fun hmem => (value_chars weight.value _ hmem).2.2 rfl⟩
          cases weight.upper <;> decide

/-! ## The weights of a header -/

theorem toLower_star {c : Char} : c.toLower = '*' ↔ c = '*' :=
  toLower_eq_iff (by decide) (by decide)

theorem sameName_star {name : List Char} : sameName name ['*'] = true ↔ name = ['*'] := by
  rw [sameName, beq_iff_eq, List.map_singleton, List.map_eq_singleton_iff]
  constructor
  · rintro ⟨c, rfl, hc⟩
    rw [toLower_star.mp hc]
  · rintro rfl
    exact ⟨_, rfl, rfl⟩

theorem sameName_unique {name a b : List Char} (ha : sameName name a = true)
    (hb : sameName name b = true) : a.map Char.toLower = b.map Char.toLower := by
  rw [sameName, beq_iff_eq] at ha hb
  rw [← ha, hb]

/-- The entries of a header. -/
def Header.entries (header : Header) : List Entry := header.elements.filterMap (·.entry)

/-- The last entry of a list that has the name. -/
def lastNamed (entries : List Entry) (name : List Char) : Option Entry :=
  entries.findRev? fun entry => sameName entry.name name

theorem lastNamed_concat (entries : List Entry) (entry : Entry) (name : List Char) :
    lastNamed (entries ++ [entry]) name =
      if sameName entry.name name then some entry else lastNamed entries name := by
  simp only [lastNamed, List.findRev?_eq_find?_reverse, List.reverse_append,
    List.reverse_singleton, List.singleton_append, List.find?_cons]
  cases sameName entry.name name <;> rfl

/-- What the source has read of a list of entries. -/
def readWeights (entries : List Entry) : Weights where
  gzip := (lastNamed entries gzipName).map Entry.read
  zstd := (lastNamed entries zstdName).map Entry.read
  identity := (lastNamed entries identityName).map Entry.read
  wildcard := (lastNamed entries ['*']).map Entry.read

theorem readWeights_concat (entries : List Entry) (entry : Entry) :
    readWeights (entries ++ [entry]) =
      (readWeights entries).enter (entry.name, entry.read) := by
  have hexclusive : ∀ {a b : List Char}, a.map Char.toLower ≠ b.map Char.toLower →
      sameName entry.name a = true → sameName entry.name b = false :=
    fun hne ha => Bool.eq_false_iff.mpr fun hb => hne (sameName_unique ha hb)
  unfold readWeights Weights.enter
  simp only [lastNamed_concat, ← sameName_star]
  cases hgzip : sameName entry.name gzipName with
  | true =>
      rw [hexclusive (by decide) hgzip, hexclusive (b := identityName) (by decide) hgzip,
        hexclusive (b := ['*']) (by decide) hgzip]
      rfl
  | false =>
      cases hzstd : sameName entry.name zstdName with
      | true =>
          rw [hexclusive (by decide) hzstd, hexclusive (b := ['*']) (by decide) hzstd]
          rfl
      | false =>
          cases hidentity : sameName entry.name identityName with
          | true =>
              rw [hexclusive (by decide) hidentity]
              rfl
          | false =>
              cases sameName entry.name ['*'] <;> rfl

theorem foldl_enter_elements (elements : List Element) :
    (elements.map fun element => readEntry element.render).foldl Weights.enter {} =
      readWeights (elements.filterMap (·.entry)) := by
  induction elements using List.reverseRecOn with
  | nil => rfl
  | append_singleton elements element ih =>
      rw [List.map_append, List.foldl_append, ih, List.filterMap_append]
      cases hentry : element.entry with
      | none =>
          simp only [List.map_cons, List.map_nil, readEntry_blank hentry, List.foldl_cons,
            List.foldl_nil, List.filterMap_cons, hentry, List.filterMap_nil, List.append_nil]
          rfl
      | some entry =>
          simp only [List.map_cons, List.map_nil, readEntry_render hentry, List.foldl_cons,
            List.foldl_nil, List.filterMap_cons, hentry, List.filterMap_nil]
          exact (readWeights_concat _ _).symm

/-- The source reads the last entry of each name it knows. -/
theorem select_render (header : Header) :
    select (some header.render) = (readWeights header.entries).select := by
  have hsplit : header.render.toList.splitOn ',' = header.elements.map Element.render := by
    rw [Header.render, String.toList_ofList]
    refine List.splitOn_intercalate ',' ?_ (by simpa using header.nonempty)
    intro text htext
    obtain ⟨element, -, rfl⟩ := List.mem_map.mp htext
    exact comma_notMem_render element
  have htake : (header.elements.map Element.render).take 32 =
      header.elements.map Element.render :=
    List.take_of_length_le (by simpa using header.few)
  simp only [select]
  rw [hsplit, htake, List.map_map]
  exact congrArg Weights.select (foldl_enter_elements header.elements)

/-! ## When the answer obeys the header -/

/-- The deciding weight is one that the source takes for one although it is less. The
wildcard's does not count for the representation without a coding. -/
def Header.overrated (header : Header) (coding : Coding) : Bool :=
  (if coding = .raw then header.listed identityName else header.deciding coding).any Entry.misread

/-- The codings the source prefers at the same weight. -/
def Coding.preferred : Coding → List Coding
  | .zstd => []
  | .gzip => [.zstd]
  | .raw => [.zstd, .gzip]

/-- A preferred coding has weight one, or is taken to have it. -/
def Header.Yields (header : Header) (coding : Coding) : Prop :=
  ∃ other ∈ coding.preferred, header.rated other = some 1000 ∨ header.overrated other = true

/-- The coding has the greatest weight, which is not zero. -/
def Header.Best (header : Header) (coding : Coding) : Prop :=
  ∃ weight, header.rated coding = some weight ∧ 0 < weight ∧
    ∀ other weight', header.rated other = some weight' → weight' ≤ weight

/-- No coding wins by a misread weight, and one without a coding loses none that only the
wildcard gives it. -/
structure Header.Plain (header : Header) : Prop where
  overrated : ∀ coding, header.overrated coding = true →
    header.Yields coding ∨ header.Best coding
  covered : header.listed identityName = none → ∀ star, header.listed ['*'] = some star →
    header.Yields .raw ∨
      (star.rating ≤ (header.rated .gzip).getD 0 ∨ star.rating ≤ (header.rated .zstd).getD 0 ∨
        header.rated .gzip = some 0 ∧ header.rated .zstd = some 0) ∧
      (star.rating = 0 → header.rated .gzip = some 0 → header.rated .zstd = some 0 →
        star.misread = false)

theorem forall_coding {p : Coding → Prop} : (∀ coding, p coding) ↔ p .raw ∧ p .gzip ∧ p .zstd :=
  ⟨fun h => ⟨h _, h _, h _⟩, fun h coding => by
    cases coding
    · exact h.1
    · exact h.2.1
    · exact h.2.2⟩

theorem Entry.read_facts (entry : Entry) : entry.rating ≤ 1000 ∧
    (entry.misread = true → entry.rating < 1000) ∧
    entry.read = if entry.misread then 1000 else entry.rating := by
  refine ⟨?_, fun h => ?_, rfl⟩
  · unfold Entry.rating
    cases entry.weight with
    | none => exact Nat.le_refl _
    | some weight => exact thousandths_le weight.value
  · unfold Entry.misread at h
    unfold Entry.rating
    cases hweight : entry.weight with
    | none =>
        rw [hweight] at h
        cases h
    | some weight =>
        rw [hweight] at h
        simp only [Option.any_some, Bool.and_eq_true, decide_eq_true_eq] at h
        exact h.2

/-! ## The answer by its weights -/

/-- The source's choice between three weights. -/
def choose (zstd gzip raw : Nat) : Option Coding :=
  if 0 < zstd ∧ gzip ≤ zstd ∧ raw ≤ zstd then some .zstd
  else if 0 < gzip ∧ raw ≤ gzip then some .gzip
  else if 0 < raw then some .raw
  else none

theorem choose_cases (zstd gzip raw : Nat) :
    choose zstd gzip raw = some .zstd ∧ 0 < zstd ∧ gzip ≤ zstd ∧ raw ≤ zstd ∨
    choose zstd gzip raw = some .gzip ∧ 0 < gzip ∧ zstd < gzip ∧ raw ≤ gzip ∨
    choose zstd gzip raw = some .raw ∧ 0 < raw ∧ zstd < raw ∧ gzip < raw ∨
    choose zstd gzip raw = none ∧ zstd = 0 ∧ gzip = 0 ∧ raw = 0 := by
  unfold choose
  split
  · rename_i hzstd
    exact .inl ⟨rfl, hzstd⟩
  · split
    · refine .inr (.inl ⟨rfl, ?_⟩)
      omega
    · split
      · refine .inr (.inr (.inl ⟨rfl, ?_⟩))
        omega
      · refine .inr (.inr (.inr ⟨rfl, ?_⟩))
        omega

/-- The weight of a coding, none counting as zero. -/
def Header.weight (header : Header) (coding : Coding) : Nat := (header.rated coding).getD 0

/-- The weight that a misread parameter stands for. -/
def taken (misread : Bool) (weight : Nat) : Nat := if misread then 1000 else weight

section

variable {header : Header}

theorem refuses_gzip : header.Refuses .gzip ↔ header.weight .gzip = 0 := by
  unfold Header.Refuses Header.weight
  cases header.rated .gzip <;> simp

theorem refuses_zstd : header.Refuses .zstd ↔ header.weight .zstd = 0 := by
  unfold Header.Refuses Header.weight
  cases header.rated .zstd <;> simp

theorem refuses_raw : header.Refuses .raw ↔ header.rated .raw = some 0 := by
  simp [Header.Refuses]

variable (header) in
theorem rated_some_iff (coding : Coding) {n : Nat} (hn : 0 < n) :
    header.rated coding = some n ↔ header.weight coding = n := by
  unfold Header.weight
  cases header.rated coding <;> simp
  omega

theorem no_greater_iff (coding : Coding) :
    (∀ other weight, header.rated other = some weight →
      ¬ (header.rated coding).getD 0 < weight) ↔
      ∀ other, header.weight other ≤ header.weight coding := by
  constructor
  · intro h other
    unfold Header.weight
    cases hother : header.rated other with
    | none => exact Nat.zero_le _
    | some weight => exact Nat.le_of_not_lt (h other weight hother)
  · intro h other weight hother
    have := h other
    unfold Header.weight at this
    rw [hother] at this
    exact Nat.not_lt.mpr this

theorem best_iff {coding : Coding} : header.Best coding ↔
    0 < header.weight coding ∧ ∀ other, header.weight other ≤ header.weight coding := by
  rw [← no_greater_iff]
  unfold Header.Best Header.weight
  cases header.rated coding with
  | none => simp
  | some weight => simp

variable (header) in
/-- What decides on a content coding: its weight, and whether it is misread. -/
theorem deciding_facts (coding : Coding) (h : coding ≠ .raw) :
    header.weight coding ≤ 1000 ∧ (header.overrated coding = true → header.weight coding < 1000) ∧
      ((header.deciding coding).map Entry.read).getD 0 =
        taken (header.overrated coding) (header.weight coding) := by
  unfold Header.weight Header.rated Header.overrated taken
  rw [if_neg h]
  cases header.deciding coding with
  | none => simp
  | some entry =>
      obtain ⟨hle, hlt, hread⟩ := entry.read_facts
      exact ⟨hle, hlt, hread⟩

/-- What decides on the representation without a coding. -/
theorem raw_facts (header : Header) :
    (∃ identity, header.listed identityName = some identity ∧
      header.rated .raw = some (header.weight .raw) ∧ header.weight .raw ≤ 1000 ∧
      identity.read = taken (header.overrated .raw) (header.weight .raw)) ∨
    header.listed identityName = none ∧ header.overrated .raw = false ∧
      ((∃ star, header.listed ['*'] = some star ∧ header.rated .raw = some (header.weight .raw) ∧
        header.weight .raw = star.rating ∧ star.rating ≤ 1000 ∧
        star.read = taken star.misread star.rating) ∨
      header.listed ['*'] = none ∧ header.rated .raw = none) := by
  unfold Header.weight Header.rated Header.overrated Header.deciding
  rw [if_pos rfl]
  simp only [Coding.name]
  cases header.listed identityName with
  | some identity =>
      obtain ⟨hle, -, hread⟩ := identity.read_facts
      exact .inl ⟨identity, rfl, rfl, hle, hread⟩
  | none =>
      refine .inr ⟨rfl, rfl, ?_⟩
      cases header.listed ['*'] with
      | none => exact .inr ⟨rfl, rfl⟩
      | some star =>
          obtain ⟨hle, -, hread⟩ := star.read_facts
          exact .inl ⟨star, rfl, rfl, rfl, hle, hread⟩

/-- What the source reads of the representation without a coding. -/
def Header.readRaw (header : Header) : Nat :=
  ((header.listed identityName).map Entry.read).getD
    (if (header.listed ['*']).map Entry.read = some 0 then 0 else 1)

theorem select_eq_choose (header : Header) : select (some header.render) =
    choose (taken (header.overrated .zstd) (header.weight .zstd))
      (taken (header.overrated .gzip) (header.weight .gzip)) header.readRaw := by
  have hor : ∀ a b : Option Entry, (a.map Entry.read).or (b.map Entry.read) =
      (a.or b).map Entry.read := by
    intro a b
    cases a <;> rfl
  rw [select_render, ← (deciding_facts header .zstd (by decide)).2.2,
    ← (deciding_facts header .gzip (by decide)).2.2]
  unfold Weights.select readWeights
  simp only [hor]
  rfl

/-- The answer obeys a well-formed header exactly when the header is plain. -/
theorem select_obeyed_iff (header : Header) :
    header.Obeyed (select (some header.render)) ↔ header.Plain := by
  have hplain : header.Plain ↔ (∀ coding, header.overrated coding = true →
      header.Yields coding ∨ header.Best coding) ∧ _ :=
    ⟨fun h => ⟨h.overrated, h.covered⟩, fun h => ⟨h.1, h.2⟩⟩
  obtain ⟨hzle, hzlt, -⟩ := deciding_facts header .zstd (by decide)
  obtain ⟨hgle, hglt, -⟩ := deciding_facts header .gzip (by decide)
  have hthousand := fun coding => rated_some_iff header coding (n := 1000) (by decide)
  rw [select_eq_choose, hplain]
  unfold Header.Obeyed Header.Yields
  simp only [no_greater_iff, best_iff, forall_coding, Coding.preferred, refuses_gzip,
    refuses_zstd, refuses_raw, hthousand, List.mem_cons, List.not_mem_nil, or_false,
    exists_eq_or_imp, exists_eq_left, false_and, exists_false, false_or]
  have hchoose := choose_cases (taken (header.overrated .zstd) (header.weight .zstd))
    (taken (header.overrated .gzip) (header.weight .gzip)) header.readRaw
  rcases raw_facts header with ⟨identity, hidentity, hrated, hrle, hread⟩ |
    ⟨hidentity, hover, ⟨star, hstar, hrated, hweight, hsle, hread⟩ | ⟨hstar, hrated⟩⟩
  · have hraw : header.readRaw = taken (header.overrated .raw) (header.weight .raw) := by
      rw [Header.readRaw, hidentity, ← hread]
      rfl
    simp only [hidentity, hrated, reduceCtorEq, false_imp_iff, and_true, Option.some.injEq]
    rw [hraw] at hchoose ⊢
    generalize header.weight .zstd = z at *
    generalize header.weight .gzip = g at *
    generalize header.weight .raw = r at *
    generalize header.overrated .zstd = mz at *
    generalize header.overrated .gzip = mg at *
    generalize header.overrated .raw = mr at *
    clear hplain hthousand hread hraw hrated hidentity
    -- one case for each answer and each combination of misread weights
    rcases hchoose with ⟨hanswer, h⟩ | ⟨hanswer, h⟩ | ⟨hanswer, h⟩ | ⟨hanswer, h⟩ <;>
      rw [hanswer] <;> cases mz <;> cases mg <;> cases mr <;>
      simp [taken] at h hzlt hglt ⊢ <;> omega
  · have hraw : header.readRaw =
        if taken star.misread (header.weight .raw) = 0 then 0 else 1 := by
      rw [Header.readRaw, hidentity, hstar, Option.map_some, hread, hweight]
      simp
    have hcovered : header.rated .gzip = some (header.weight .gzip) ∧
        header.rated .zstd = some (header.weight .zstd) := by
      unfold Header.weight Header.rated Header.deciding
      rw [hstar]
      constructor <;> cases header.listed _ <;> rfl
    have hgetD : ∀ coding, (header.rated coding).getD 0 = header.weight coding := fun _ => rfl
    simp only [hidentity, hstar, hover, hrated, hcovered.1, hcovered.2, true_imp_iff,
      Option.some.injEq, forall_eq', Bool.false_eq_true, false_imp_iff, true_and]
    rw [← hweight] at hsle ⊢
    rw [hraw] at hchoose ⊢
    generalize header.weight .zstd = z at *
    generalize header.weight .gzip = g at *
    generalize header.weight .raw = r at *
    generalize header.overrated .zstd = mz at *
    generalize header.overrated .gzip = mg at *
    generalize star.misread = ms at *
    clear hplain hthousand hread hraw hrated hidentity hcovered hgetD
    rcases hchoose with ⟨hanswer, h⟩ | ⟨hanswer, h⟩ | ⟨hanswer, h⟩ | ⟨hanswer, h⟩ <;>
      rw [hanswer] <;> cases mz <;> cases mg <;> cases ms <;> by_cases hr : r = 0 <;>
      simp [taken, hr] at h hzlt hglt ⊢ <;> omega
  · have hraw : header.readRaw = 1 := by
      rw [Header.readRaw, hidentity, hstar]
      rfl
    have hnone : header.weight .raw = 0 := by
      rw [Header.weight, hrated]
      rfl
    simp only [hidentity, hstar, hover, hrated, hnone, reduceCtorEq, false_imp_iff,
      implies_true, and_true, Bool.false_eq_true, true_and]
    rw [hraw] at hchoose ⊢
    generalize header.weight .zstd = z at *
    generalize header.weight .gzip = g at *
    generalize header.overrated .zstd = mz at *
    generalize header.overrated .gzip = mg at *
    clear hplain hthousand hraw hrated hidentity hnone
    rcases hchoose with ⟨hanswer, h⟩ | ⟨hanswer, h⟩ | ⟨hanswer, h⟩ | ⟨hanswer, h⟩ <;>
      rw [hanswer] <;> cases mz <;> cases mg <;>
      simp [taken] at h hzlt hglt ⊢ <;> omega

end

theorem isBlank_nil : IsBlank [] := fun _ h => by cases h

/-- Weight zero, with an upper-case letter. -/
def refusal : Weight where
  upper := true
  value := { whole := false, fraction := none, short := by simp, zeros := by simp }
  before := []
  after := []
  blank := ⟨isBlank_nil, isBlank_nil⟩

/-- A header that refuses gzip. -/
def refusing : Header where
  elements :=
    [{ before := []
       entry := some
         { name := gzipName
           token := ⟨by decide, List.all_eq_true.mp (by decide)⟩
           weight := some refusal }
       after := [], blank := ⟨isBlank_nil, isBlank_nil⟩ }]
  nonempty := by simp
  few := by simp

/-- The refusal is not seen. -/
theorem select_refused : refusing.render = "gzip;Q=0" ∧ refusing.Refuses .gzip ∧
    select (some "gzip;Q=0") = some .gzip ∧ ¬ refusing.Obeyed (select (some "gzip;Q=0")) := by
  have hrefuses : refusing.Refuses .gzip := .inl (by decide)
  have hselect : select (some "gzip;Q=0") = some .gzip := by decide +kernel
  refine ⟨by decide +kernel, hrefuses, hselect, fun h => ?_⟩
  exact (h.1 .gzip hselect).1 hrefuses

/-- The wildcard gives the representation without a coding the greatest weight. -/
example : select (some "*, gzip;q=0.5, zstd;q=0.5") = some .zstd := by decide +kernel

end HealthMonitor.Encoding
