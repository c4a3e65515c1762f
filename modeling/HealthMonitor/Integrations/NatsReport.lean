import HealthMonitor.Integrations.LogWindow
import HealthMonitor.Library.Groups
import HealthMonitor.Library.Padding

/-!
# NATS report

The stream report of the NATS client is a table drawn in a text: a header names the
columns, and every row is a stream. The parser reads the numeric columns by the names in
the header, and takes for a header every line with a cell that is the word for the streams'
column.
-/

namespace HealthMonitor.Integrations.Nats

open Padding (isWhitespace Tight)

def bar : Char := '│'

/-! ## The source -/

/-- `str::lines`: a carriage return belongs to the line feed that follows it, and a last
line without a line feed counts unless it is empty. -/
def lines (text : List Char) : List (List Char) :=
  let pieces := text.splitOn '\n'
  (pieces.dropLast.map fun line => if line.getLast? = some '\r' then line.dropLast else line)
    ++ (pieces.getLast?.filter (· ≠ [])).toList

def identity (value : List Char) : String :=
  String.ofList ((value.filter fun c => c.isAlphanum || "-_./:@".toList.contains c).take 512)

/-- `parse::<u64>()`. -/
def parseU64 (value : List Char) : Option Nat :=
  let digits := if value.head? = some '+' then value.drop 1 else value
  if digits ≠ [] ∧ digits.all Char.isDigit ∧ Nat.ofDigitChars 10 digits 0 < 2 ^ 64 then
    some (Nat.ofDigitChars 10 digits 0)
  else none

/-- A line that starts and ends with a bar. -/
def bordered (line : List Char) : Bool :=
  line.head? == some bar && line.getLast? == some bar

def cellsOf (line : List Char) : List (List Char) :=
  ((Padding.trim (· == bar) line).splitOn bar).map (Padding.trim isWhitespace)

/-- `to_ascii_lowercase`. -/
def lower (cell : List Char) : List Char := cell.map Char.toLower

/-- `eq_ignore_ascii_case("Stream")`. -/
def namesStream (cell : List Char) : Bool := lower cell == lower "Stream".toList

def field (headers cells : List (List Char)) (name : String) :
    Except TransportError (List Char) :=
  match (headers.idxOf? name.toList).bind (cells[·]?) with
  | none => .error .malformed
  | some cell => .ok cell

def number (headers cells : List (List Char)) (name : String) : Except TransportError Nat := do
  let cell ← field headers cells name
  match parseU64 cell with
  | none => .error .malformed
  | some value => .ok value

structure Scan where
  headers : Option (List (List Char)) := none
  rows : List (String × Nat × Nat) := []

/-- A line of the table that is no header. -/
def readRow (limit : Nat) (headers cells : List (List Char)) (rows : List (String × Nat × Nat)) :
    Except TransportError (List (String × Nat × Nat)) :=
  if headers.length ≠ cells.length then .error .malformed
  else do
    let stream ← field headers cells "stream"
    let messages ← number headers cells "messages"
    let bytes ← number headers cells "bytes"
    if limit ≤ rows.length then .error .limit
    else return rows ++ [(identity stream, messages, bytes)]

def readLine (limit : Nat) (scan : Scan) (line : List Char) : Except TransportError Scan :=
  if !bordered line then .ok scan
  else
    let cells := cellsOf line
    if cells.any namesStream then .ok { scan with headers := some (cells.map lower) }
    else
      match scan.headers with
      | none => .ok scan
      | some headers => do
          let rows ← readRow limit headers cells scan.rows
          return { scan with rows }

def parseReport (text : String) (limit : Nat) :
    Except TransportError (List (String × Nat × Nat)) := do
  let scan ← (lines text.toList).foldlM (readLine limit) {}
  if scan.headers.isNone then .error .malformed else return scan.rows

/-! ## Texts -/

/-- The text of some lines, each ended by a line feed. -/
def unlines (ls : List (List Char)) : List Char := ls.flatMap fun line => line ++ ['\n']

theorem splitOn_unlines {ls : List (List Char)} (h : ∀ line ∈ ls, '\n' ∉ line) :
    (unlines ls).splitOn '\n' = ls ++ [[]] := by
  induction ls with
  | nil => rfl
  | cons line ls ih =>
      rw [List.forall_mem_cons] at h
      have hcons : unlines (line :: ls) = line ++ '\n' :: unlines ls := by
        rw [unlines, List.flatMap_cons, List.append_assoc]
        rfl
      rw [hcons, List.splitOn_append_cons_self_of_not_mem h.1, ih h.2, List.cons_append]

/-- Lines that do not end in a carriage return come back. -/
theorem lines_unlines {ls : List (List Char)}
    (h : ∀ line ∈ ls, '\n' ∉ line ∧ line.getLast? ≠ some '\r') : lines (unlines ls) = ls := by
  have hkept : ls.map (fun line => if line.getLast? = some '\r' then line.dropLast else line)
      = ls := by
    conv_rhs => rw [← List.map_id ls]
    exact List.map_congr_left fun line hline => if_neg (h line hline).2
  rw [lines, splitOn_unlines fun line hline => (h line hline).1]
  rw [List.dropLast_concat, List.getLast?_concat, hkept]
  exact List.append_nil ls

/-! ## Tables -/

/-- The content of a cell, between blanks. -/
structure Cell where
  left : List Char
  content : List Char
  right : List Char
  blankLeft : ∀ c ∈ left, isWhitespace c = true
  blankRight : ∀ c ∈ right, isWhitespace c = true
  tight : Tight isWhitespace content
  plain : bar ∉ content

def Cell.text (cell : Cell) : List Char := cell.left ++ cell.content ++ cell.right

/-- A line of a table. The cells at its ends are padded where they are empty. -/
structure Line where
  cells : List Cell
  nonempty : cells ≠ []
  first : ∀ cell ∈ cells.head?, cell.text ≠ []
  last : ∀ cell ∈ cells.getLast?, cell.text ≠ []

namespace Line

def text (line : Line) : List Char :=
  [bar] ++ [bar].intercalate (line.cells.map Cell.text) ++ [bar]

def contents (line : Line) : List (List Char) := line.cells.map Cell.content

/-- Some cell of the line is the word for the streams' column. -/
def NamesStream (line : Line) : Prop := ∃ content ∈ line.contents, lower content = "stream".toList

end Line

theorem bar_notMem_text (cell : Cell) : bar ∉ cell.text := by
  have hbar : isWhitespace bar = false := by decide
  rw [Cell.text, List.mem_append, List.mem_append, not_or, not_or]
  refine ⟨⟨fun h => ?_, cell.plain⟩, fun h => ?_⟩
  · rw [cell.blankLeft bar h] at hbar
    cases hbar
  · rw [cell.blankRight bar h] at hbar
    cases hbar

theorem trim_text (cell : Cell) : Padding.trim isWhitespace cell.text = cell.content :=
  Padding.trim_pad cell.blankLeft cell.blankRight cell.tight

section

variable (line : Line)

theorem bordered_text : bordered line.text = true := by
  rw [bordered, Line.text, Bool.and_eq_true, beq_iff_eq, beq_iff_eq]
  refine ⟨rfl, ?_⟩
  rw [List.getLast?_append]
  rfl

/-- The cells of a line of a table are read back. -/
theorem cellsOf_text : cellsOf line.text = line.contents := by
  have htight : Tight (· == bar) ([bar].intercalate (line.cells.map Cell.text)) := by
    refine Padding.tight_intercalate ?_ ?_ ?_
    · intro text htext
      obtain ⟨cell, -, rfl⟩ := List.mem_map.mp htext
      exact bar_notMem_text cell
    · intro text htext
      rw [List.head?_map] at htext
      obtain ⟨cell, hcell, rfl⟩ := Option.map_eq_some_iff.mp htext
      exact line.first cell hcell
    · intro text htext
      rw [List.getLast?_map] at htext
      obtain ⟨cell, hcell, rfl⟩ := Option.map_eq_some_iff.mp htext
      exact line.last cell hcell
  have hbar : ∀ c ∈ [bar], (c == bar) = true := by simp
  have hsplit : ([bar].intercalate (line.cells.map Cell.text)).splitOn bar
      = line.cells.map Cell.text := by
    refine List.splitOn_intercalate bar ?_ (by simpa using line.nonempty)
    intro text htext
    obtain ⟨cell, -, rfl⟩ := List.mem_map.mp htext
    exact bar_notMem_text cell
  rw [cellsOf, Line.text, Padding.trim_pad hbar hbar htight, hsplit, List.map_map, Line.contents]
  exact List.map_congr_left fun cell _ => trim_text cell

theorem namesStream_iff : line.contents.any namesStream = true ↔ line.NamesStream := by
  rw [List.any_eq_true, Line.NamesStream]
  refine exists_congr fun content => and_congr_right fun _ => ?_
  rw [namesStream, beq_iff_eq]
  exact Iff.rfl

end

/-! ## Reports -/

/-- A line of a text: part of the table, or not. -/
inductive Item where
  | border (line : List Char)
  | table (line : Line)

def Item.text : Item → List Char
  | .border line => line
  | .table line => line.text

def Item.line? : Item → Option Line
  | .border _ => none
  | .table line => some line

@[simp] theorem tables_table (line : Line) (items : List Item) :
    (Item.table line :: items).filterMap Item.line? = line :: items.filterMap Item.line? := rfl

/-- A text with a header and rows below it. Before the header there may be a title. -/
structure Report where
  preamble : List Item
  header : Line
  body : List Item
  stream : Nat
  messages : Nat
  bytes : Nat

/-- The column of a header with a name in any letter case, the only one with that name. -/
def Names (header : Line) (name : String) (column : Nat) : Prop :=
  ∀ i, header.contents[i]?.map lower = some name.toList ↔ i = column

theorem names_of_lt {header : Line} {name : String} {column : Nat}
    (hcolumn : column < header.contents.length)
    (h : ∀ i < header.contents.length,
      header.contents[i]?.map lower = some name.toList ↔ i = column) :
    Names header name column := by
  intro i
  by_cases hi : i < header.contents.length
  · exact h i hi
  · rw [List.getElem?_eq_none (not_lt.mp hi)]
    refine ⟨fun hnone => ?_, fun heq => absurd (heq ▸ hcolumn) hi⟩
    cases hnone

/-- A number as it is written in decimal digits. -/
structure Numeral (value : List Char) : Prop where
  some : value ≠ []
  digits : ∀ c ∈ value, c.isDigit = true
  bounded : Nat.ofDigitChars 10 value 0 < 2 ^ 64

namespace Report

variable (report : Report)

def rows : List Line := report.body.filterMap Item.line?

def texts : List (List Char) :=
  report.preamble.map Item.text ++ report.header.text :: report.body.map Item.text

/-- What a row says in a column. -/
def content (line : Line) (column : Nat) : List Char := line.contents[column]?.getD []

/-- The stream of a row, with its messages and its bytes. -/
def result (line : Line) : String × Nat × Nat :=
  (identity (content line report.stream), Nat.ofDigitChars 10 (content line report.messages) 0,
    Nat.ofDigitChars 10 (content line report.bytes) 0)

structure WellFormed (limit : Nat) : Prop where
  borders : ∀ line, .border line ∈ report.preamble ++ report.body → bordered line = false
  titles : ∀ line, .table line ∈ report.preamble → ¬ line.NamesStream
  stream : Names report.header "stream" report.stream
  messages : Names report.header "messages" report.messages
  bytes : Names report.header "bytes" report.bytes
  columns : ∀ row ∈ report.rows, row.cells.length = report.header.cells.length
  counts : ∀ row ∈ report.rows,
    Numeral (content row report.messages) ∧ Numeral (content row report.bytes)
  limited : report.rows.length ≤ limit

end Report

/-! ## One line -/

theorem parseU64_numeral {value : List Char} (h : Numeral value) :
    parseU64 value = some (Nat.ofDigitChars 10 value 0) := by
  have hsign : value.head? ≠ some '+' := by
    intro hhead
    have hdigit := h.digits '+' (List.mem_of_head? hhead)
    exact absurd hdigit (by decide)
  rw [parseU64, if_neg hsign, if_pos ⟨h.some, List.all_eq_true.mpr h.digits, h.bounded⟩]

theorem field_names {header row : Line} {name : String} {column : Nat}
    (hnames : Names header name column) (hlength : row.cells.length = header.cells.length) :
    field (header.contents.map lower) row.contents name = .ok (Report.content row column) := by
  have hlookup : ∀ i, (header.contents.map lower)[i]? = some name.toList ↔ i = column := by
    intro i
    rw [List.getElem?_map]
    exact hnames i
  have hcolumn : column < (header.contents.map lower).length :=
    (List.getElem?_eq_some_iff.mp ((hlookup column).mpr rfl)).1
  have hindex : (header.contents.map lower).idxOf? name.toList = some column := by
    refine List.idxOf?_eq_some_iff.mpr ⟨hcolumn, ?_, fun j hj heq => ?_⟩
    · exact (List.getElem?_eq_some_iff.mp ((hlookup column).mpr rfl)).2
    · exact hj.ne ((hlookup j).mp (List.getElem?_eq_some_iff.mpr ⟨hj.trans hcolumn, heq⟩))
  have hrow : column < row.contents.length := by
    rw [Line.contents, List.length_map] at hcolumn ⊢
    rw [List.length_map] at hcolumn
    omega
  rw [field, hindex, Option.bind_some, List.getElem?_eq_getElem hrow, Report.content,
    List.getElem?_eq_getElem hrow, Option.getD_some]

theorem number_names {header row : Line} {name : String} {column : Nat}
    (hnames : Names header name column) (hlength : row.cells.length = header.cells.length)
    (hvalue : Numeral (Report.content row column)) :
    number (header.contents.map lower) row.contents name
      = .ok (Nat.ofDigitChars 10 (Report.content row column) 0) := by
  rw [number, field_names hnames hlength]
  show (match parseU64 (Report.content row column) with
    | none => _
    | some value => _) = _
  rw [parseU64_numeral hvalue]

section

variable {limit : Nat} {scan : Scan}

theorem readLine_border {line : List Char} (h : bordered line = false) :
    readLine limit scan line = .ok scan := by
  rw [readLine, h]
  rfl

theorem readLine_header {line : Line} (h : line.NamesStream) :
    readLine limit scan line.text
      = .ok { scan with headers := some (line.contents.map lower) } := by
  rw [readLine, bordered_text, cellsOf_text]
  exact if_pos ((namesStream_iff line).mpr h)

theorem readLine_table {line : Line} (h : ¬ line.NamesStream) :
    readLine limit scan line.text
      = match scan.headers with
        | none => .ok scan
        | some headers => do
            let rows ← readRow limit headers line.contents scan.rows
            return { scan with rows } := by
  rw [readLine, bordered_text, cellsOf_text]
  exact if_neg fun hany => h ((namesStream_iff line).mp hany)

end

/-- A row adds itself below the header of its report. -/
theorem readRow_row {report : Report} {limit : Nat} (hwf : report.WellFormed limit) {row : Line}
    (hrow : row ∈ report.rows) {rows : List (String × Nat × Nat)} (hlimit : rows.length < limit) :
    readRow limit (report.header.contents.map lower) row.contents rows
      = .ok (rows ++ [report.result row]) := by
  have hlength := hwf.columns row hrow
  obtain ⟨hmessages, hbytes⟩ := hwf.counts row hrow
  have hcells : (report.header.contents.map lower).length = row.contents.length := by
    rw [List.length_map, Line.contents, Line.contents, List.length_map, List.length_map, hlength]
  rw [readRow, if_neg (not_not.mpr hcells), field_names hwf.stream hlength,
    number_names hwf.messages hlength hmessages, number_names hwf.bytes hlength hbytes]
  show (if limit ≤ rows.length then _ else _) = _
  rw [if_neg (not_le.mpr hlimit)]
  rfl

/-! ## Runs over a report -/

section

variable {limit : Nat}

theorem fold_preamble {items : List Item} {scan : Scan} (hnone : scan.headers = none)
    (hborders : ∀ line, .border line ∈ items → bordered line = false)
    (htitles : ∀ line, .table line ∈ items → ¬ line.NamesStream) :
    (items.map Item.text).foldlM (readLine limit) scan = .ok scan := by
  induction items with
  | nil => rfl
  | cons item items ih =>
      have hstep : readLine limit scan item.text = .ok scan := by
        cases item with
        | border line => exact readLine_border (hborders line List.mem_cons_self)
        | table line =>
            rw [Item.text, readLine_table (htitles line List.mem_cons_self), hnone]
      rw [List.map_cons, List.foldlM_cons, hstep]
      exact ih (fun line h => hborders line (List.mem_cons_of_mem _ h))
        fun line h => htitles line (List.mem_cons_of_mem _ h)

/-- Rows that are no headers are added one by one. -/
theorem fold_body {report : Report} (hwf : report.WellFormed limit) {items : List Item}
    {rows : List (String × Nat × Nat)}
    (hborders : ∀ line, .border line ∈ items → bordered line = false)
    (hrows : ∀ row ∈ items.filterMap Item.line?, row ∈ report.rows ∧ ¬ row.NamesStream)
    (hlimit : rows.length + (items.filterMap Item.line?).length ≤ limit) :
    (items.map Item.text).foldlM (readLine limit)
        { headers := some (report.header.contents.map lower), rows }
      = .ok { headers := some (report.header.contents.map lower)
              rows := rows ++ (items.filterMap Item.line?).map report.result } := by
  induction items generalizing rows with
  | nil =>
      rw [List.filterMap_nil, List.map_nil, List.map_nil, List.append_nil]
      rfl
  | cons item items ih =>
      have hrest : ∀ line, .border line ∈ items → bordered line = false := fun line h =>
        hborders line (List.mem_cons_of_mem _ h)
      cases item with
      | border line =>
          have hstep : readLine limit { headers := some (report.header.contents.map lower), rows }
              line = .ok { headers := some (report.header.contents.map lower), rows } :=
            readLine_border (hborders line List.mem_cons_self)
          rw [List.map_cons, List.foldlM_cons, Item.text, hstep]
          exact ih hrest hrows hlimit
      | table row =>
          rw [tables_table, List.forall_mem_cons] at hrows
          rw [tables_table, List.length_cons] at hlimit
          obtain ⟨⟨hmem, hnot⟩, hrows⟩ := hrows
          have hstep : readLine limit { headers := some (report.header.contents.map lower), rows }
              row.text = .ok { headers := some (report.header.contents.map lower)
                               rows := rows ++ [report.result row] } := by
            rw [readLine_table hnot]
            dsimp only
            rw [readRow_row hwf hmem (by omega)]
            rfl
          rw [List.map_cons, List.foldlM_cons, Item.text, hstep, tables_table,
            List.map_cons, List.append_cons rows (report.result row) (List.map report.result _)]
          refine ih hrest hrows ?_
          rw [List.length_append, List.length_singleton]
          omega

theorem length_readRow {headers cells : List (List Char)} {rows next : List (String × Nat × Nat)}
    (h : readRow limit headers cells rows = .ok next) : next.length = rows.length + 1 := by
  rw [readRow] at h
  split at h
  · cases h
  · obtain ⟨stream, -, h⟩ := Groups.bind_eq_ok h
    obtain ⟨messages, -, h⟩ := Groups.bind_eq_ok h
    obtain ⟨bytes, -, h⟩ := Groups.bind_eq_ok h
    split at h
    · cases h
    · cases h
      rw [List.length_append, List.length_singleton]

/-- The lines of a table that are no headers. -/
def plainRows (items : List Item) : List Line :=
  (items.filterMap Item.line?).filter fun line => !line.contents.any namesStream

/-- No line gives two rows, and a header gives none. -/
theorem length_fold {items : List Item} {scan next : Scan}
    (hborders : ∀ line, .border line ∈ items → bordered line = false)
    (h : (items.map Item.text).foldlM (readLine limit) scan = .ok next) :
    next.rows.length ≤ scan.rows.length + (plainRows items).length := by
  induction items generalizing scan with
  | nil =>
      cases h
      exact Nat.le_add_right _ _
  | cons item items ih =>
      rw [List.map_cons, List.foldlM_cons] at h
      obtain ⟨middle, hstep, hrest⟩ := Groups.bind_eq_ok h
      have hle := ih (fun line hline => hborders line (List.mem_cons_of_mem _ hline)) hrest
      cases item with
      | border line =>
          rw [Item.text, readLine_border (hborders line List.mem_cons_self)] at hstep
          cases hstep
          exact hle
      | table line =>
          by_cases hnames : line.NamesStream
          · rw [Item.text, readLine_header hnames] at hstep
            cases hstep
            rw [plainRows, tables_table, List.filter_cons_of_neg]
            · exact hle
            · rw [(namesStream_iff line).mpr hnames]
              exact Bool.false_ne_true
          · have hplain : (plainRows (.table line :: items)).length
                = (plainRows items).length + 1 := by
              rw [plainRows, tables_table, List.filter_cons_of_pos,
                List.length_cons, plainRows]
              rw [Bool.eq_false_iff.mpr fun hany => hnames ((namesStream_iff line).mp hany)]
              rfl
            rw [Item.text, readLine_table hnames] at hstep
            have hmiddle : middle.rows.length ≤ scan.rows.length + 1 := by
              cases hheaders : scan.headers with
              | none =>
                  rw [hheaders] at hstep
                  cases hstep
                  exact Nat.le_succ _
              | some headers =>
                  rw [hheaders] at hstep
                  obtain ⟨rows, hrows, hstep⟩ := Groups.bind_eq_ok hstep
                  cases hstep
                  exact (length_readRow hrows).le
            omega

end

/-! ## Names -/

theorem identity_eq_iff (value : List Char) :
    identity value = String.ofList value
      ↔ (∀ c ∈ value, (c.isAlphanum || "-_./:@".toList.contains c) = true)
        ∧ value.length ≤ 512 := by
  rw [identity, String.ofList_inj]
  constructor
  · intro h
    have hlength := congrArg List.length h
    rw [List.length_take] at hlength
    have hle := List.length_filter_le (fun c : Char => c.isAlphanum || "-_./:@".toList.contains c)
      value
    exact ⟨List.length_filter_eq_length_iff.mp (by omega), by omega⟩
  · rintro ⟨hplain, hlength⟩
    rw [List.filter_eq_self.mpr hplain, List.take_of_length_le hlength]

/-! ## Parsing a report -/

section

variable {report : Report} {text : String} {limit : Nat}

theorem header_namesStream (hwf : report.WellFormed limit) : report.header.NamesStream := by
  obtain ⟨content, hcontent, hlower⟩ := Option.map_eq_some_iff.mp
    ((hwf.stream report.stream).mpr rfl)
  exact ⟨content, List.mem_of_getElem? hcontent, hlower⟩

/-- What comes before the header is passed over. -/
theorem fold_texts (hwf : report.WellFormed limit) :
    report.texts.foldlM (readLine limit) {}
      = (report.body.map Item.text).foldlM (readLine limit)
          { headers := some (report.header.contents.map lower), rows := [] } := by
  have hpreamble : (report.preamble.map Item.text).foldlM (readLine limit) {} = .ok {} :=
    fold_preamble rfl (fun line h => hwf.borders line (List.mem_append_left _ h)) hwf.titles
  have hheader : readLine limit {} report.header.text
      = .ok { headers := some (report.header.contents.map lower), rows := [] } :=
    readLine_header (header_namesStream hwf)
  rw [Report.texts, List.foldlM_append, hpreamble]
  show (report.header.text :: report.body.map Item.text).foldlM (readLine limit) {} = _
  rw [List.foldlM_cons, hheader]
  rfl

theorem parse_plain (hwf : report.WellFormed limit) (htext : lines text.toList = report.texts)
    (hplain : ∀ row ∈ report.rows, ¬ row.NamesStream) :
    parseReport text limit = .ok (report.rows.map report.result) := by
  have hbody := @fold_body limit report hwf report.body []
    (fun line h => hwf.borders line (List.mem_append_right _ h))
    (fun row h => ⟨h, hplain row h⟩) (by rw [List.length_nil, Nat.zero_add]; exact hwf.limited)
  rw [parseReport, htext, fold_texts hwf, hbody]
  rfl

/-- Every row that is taken for a header is missing from what is returned. -/
theorem plain_of_length (hwf : report.WellFormed limit)
    (htext : lines text.toList = report.texts) {rows : List (String × Nat × Nat)}
    (hparse : parseReport text limit = .ok rows) (hlength : rows.length = report.rows.length) :
    ∀ row ∈ report.rows, ¬ row.NamesStream := by
  rw [parseReport, htext, fold_texts hwf] at hparse
  obtain ⟨scan, hscan, hparse⟩ := Groups.bind_eq_ok hparse
  split at hparse
  · cases hparse
  · cases hparse
    have hle := length_fold (fun line h => hwf.borders line (List.mem_append_right _ h)) hscan
    rw [List.length_nil, Nat.zero_add, hlength, plainRows] at hle
    have hall := List.length_filter_eq_length_iff.mp
      (le_antisymm (List.length_filter_le _ _) hle)
    intro row hrow hnames
    have hnot := hall row hrow
    rw [(namesStream_iff row).mpr hnames] at hnot
    cases hnot

/-- The rows of a report are returned if and only if none of their cells is the word for
the streams' column, and under their own names if these are not changed. -/
theorem parse_report_iff (hwf : report.WellFormed limit)
    (htext : lines text.toList = report.texts) :
    (parseReport text limit = .ok (report.rows.map report.result)
      ↔ ∀ row ∈ report.rows, ¬ row.NamesStream)
    ∧ (parseReport text limit = .ok (report.rows.map fun row =>
          (String.ofList (Report.content row report.stream), (report.result row).2))
      ↔ (∀ row ∈ report.rows, ¬ row.NamesStream)
        ∧ ∀ row ∈ report.rows,
          (∀ c ∈ Report.content row report.stream,
            (c.isAlphanum || "-_./:@".toList.contains c) = true)
          ∧ (Report.content row report.stream).length ≤ 512) := by
  constructor
  · exact ⟨fun h => plain_of_length hwf htext h (List.length_map _), parse_plain hwf htext⟩
  · constructor
    · intro h
      have hplain := plain_of_length hwf htext h (List.length_map _)
      refine ⟨hplain, fun row hrow => (identity_eq_iff _).mp ?_⟩
      rw [parse_plain hwf htext hplain, Except.ok.injEq] at h
      exact congrArg Prod.fst (List.map_inj_left.mp h row hrow)
    · rintro ⟨hplain, hnames⟩
      rw [parse_plain hwf htext hplain, Except.ok.injEq]
      refine List.map_congr_left fun row hrow => Prod.ext ?_ rfl
      exact (identity_eq_iff _).mpr (hnames row hrow)

end

/-! ## A report of two streams -/

namespace Sample

def cell (content : String)
    (h : content.toList.all (fun c => !isWhitespace c && c != bar) = true := by decide) :
    Cell where
  left := [' ']
  content := content.toList
  right := [' ']
  blankLeft := List.all_eq_true.mp rfl
  blankRight := List.all_eq_true.mp rfl
  tight := Padding.tight_of_forall fun c hc => by
    have hplain := List.all_eq_true.mp h c hc
    simp only [Bool.and_eq_true, Bool.not_eq_true'] at hplain
    exact hplain.1
  plain hmem := by
    have hplain := List.all_eq_true.mp h bar hmem
    simp at hplain

def line (first : Cell) (rest : List Cell) (h : ∀ cell ∈ first :: rest, cell.text ≠ []) :
    Line where
  cells := first :: rest
  nonempty := List.cons_ne_nil first rest
  first cell hcell := h cell (List.mem_of_head? hcell)
  last cell hcell := h cell (List.mem_of_getLast? hcell)

/-- The columns are not in the usual order. -/
def header : Line := line (cell "Bytes") [cell "Stream", cell "Messages"] (by decide)

def songs : Line := line (cell "2048") [cell "SONGS", cell "17"] (by decide)

def lyrics : Line := line (cell "0") [cell "lyrics.eu", cell "4"] (by decide)

/-- A stream with the name of its column. -/
def stream : Line := line (cell "100") [cell "STREAM", cell "3"] (by decide)

def report (rows : List Line) : Report where
  preamble := [.border "╭───────┬────────┬──────────╮".toList]
  header := header
  body := .border "├───────┼────────┼──────────┤".toList :: rows.map .table
  stream := 1
  messages := 2
  bytes := 0

theorem rows_report (rows : List Line) : (report rows).rows = rows := by
  have hrows : (rows.map Item.table).filterMap Item.line? = rows := by
    rw [List.filterMap_map]
    exact List.filterMap_some
  exact hrows

theorem names_header :
    Names header "stream" 1 ∧ Names header "messages" 2 ∧ Names header "bytes" 0 :=
  ⟨names_of_lt (by decide) (by decide), names_of_lt (by decide) (by decide),
    names_of_lt (by decide) (by decide)⟩

theorem wellFormed {rows : List Line} (hlength : ∀ row ∈ rows, row.cells.length = 3)
    (hcounts : ∀ row ∈ rows, Numeral (Report.content row 2) ∧ Numeral (Report.content row 0))
    (hlimit : rows.length ≤ 10) : (report rows).WellFormed 10 where
  borders line hline := by
    obtain hfirst | hsecond : line = "╭───────┬────────┬──────────╮".toList
        ∨ line = "├───────┼────────┼──────────┤".toList := by
      simpa [report] using hline
    · rw [hfirst]
      decide
    · rw [hsecond]
      decide
  titles line hline := by
    simp [report] at hline
  stream := names_header.1
  messages := names_header.2.1
  bytes := names_header.2.2
  columns row hrow := hlength row (rows_report rows ▸ hrow)
  counts row hrow := hcounts row (rows_report rows ▸ hrow)
  limited := (rows_report rows).symm ▸ hlimit

theorem wellFormed_songs : (report [songs, lyrics]).WellFormed 10 := by
  refine wellFormed (by decide) (fun row hrow => ?_) (by decide)
  obtain rfl | rfl : row = songs ∨ row = lyrics := by simpa using hrow
  · exact ⟨⟨by decide, List.all_eq_true.mp rfl, by decide⟩,
      ⟨by decide, List.all_eq_true.mp rfl, by decide⟩⟩
  · exact ⟨⟨by decide, List.all_eq_true.mp rfl, by decide⟩,
      ⟨by decide, List.all_eq_true.mp rfl, by decide⟩⟩

theorem wellFormed_stream : (report [stream]).WellFormed 10 := by
  refine wellFormed (by decide) (fun row hrow => ?_) (by decide)
  rw [List.mem_singleton.mp hrow]
  exact ⟨⟨by decide, List.all_eq_true.mp rfl, by decide⟩,
    ⟨by decide, List.all_eq_true.mp rfl, by decide⟩⟩

end Sample

open Sample in
/-- Two streams of a report whose columns are in another order. -/
theorem parse_report_iff_songs :
    parseReport (String.ofList (unlines (report [songs, lyrics]).texts)) 10
      = .ok [("SONGS", 17, 2048), ("lyrics.eu", 4, 0)] := by
  have htext : lines (String.ofList (unlines (report [songs, lyrics]).texts)).toList
      = (report [songs, lyrics]).texts := by
    rw [String.toList_ofList]
    exact lines_unlines (by decide)
  refine (parse_report_iff wellFormed_songs htext).1.mpr fun row hrow => ?_
  rw [rows_report] at hrow
  obtain rfl | rfl : row = songs ∨ row = lyrics := by simpa using hrow
  all_goals
    rintro ⟨content, hcontent, hlower⟩
    revert content
    decide

open Sample in
/-- The only row of a report is taken for its header. -/
theorem stream_lost :
    ∃ text, (report [stream]).WellFormed 10 ∧ lines text.toList = (report [stream]).texts
      ∧ (report [stream]).rows.map (report [stream]).result = [("STREAM", 3, 100)]
      ∧ parseReport text 10 = .ok [] := by
  have htext : lines (String.ofList (unlines (report [stream]).texts)).toList
      = (report [stream]).texts := by
    rw [String.toList_ofList]
    exact lines_unlines (by decide)
  have hnames : stream.NamesStream := ⟨"STREAM".toList, by decide, by decide⟩
  refine ⟨_, wellFormed_stream, htext, rfl, ?_⟩
  rw [parseReport, htext, fold_texts wellFormed_stream]
  show (do
    let scan ← ["├───────┼────────┼──────────┤".toList, stream.text].foldlM (readLine 10) _
    if scan.headers.isNone then .error .malformed else return scan.rows) = _
  rw [List.foldlM_cons, readLine_border (by decide)]
  show (do
    let scan ← [stream.text].foldlM (readLine 10) _
    if scan.headers.isNone then .error .malformed else return scan.rows) = _
  rw [List.foldlM_cons, readLine_header hnames]
  rfl

end HealthMonitor.Integrations.Nats
