import TapeMachine.Proofs.Text.Printed
import TapeMachine.Proofs.Trace.Lines
set_option autoImplicit false

/-!
# Trace: reading a table back

A row is one line, whatever was put out, and its numbers are found again in it: the line is cut at its
first five bars and blanks are trimmed.  Columns that are wider than usual make no difference, and
neither do bars and blanks in the sentence behind the fifth bar.

Main statements: the columns of a line are those of its row (`Columns.read?_line`), the text of a table
falls into its lines (`pieces_table`), and so a sink that has taken a table holds its columns
(`Fresh.holds_table`).
-/

namespace TapeMachine

/-- The first `count` fields of the text, each of which ends at a separator. -/
def Text.fields? (sep : Char) : Nat → List Char → Option (List (List Char))
  | 0, _ => some []
  | count + 1, text =>
    (cutAt? sep text).bind fun cut => (fields? sep count cut.2).map fun others => cut.1 :: others

namespace Row

/-- What a reader of the trace learns from one line of it, the sentence in words apart. -/
structure Columns where
  step : Nat
  ip : Nat
  pointer : Nat
  cell : Nat
  instruction : Char
  deriving DecidableEq, Repr, Inhabited

/-- The columns of this row, after `step` completed instructions. -/
def columns (step : Nat) (r : Row) : Columns :=
  ⟨step, r.ip, r.pointer, r.cell.toNat, r.instruction.char⟩

/-- Reads a line: numbers in the first four fields, one character in the fifth. -/
def Columns.read? (line : List Char) : Option Columns :=
  match Text.fields? '|' 5 line with
  | some [step, ip, pointer, cell, instruction] => do
    let step ← Text.Decimal.read? (Text.trim step)
    let ip ← Text.Decimal.read? (Text.trim ip)
    let pointer ← Text.Decimal.read? (Text.trim pointer)
    let cell ← Text.Decimal.read? (Text.trim cell)
    match Text.trim instruction with
    | [c] => some ⟨step, ip, pointer, cell, c⟩
    | _ => none
  | _ => none

/-- The blanks that follow this number in a column of `width` characters, one in front of the bar
included. -/
def gap (width n : Nat) : Nat := width - (Nat.toDigits 10 n).length + 1

end Row

/-- What a sink has taken is a table with these columns: two lines of head and one line for each row,
all of them ended. -/
def Sink.Holds (s : Sink) (columns : List Row.Columns) : Prop :=
  ∃ (text : String) (lines : List (List Char)), s.written = text.toUTF8 ∧
    Text.pieces '\n' text.toList =
      Row.headings.toList :: Row.ruler.toList :: (lines ++ [[]]) ∧
    lines.map Row.Columns.read? = columns.map some

/-! ## Lines -/

theorem Text.fields?_append {sep : Char} {a : List Char} (h : sep ∉ a) (count : Nat)
    (b : List Char) :
    fields? sep (count + 1) (a ++ sep :: b) =
      (fields? sep count b).map fun others => a :: others := by
  rw [fields?, cutAt?_append h]
  rfl

/-- Whatever byte was put out, what is said about it stays on the line. -/
theorem Action.newline_notMem_text (a : Action) : '\n' ∉ a.text.toList := by
  have hdigits (n : Nat) : '\n' ∉ Nat.toDigits 10 n :=
    Text.Decimal.notMem_toDigits (c := '\n') (by decide) n
  have hbyte (b : UInt8) : '\n' ∉ Text.Quoted.byte b := Text.Quoted.newline_notMem_byte b
  unfold text
  cases a <;> simp [hdigits, hbyte] <;> decide

namespace Row

/-- A line is its columns with bars in between. -/
theorem toList_line (step : Nat) (r : Row) : (r.line step).toList =
    Text.column 0 (Nat.toDigits 10 step) (gap 4 step) ++ '|' ::
    (Text.column 1 (Nat.toDigits 10 r.ip) (gap 3 r.ip) ++ '|' ::
    (Text.column 1 (Nat.toDigits 10 r.pointer) (gap 3 r.pointer) ++ '|' ::
    (Text.column 1 (Nat.toDigits 10 r.cell.toNat) (gap 4 r.cell.toNat) ++ '|' ::
    (Text.column 2 [r.instruction.char] 4 ++ '|' :: ' ' :: r.action.text.toList)))) := by
  have hlength (n : Nat) : n.repr.length = (Nat.toDigits 10 n).length := by
    rw [← Nat.toList_repr, String.length_toList]
  have hgap (width n : Nat) : List.replicate (gap width n) ' ' =
      List.replicate (width - (Nat.toDigits 10 n).length) ' ' ++ [' '] := List.replicate_succ'
  simp [line, padded, Text.column, hlength, hgap, List.replicate]

theorem notMem_number {c : Char} (hblank : c ≠ ' ') (hdigit : c.isDigit = false)
    (before n behind : Nat) : c ∉ Text.column before (Nat.toDigits 10 n) behind :=
  Text.notMem_column hblank (Text.Decimal.notMem_toDigits hdigit n) before behind

theorem read?_number (before n behind : Nat) :
    Text.Decimal.read? (Text.trim (Text.column before (Nat.toDigits 10 n) behind)) = some n := by
  rw [Text.trim_column before behind fun c hc => Text.Decimal.isBlank_of_mem_toDigits hc,
    Text.Decimal.read?_toDigits]

/-- No line contains a newline. -/
theorem newline_notMem_line (step : Nat) (r : Row) : '\n' ∉ (r.line step).toList := by
  have hnumber := notMem_number (c := '\n') (by decide) (by decide)
  have hchar : '\n' ∉ Text.column 2 [r.instruction.char] 4 := by
    cases r.instruction <;> decide
  simp [toList_line, hnumber, hchar, r.action.newline_notMem_text]

/-- What is read in a line is what the row says, however wide its numbers are. -/
theorem Columns.read?_line (step : Nat) (r : Row) :
    read? (r.line step).toList = some (r.columns step) := by
  have hnumber := notMem_number (c := '|') (by decide) (by decide)
  have hchar : '|' ∉ Text.column 2 [r.instruction.char] 4 := by
    cases r.instruction <;> decide
  have htrim : Text.trim (Text.column 2 [r.instruction.char] 4) = [r.instruction.char] := by
    cases r.instruction <;> decide
  have hfields : Text.fields? '|' 5 (r.line step).toList = some
      [Text.column 0 (Nat.toDigits 10 step) (gap 4 step),
        Text.column 1 (Nat.toDigits 10 r.ip) (gap 3 r.ip),
        Text.column 1 (Nat.toDigits 10 r.pointer) (gap 3 r.pointer),
        Text.column 1 (Nat.toDigits 10 r.cell.toNat) (gap 4 r.cell.toNat),
        Text.column 2 [r.instruction.char] 4] := by
    rw [toList_line, Text.fields?_append (hnumber _ _ _), Text.fields?_append (hnumber _ _ _),
      Text.fields?_append (hnumber _ _ _), Text.fields?_append (hnumber _ _ _),
      Text.fields?_append hchar]
    rfl
  simp only [read?, hfields, read?_number, htrim, Option.bind_eq_bind, Option.bind_some]
  rfl

example : Columns.read? (line 12345 ⟨7, 1000, 124, .put, .put 124⟩).toList =
    some ⟨12345, 7, 1000, 124, '.'⟩ := by decide +kernel

/-! ## Tables -/

/-- No line of a table contains a newline. -/
theorem newline_notMem_table (rows : List Row) : ∀ line ∈ table rows, '\n' ∉ line.toList := by
  intro line hline
  simp only [table, List.mem_cons] at hline
  rcases hline with rfl | rfl | hline
  · decide
  · decide
  · obtain ⟨step, hstep, rfl⟩ := List.mem_mapIdx.1 hline
    exact newline_notMem_line step rows[step]

/-- The text of a table is its lines, each of which is ended once. -/
theorem pieces_table (rows : List Row) : Text.pieces '\n' (Text.ofLines (table rows)).toList =
    (table rows).map String.toList ++ [[]] := by
  have hlines : ∀ line ∈ (table rows).map String.toList, '\n' ∉ line := by
    intro line hline
    obtain ⟨text, htext, rfl⟩ := List.mem_map.1 hline
    exact newline_notMem_table rows text htext
  rw [Text.ofLines, String.toList_ofList, ← Text.pieces_lines hlines, List.flatMap_map]

/-- The rows of a table are read back in their order. -/
theorem map_read?_lines (rows : List Row) :
    ((rows.mapIdx line).map String.toList).map Columns.read? = (rows.mapIdx columns).map some := by
  apply List.ext_getElem?
  intro step
  simp only [List.getElem?_map, List.getElem?_mapIdx, Option.map_map]
  refine Option.map_congr fun r _ => ?_
  simp only [Function.comp_apply, Columns.read?_line]

end Row

/-- A sink that has taken a table holds the columns of its rows. -/
theorem Sink.Fresh.holds_table {s : Sink} (h : s.Fresh) (rows : List Row) :
    (s.after (Row.table rows)).Holds (rows.mapIdx Row.columns) :=
  ⟨_, _, h.written_after _, Row.pieces_table rows, Row.map_read?_lines rows⟩

end TapeMachine
