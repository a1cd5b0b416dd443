import TapeMachine.Instruction
import TapeMachine.Trace.Action
set_option autoImplicit false

/-!
# Trace: rows

One line of the trace table for each executed instruction.  The columns are separated by bars and
padded on the right, so that small numbers line up; a number wider than its column makes the column
wider and is never cut.  Pointer and cell are those from before the instruction.
-/

namespace TapeMachine

/-- What the trace says about one executed instruction. -/
structure Row where
  /-- The index of the instruction in the program. -/
  ip : Nat
  /-- The pointer before the instruction. -/
  pointer : Nat
  /-- The value under the pointer before the instruction. -/
  cell : UInt8
  instruction : Instruction
  action : Action
  deriving DecidableEq, Repr, Inhabited

namespace Row

/-- The text with blanks on the right up to `width` characters. -/
def padded (width : Nat) (text : String) : String :=
  text ++ String.ofList (List.replicate (width - text.length) ' ')

/-- The line for this row, after `step` completed instructions. -/
def line (step : Nat) (r : Row) : String :=
  padded 4 (toString step) ++ " | " ++ padded 3 (toString r.ip) ++ " | " ++
    padded 3 (toString r.pointer) ++ " | " ++ padded 4 (toString r.cell.toNat) ++ " |  " ++
    r.instruction.char.toString ++ "    | " ++ r.action.text

/-- The names of the columns. -/
def headings : String := "STEP | IP  | PTR | CELL | INSTR | ACTION"

/-- The line between the names of the columns and the rows. -/
def ruler : String :=
  "-----+-----+-----+------+-------+------------------------------------------------"

example : line 0 ⟨0, 0, 0, .increment, .incremented 0 0 1⟩
    = "0    | 0   | 0   | 0    |  +    | Increment cell[0] from 0 to 1" := by decide +kernel

end Row

end TapeMachine
