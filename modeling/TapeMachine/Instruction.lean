set_option autoImplicit false

/-!
# Instruction

The eight instructions and their characters.  Every other character of a program is a comment.
`ofChar?_eq_some_iff` says that reading a character and writing an instruction are inverse to each
other, so no two instructions share a character.
-/

namespace TapeMachine

/-- One of the eight instructions. -/
inductive Instruction
  /-- Move the pointer to the right. -/
  | right
  /-- Move the pointer to the left. -/
  | left
  /-- Add one to the current cell. -/
  | increment
  /-- Take one from the current cell. -/
  | decrement
  /-- Append the current cell to the output. -/
  | put
  /-- Store the next input byte in the current cell. -/
  | get
  /-- Enter the loop, or skip it if the current cell is zero. -/
  | enter
  /-- Repeat the loop, or leave it if the cell it was entered on is zero. -/
  | again
  deriving DecidableEq, Repr, Inhabited

namespace Instruction

/-- The character an instruction is written as. -/
def char : Instruction → Char
  | right => '>'
  | left => '<'
  | increment => '+'
  | decrement => '-'
  | put => '.'
  | get => ','
  | enter => '['
  | again => ']'

/-- The instruction that a character stands for; nothing for a comment. -/
def ofChar? (c : Char) : Option Instruction :=
  match c with
  | '>' => some right
  | '<' => some left
  | '+' => some increment
  | '-' => some decrement
  | '.' => some put
  | ',' => some get
  | '[' => some enter
  | ']' => some again
  | _ => none

@[simp] theorem ofChar?_char (i : Instruction) : ofChar? i.char = some i := by
  cases i <;> rfl

theorem ofChar?_eq_some_iff {c : Char} {i : Instruction} : ofChar? c = some i ↔ c = i.char := by
  constructor
  · intro h
    simp only [ofChar?] at h
    split at h <;> simp_all [char] <;> (subst h; rfl)
  · rintro rfl
    exact ofChar?_char i

theorem char_injective {i j : Instruction} (h : i.char = j.char) : i = j := by
  have := congrArg ofChar? h
  simpa using this

end Instruction

end TapeMachine
