import TapeMachine.Text.Quoted
set_option autoImplicit false

/-!
# Trace: actions

What one executed instruction did, with the numbers that a reader of the trace is told, and the
sentence it is told in.
-/

namespace TapeMachine

/-- What an executed instruction did. -/
inductive Action
  /-- The pointer moved to this index. -/
  | moved (index : Nat)
  /-- The pointer was at the left end and stayed there. -/
  | stayed
  /-- The cell at this index was raised. -/
  | incremented (index : Nat) (before after : UInt8)
  /-- The cell at this index was lowered. -/
  | decremented (index : Nat) (before after : UInt8)
  /-- This byte was appended to the output. -/
  | put (value : UInt8)
  /-- This byte was stored by a read, after which `position` input bytes have been consumed. -/
  | got (position : Nat) (value : UInt8)
  /-- The loop was skipped. -/
  | skipped (target : Nat)
  /-- The loop was entered, governed by the cell at this index. -/
  | entered (index : Nat)
  /-- A closing bracket without a partner was passed over. -/
  | stray
  /-- The loop was repeated, since the cell at this index holds this value. -/
  | repeated (index : Nat) (value : UInt8) (target : Nat)
  /-- The loop was left, since the cell at this index is zero. -/
  | left (index : Nat)
  deriving DecidableEq, Repr, Inhabited

/-- The action in words. -/
def Action.text : Action → String
  | moved index => s!"Moved pointer head to index {index}"
  | stayed => "Pointer already at index 0; unchanged"
  | incremented index before after =>
    s!"Increment cell[{index}] from {before.toNat} to {after.toNat}"
  | decremented index before after =>
    s!"Decrement cell[{index}] from {before.toNat} to {after.toNat}"
  | put value => s!"Output byte {value.toNat} (" ++ String.ofList (Text.Quoted.byte value) ++ ")"
  | got position value => s!"Read input byte #{position} -> {value.toNat}"
  | skipped target => s!"Cell is 0; skip loop to IP {target}"
  | entered index => s!"Enter loop on cell[{index}]"
  | stray => "Unmatched ']'; ignored"
  | repeated index value target =>
    s!"cell[{index}] = {value.toNat}; repeat loop from IP {target}"
  | left index => s!"Exit loop (cell[{index}] is 0)"

end TapeMachine
