set_option autoImplicit false

/-!
# Bracket: the nesting scan

Where a loop ends, found by reading on from its body.  `loopEnd?` counts the loops that open on the
way: an opening bracket raises the count, a closing one lowers it, and the closing bracket that finds
the count at zero is the end.  Every other character is passed over.

The scan looks at one loop and knows nothing of the text before it; `TapeMachine.Bracket.Pairing`
computes all partners in one pass instead.
-/

namespace TapeMachine.Bracket

/-- The distance from the start of `text` to the bracket that closes a loop whose body is `text`,
when `depth` inner loops are open at the start. -/
def loopEndFrom (depth : Nat) : List Char → Option Nat
  | [] => none
  | c :: text =>
    if c = '[' then (loopEndFrom (depth + 1) text).map (· + 1)
    else if c = ']' then
      match depth with
      | 0 => some 0
      | depth + 1 => (loopEndFrom depth text).map (· + 1)
    else (loopEndFrom depth text).map (· + 1)

/-- The distance from the start of a loop's body to the bracket that closes the loop; nothing if the
loop is never closed. -/
def loopEnd? (body : List Char) : Option Nat := loopEndFrom 0 body

@[simp] theorem loopEndFrom_nil (d : Nat) : loopEndFrom d [] = none := rfl

@[simp] theorem loopEndFrom_open (d : Nat) (text : List Char) :
    loopEndFrom d ('[' :: text) = (loopEndFrom (d + 1) text).map (· + 1) := by
  simp [loopEndFrom]

@[simp] theorem loopEndFrom_close_zero (text : List Char) :
    loopEndFrom 0 (']' :: text) = some 0 := by
  simp [loopEndFrom]

@[simp] theorem loopEndFrom_close_succ (d : Nat) (text : List Char) :
    loopEndFrom (d + 1) (']' :: text) = (loopEndFrom d text).map (· + 1) := by
  simp [loopEndFrom]

theorem loopEndFrom_other {c : Char} (ho : c ≠ '[') (hc : c ≠ ']') (d : Nat) (text : List Char) :
    loopEndFrom d (c :: text) = (loopEndFrom d text).map (· + 1) := by
  simp [loopEndFrom, ho, hc]

end TapeMachine.Bracket
