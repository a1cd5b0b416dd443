set_option autoImplicit false

/-!
# Text: decimal numbers

Reading a number as a person writes one on a command line or in a settings file: ASCII digits, at
least one, with at most one plus sign in front.  No blank, no minus sign and no separator is let
through, and leading zeros are.  `readWord?` adds the bound of a 64-bit word.
-/

namespace TapeMachine.Text.Decimal

/-- The value of an ASCII digit. -/
def digit? (c : Char) : Option Nat :=
  if '0' ≤ c ∧ c ≤ '9' then some (c.toNat - '0'.toNat) else none

/-- The value of a row of digits that follows digits worth `value`. -/
def continue? (value : Nat) : List Char → Option Nat
  | [] => some value
  | c :: text => (digit? c).bind fun d => continue? (10 * value + d) text

/-- The value of a row of at least one digit. -/
def digits? : List Char → Option Nat
  | [] => none
  | c :: text => continue? 0 (c :: text)

/-- The value of a number with at most one plus sign in front. -/
def read? : List Char → Option Nat
  | '+' :: text => digits? text
  | text => digits? text

/-- The value of a number that fits in a 64-bit word. -/
def readWord? (text : List Char) : Option UInt64 :=
  (read? text).bind fun n => if n < UInt64.size then some (UInt64.ofNat n) else none

example : readWord? "+007".toList = some 7 := by decide

example : readWord? "18446744073709551616".toList = none := by decide

@[simp] theorem continue?_nil (value : Nat) : continue? value [] = some value := rfl

theorem continue?_append (value : Nat) (a b : List Char) :
    continue? value (a ++ b) = (continue? value a).bind fun v => continue? v b := by
  induction a generalizing value with
  | nil => rfl
  | cons c a ih =>
    simp only [List.cons_append, continue?, Option.bind_assoc]
    congr 1
    funext d
    exact ih _

end TapeMachine.Text.Decimal
