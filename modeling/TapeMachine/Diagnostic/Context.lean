import TapeMachine.Diagnostic.Style
import TapeMachine.Fault
import TapeMachine.Text.Slice
set_option autoImplicit false

/-!
# Diagnostic: context

A fault that points at a place is shown with a part of the program around the place and a caret under
it.  The part reaches `reach` characters to either side, is cut short by the ends of the program, and
is taken from the UTF-8 form of the program between two byte offsets.

Positions are 64-bit words.  `windowStop?` has no answer where the end of the part is not such a word,
and then there is nothing to show; `window?_eq_some` says which part is shown for every other position.
-/

namespace TapeMachine.Diagnostic

/-- How many characters are shown on either side of the place. -/
def reach : Nat := 32

/-- The index of the first character that is shown. -/
def windowStart (pos : Nat) : Nat := pos - reach

/-- The index after the last character that is shown, of a program of `length` characters. -/
def windowStop? (pos length : Nat) : Option Nat :=
  if pos + reach + 1 < UInt64.size then some (min (pos + reach + 1) length) else none

/-- The characters that are shown. -/
def window? (code : List Char) (pos : Nat) : Option (List Char) :=
  (windowStop? pos code.length).bind fun stop =>
    Text.slice? code (Text.byteOffset code (windowStart pos)) (Text.byteOffset code stop)

/-- What is shown about a place in a program. -/
structure Context where
  /-- What is wrong, and where. -/
  headline : String
  /-- The part of the program around the place. -/
  excerpt : String
  /-- How many characters of the excerpt stand before the place. -/
  column : Nat
  deriving DecidableEq, Repr, Inhabited

/-- What is shown about the place `pos` in a program, under a line that starts with `lead`. -/
def context? (lead : String) (code : List Char) (pos : Nat) : Option Context :=
  (window? code pos).map fun window =>
    ⟨s!"{lead} at instruction {pos}", String.ofList window, pos - windowStart pos⟩

namespace Context

/-- The caret with the blanks before it. -/
def caretLine (c : Context) : String := String.ofList (List.replicate c.column ' ' ++ ['^'])

/-- The three lines of the context, in colours if `styled`. -/
def render (styled : Bool) (c : Context) : String :=
  if styled then
    Style.headline.paint c.headline ++ "\n  " ++ Style.excerpt.paint c.excerpt ++ "\n  " ++
      Style.caret.paint c.caretLine ++ "\n"
  else c.headline ++ "\n  " ++ c.excerpt ++ "\n  " ++ c.caretLine ++ "\n"

end Context

/-- The fault as a user is shown it, with its place in the program if it has one. -/
def describe? (program : Option String) (code : List Char) (fault : Fault) : Option String :=
  match fault.instruction? with
  | some ip => (context? (fault.headline program) code ip).map (Context.render false)
  | none => some (fault.headline program ++ "\n")

/-! ## The part that is shown -/

theorem windowStop?_eq_some {pos : Nat} (h : pos + reach + 1 < UInt64.size) (length : Nat) :
    windowStop? pos length = some (min (pos + reach + 1) length) := by
  simp [windowStop?, h]

theorem byteOffset_eq_of_length_le {code : List Char} {index : Nat} (h : code.length ≤ index) :
    Text.byteOffset code index = Text.byteOffset code code.length := by
  simp [Text.byteOffset, List.take_of_length_le h]

/-- The part shown is the characters from `windowStart` on, up to `reach` beyond the place. -/
theorem window?_eq_some {code : List Char} {pos : Nat} (h : pos + reach + 1 < UInt64.size) :
    window? code pos
      = some ((code.drop (windowStart pos)).take (pos + reach + 1 - windowStart pos)) := by
  simp only [window?, windowStop?_eq_some h, Option.bind_some]
  by_cases hs : windowStart pos ≤ code.length
  · rw [Text.slice?_byteOffset code (by simp only [windowStart] at *; omega)]
    by_cases hl : pos + reach + 1 ≤ code.length
    · rw [Nat.min_eq_left hl]
    · rw [Nat.min_eq_right (by omega), List.take_of_length_le (by simp),
        List.take_of_length_le (by simp; omega)]
  · have hs : code.length ≤ windowStart pos := by omega
    rw [byteOffset_eq_of_length_le hs, Nat.min_eq_right (by simp only [windowStart] at hs; omega),
      Text.slice?_byteOffset code (Nat.le_refl _)]
    simp [List.drop_eq_nil_of_le hs]

end TapeMachine.Diagnostic
