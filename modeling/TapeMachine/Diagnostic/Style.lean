set_option autoImplicit false

/-!
# Diagnostic: style

Colours for a terminal.  A style is applied by an escape before the text and is taken back by one
after it, also around an empty text.
-/

namespace TapeMachine.Diagnostic

/-- A colour by its three components. -/
structure Color where
  red : Nat
  green : Nat
  blue : Nat
  deriving DecidableEq, Repr, Inhabited

/-- A colour and a weight for a text. -/
structure Style where
  bold : Bool
  color : Color
  deriving DecidableEq, Repr, Inhabited

namespace Style

/-- The character that starts every escape. -/
def escape : Char := '\x1b'

/-- What is written before a text of this style. -/
def opening (s : Style) : String :=
  let weight := if s.bold then "1;" else ""
  let c := s.color
  escape.toString ++ "[" ++ weight ++ s!"38;2;{c.red};{c.green};{c.blue}m"

/-- What is written after a text of any style. -/
def closing : String := escape.toString ++ "[0m"

/-- The text in this style. -/
def paint (s : Style) (text : String) : String := s.opening ++ text ++ closing

/-- The style of the line that says what is wrong. -/
def headline : Style := ⟨false, ⟨243, 139, 168⟩⟩

/-- The style of the part of a program that is shown. -/
def excerpt : Style := ⟨false, ⟨108, 112, 134⟩⟩

/-- The style of the caret line. -/
def caret : Style := ⟨true, ⟨250, 179, 135⟩⟩

example : caret.paint "^" = "\x1b[1;38;2;250;179;135m^\x1b[0m" := by decide +kernel

end Style

end TapeMachine.Diagnostic
