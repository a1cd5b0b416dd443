import TapeMachine.Settings.Basic
import TapeMachine.Text.Piece
set_option autoImplicit false

/-!
# Settings: the settings file

A settings file is read line by line.  Blank lines and lines that start with `#` count for nothing.  A
line in square brackets starts a section, and only what stands in a section called `interpreter` is
looked at.  There a line with an equals sign assigns the text after the first one to the key before
it; a value may stand in double quotes.  Of several assignments to one key the last one counts, also
if its value turns out to be none.

`Reading` is what is known after a number of lines.
-/

namespace TapeMachine.Settings

/-- The name of the section that is looked at. -/
def sectionName : List Char := "interpreter".toList

/-- What is known of a settings file after a number of lines. -/
structure Reading where
  /-- The lines to come belong to the section that is looked at. -/
  inSection : Bool
  /-- The assignments so far, the latest first. -/
  assigned : List (List Char × List Char)
  deriving DecidableEq, Repr, Inhabited

/-- The value without the pair of double quotes around it, if there is one. -/
def unquoted (value : List Char) : List Char :=
  if 2 ≤ value.length ∧ value.head? = some '"' ∧ value.getLast? = some '"' then
    (value.drop 1).dropLast
  else value

namespace Reading

/-- What is known before the first line. -/
def start : Reading := ⟨false, []⟩

/-- Takes in one line, without the blanks around it. -/
def takeTrimmed (r : Reading) (line : List Char) : Reading :=
  if line = [] ∨ line.head? = some '#' then r
  else if line.head? = some '[' ∧ line.getLast? = some ']' then
    { r with inSection := (line.drop 1).dropLast = sectionName }
  else if r.inSection then
    match Text.cutAt? '=' line with
    | none => r
    | some (key, value) =>
      { r with assigned := (Text.trim key, unquoted (Text.trim value)) :: r.assigned }
  else r

/-- Takes in one line. -/
def takeLine (r : Reading) (line : List Char) : Reading := r.takeTrimmed (Text.trim line)

/-- What a whole file says. -/
def ofText (text : List Char) : Reading := (Text.pieces '\n' text).foldl takeLine start

/-- The value of a key. -/
def value? (r : Reading) (key : String) : Option (List Char) := r.assigned.lookup key.toList

/-- The settings that the assignments make. -/
def settings (r : Reading) : Settings :=
  default.replace ((r.value? "eof").bind fun value => (EofPolicy.parse value).toOption)
    ((r.value? "max_steps").bind Text.Decimal.readWord?)
    ((r.value? "timeout_ms").bind Text.Decimal.readWord?)

end Reading

/-- The settings that a settings file makes. -/
def ofFile (text : List Char) : Settings := (Reading.ofText text).settings

example : ofFile "[interpreter]\n eof = \"zero\" \nmax_steps = 5\nmax_steps = many".toList
    = ⟨.zero, none, none⟩ := by decide +kernel

end TapeMachine.Settings
