import TapeMachine.Bracket.Pairing
import TapeMachine.Fault
set_option autoImplicit false

/-!
# Program

A text that is ready to run: its characters by index, and the partner of every bracket.  Only texts
whose loops are all closed become programs, and this is decided before anything runs.  A closing
bracket without a partner is allowed.
-/

namespace TapeMachine

/-- The characters of a text, and the partner of each of its brackets. -/
structure Program where
  code : Array Char
  partners : Array (Option Nat)
  deriving DecidableEq, Repr, Inhabited

namespace Program

/-- The program that a text holds. -/
def ofText (text : List Char) : Except Fault Program :=
  match Bracket.partners text with
  | .ok partners => .ok ⟨text.toArray, partners⟩
  | .error ip => .error (.unclosedLoop ip)

/-- The program that a source holds. -/
def ofSource (source : String) : Except Fault Program := ofText source.toList

/-- The partner of the bracket at `ip`; nothing for a stray bracket, for any other character and
beyond the end. -/
def partner? (p : Program) (ip : Nat) : Option Nat := p.partners.getD ip none

/-- The number of characters, comments included. -/
def length (p : Program) : Nat := p.code.size

theorem code_of_ofText {text : List Char} {p : Program} (h : ofText text = .ok p) :
    p.code = text.toArray := by
  simp only [ofText] at h
  split at h <;> cases h
  rfl

end Program

end TapeMachine
