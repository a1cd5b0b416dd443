import TapeMachine.Text.Blank
set_option autoImplicit false

/-!
# Input

The bytes a run reads, and what a read does after the last of them.  `Input` is read from the front
and never goes back; `position` counts the bytes taken so far.  `EofPolicy` is what a program gets
when it asks for more: nothing at all, which ends the run, or a zero byte.
-/

namespace TapeMachine

/-- The bytes still to be read, and how many have been. -/
structure Input where
  rest : List UInt8
  position : Nat
  deriving DecidableEq, Repr, Inhabited

namespace Input

/-- Input that starts with the first of these bytes. -/
def ofBytes (bytes : List UInt8) : Input := ⟨bytes, 0⟩

/-- The next byte and the input after it; nothing at the end. -/
def next? (input : Input) : Option (UInt8 × Input) :=
  match input.rest with
  | [] => none
  | b :: rest => some (b, ⟨rest, input.position + 1⟩)

@[simp] theorem next?_nil (n : Nat) : next? ⟨[], n⟩ = none := rfl

@[simp] theorem next?_cons (b : UInt8) (rest : List UInt8) (n : Nat) :
    next? ⟨b :: rest, n⟩ = some (b, ⟨rest, n + 1⟩) := rfl

end Input

/-- What reading past the end of the input does. -/
inductive EofPolicy
  /-- The run fails. -/
  | error
  /-- The read gives a zero byte. -/
  | zero
  deriving DecidableEq, Repr, Inhabited

/-- A text that names no policy, as it was understood. -/
structure UnknownEofPolicy where
  word : String
  deriving DecidableEq, Repr, Inhabited

/-- What a user is told about a text that names no policy. -/
def UnknownEofPolicy.message (e : UnknownEofPolicy) : String :=
  s!"unknown EOF policy '{e.word}' (expected 'error' or 'zero')"

namespace EofPolicy

/-- The name a policy is shown by. -/
def name : EofPolicy → String
  | error => "error"
  | zero => "zero"

/-- The policy with exactly this name. -/
def ofName? (word : String) : Option EofPolicy :=
  if word = "error" then some error
  else if word = "zero" then some zero
  else none

/-- The policy a settings word stands for. -/
def ofWord? (word : String) : Option EofPolicy :=
  if word = "error" ∨ word = "fail" then some error
  else if word = "zero" ∨ word = "0" then some zero
  else none

/-- A text as a policy word is looked up: without the blanks around it, and with ASCII letters in
lower case. -/
def wordOf (text : List Char) : String := String.ofList ((Text.trim text).map Char.toLower)

/-- The policy that a text from a settings file or from the environment stands for. -/
def parse (text : List Char) : Except UnknownEofPolicy EofPolicy :=
  match ofWord? (wordOf text) with
  | some policy => .ok policy
  | none => .error ⟨wordOf text⟩

@[simp] theorem ofName?_name (p : EofPolicy) : ofName? p.name = some p := by
  cases p <;> decide

theorem ofName?_eq_some_iff {word : String} {p : EofPolicy} :
    ofName? word = some p ↔ word = p.name := by
  constructor
  · intro h
    simp only [ofName?] at h
    split at h
    · next hw => cases h; exact hw
    · split at h
      · next hw => cases h; exact hw
      · cases h
  · rintro rfl
    exact ofName?_name p

example : (parse " Fail\n".toList).toOption = some error := by decide

example : (parse "Zéro".toList).toOption = none := by decide

end EofPolicy

end TapeMachine
