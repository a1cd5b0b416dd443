import TapeMachine.Input
import TapeMachine.Text.Decimal
set_option autoImplicit false

/-!
# Settings

What a user can set apart from the program and its input, and the variables of the environment that
set it.  A variable that is absent or does not parse leaves the setting as it was.
-/

namespace TapeMachine

/-- What a user can set apart from the program and its input. -/
structure Settings where
  eof : EofPolicy
  /-- After how many instructions a run is ended; never if absent. -/
  maxSteps : Option UInt64
  /-- After how many milliseconds a run is ended; never if absent. -/
  timeoutMs : Option UInt64
  deriving DecidableEq, Repr, Inhabited

namespace Settings

/-- What holds when nothing is set. -/
def default : Settings := ⟨.error, none, none⟩

/-- The settings with those replaced that are given. -/
def replace (s : Settings) (eof : Option EofPolicy) (maxSteps timeoutMs : Option UInt64) :
    Settings :=
  ⟨eof.getD s.eof, maxSteps.or s.maxSteps, timeoutMs.or s.timeoutMs⟩

/-- The variable that sets the policy at the end of the input. -/
def eofVariable : String := "BF_EOF"

/-- The variable that sets the step limit. -/
def maxStepsVariable : String := "BF_MAX_STEPS"

/-- The variable that sets the timeout. -/
def timeoutVariable : String := "BF_TIMEOUT_MS"

/-- The number that the text of a variable holds, blanks around it apart. -/
def variableWord? (text : String) : Option UInt64 := Text.Decimal.readWord? (Text.trim text.toList)

/-- The settings with those replaced that the variables set.  Each argument is the text of the
variable, if there is one. -/
def applyVariables (s : Settings) (eof maxSteps timeoutMs : Option String) : Settings :=
  s.replace (eof.bind fun text => (EofPolicy.parse text.toList).toOption)
    (maxSteps.bind variableWord?) (timeoutMs.bind variableWord?)

@[simp] theorem eof_replace (s : Settings) (eof : Option EofPolicy) (m t : Option UInt64) :
    (s.replace eof m t).eof = eof.getD s.eof := rfl

@[simp] theorem maxSteps_replace (s : Settings) (eof : Option EofPolicy) (m t : Option UInt64) :
    (s.replace eof m t).maxSteps = m.or s.maxSteps := rfl

@[simp] theorem timeoutMs_replace (s : Settings) (eof : Option EofPolicy) (m t : Option UInt64) :
    (s.replace eof m t).timeoutMs = t.or s.timeoutMs := rfl

end Settings

end TapeMachine
