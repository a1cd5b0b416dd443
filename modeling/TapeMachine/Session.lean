import TapeMachine.Run
set_option autoImplicit false

/-!
# Session

A program kept for several runs.  The runs never see each other: each starts on a fresh tape with the
input of its own.  What stays from one to the next is the program and the chosen policy for reading
past the end of the input.
-/

namespace TapeMachine

/-- A program kept for several runs, and the policy they read under. -/
structure Session where
  program : Program
  policy : EofPolicy
  deriving DecidableEq, Repr, Inhabited

/-- What is asked of one run. -/
structure Request where
  input : List UInt8
  maxSteps : Option Nat
  /-- The run is asked to stop before it starts. -/
  cancelled : Bool
  trace : Option Sink
  deriving DecidableEq, Inhabited

namespace Session

/-- A session on the program that a source holds. -/
def ofSource (source : String) : Except Fault Session :=
  match Program.ofSource source with
  | .ok program => .ok ⟨program, .error⟩
  | .error fault => .error fault

/-- The session under the given policy, or as it was if none is given. -/
def choose (policy : Option EofPolicy) (s : Session) : Session :=
  { s with policy := policy.getD s.policy }

/-- What stays fixed during a run of this session. -/
def setup (s : Session) (maxSteps : Option Nat) : Setup := ⟨s.program, s.policy, maxSteps⟩

/-- One run, for at most `turns` turns. -/
def run (turns : Nat) (s : Session) (request : Request) : Option Report :=
  (s.setup request.maxSteps).execute turns request.input request.cancelled request.trace

end Session

/-- The output of the program that a source holds on this input, if it ends within `turns` turns.
Reading past the end of the input is a fault, and the number of steps is not limited. -/
def interpret (turns : Nat) (source : String) (input : List UInt8) :
    Option (Except Fault (Array UInt8)) :=
  match Session.ofSource source with
  | .error fault => some (.error fault)
  | .ok session => (session.run turns ⟨input, none, false, none⟩).map Report.outcome

end TapeMachine
