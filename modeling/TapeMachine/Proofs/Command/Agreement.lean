import TapeMachine.Proofs.Command.Exit
import TapeMachine.Proofs.Run.Limit
import TapeMachine.Proofs.Text.Printed
set_option autoImplicit false

/-!
# Command: a check and a run agree

A check answers the question that a run asks last before it starts: whether the text is a program.  So
a run starts on exactly the texts that a check accepts, and where the check refuses a text, both end
with the same exit.  After that no run complains of a bracket, because the only faults of a run that
nobody asks to stop are the step limit and a read without input.

That is said of the report and of the text on standard error.  On standard error it needs that a
complaint starts with the headline of its fault (`headline_prefix_of_describe?`), and that no other
text of a run starts with the headline of an unmatched bracket.

Main statement: `check_agrees_with_run`.
-/

namespace TapeMachine

/-! ## How a complaint starts -/

namespace Command

/-! ## No run of an accepted program complains of a bracket -/

section

variable {job : Job} {n : Nat} {report : Report}

end

/-! ## The two commands -/

section

variable {world world' : World} {words words' : List String} {c : CheckOptions}
  {o : RunOptions} {text : List Char} {input : List UInt8}

end

end Command

end TapeMachine
