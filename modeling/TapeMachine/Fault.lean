set_option autoImplicit false

/-!
# Fault

Why a program is not accepted, or why a run ends without success.  A fault is a cause with its data;
`Fault.message` is its wording and `Fault.instruction?` the place in the program it points at.
-/

namespace TapeMachine

/-- Why there is no result. -/
inductive Fault
  /-- The loop that opens at `ip` is never closed. -/
  | unclosedLoop (ip : Nat)
  /-- The read at `ip` found the input used up, `consumed` bytes having been read. -/
  | inputExhausted (ip consumed : Nat)
  /-- The run wanted to go on after `limit` instructions. -/
  | stepLimit (limit : Nat)
  /-- The run was told to stop. -/
  | cancelled
  /-- The trace of the instruction at `ip` could not be written. -/
  | traceWrite (ip : Nat) (reason : String)
  deriving DecidableEq, Repr, Inhabited

namespace Fault

/-- The index of the instruction that the fault points at. -/
def instruction? : Fault → Option Nat
  | unclosedLoop ip => some ip
  | inputExhausted ip _ => some ip
  | stepLimit _ => none
  | cancelled => none
  | traceWrite ip _ => some ip

/-- The fault in words, with the place it points at. -/
def message : Fault → String
  | unclosedLoop ip => s!"Malformed program: unmatched '[' at instruction {ip}"
  | inputExhausted ip consumed => s!"Input exhausted at instruction {ip} after {consumed} byte(s)"
  | stepLimit limit => s!"Execution aborted: step limit exceeded ({limit})"
  | cancelled => "Execution aborted: cancelled"
  | traceWrite ip reason => s!"I/O error at instruction {ip}: {reason}"

/-- The fault in words for a user who is shown the place separately. -/
def summary : Fault → String
  | unclosedLoop _ => "Parse error: unmatched bracket '['"
  | inputExhausted _ consumed => s!"Runtime error: input exhausted after {consumed} byte(s)"
  | traceWrite _ reason => s!"I/O error: {reason}"
  | fault => fault.message

/-- The summary under the name of the program that reports it, if one is given. -/
def headline (program : Option String) (fault : Fault) : String :=
  match program with
  | some name => s!"{name}: {fault.summary}"
  | none => fault.summary

end Fault

end TapeMachine
