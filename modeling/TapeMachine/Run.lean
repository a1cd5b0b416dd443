import TapeMachine.Machine
import TapeMachine.Trace.Sink
set_option autoImplicit false

/-!
# Run

A program at work: the machine, the count of completed instructions, the request to stop and the
trace.  A run goes in turns.  A turn passes over one comment or attempts one instruction, and an
attempt goes in this order:

1. the request to stop is honoured, and ends the run with `Fault.cancelled`;
2. the step limit is checked, and ends the run with `Fault.stepLimit`;
3. the instruction takes effect, or fails with a fault of its own;
4. its row is written, which may fail and may raise the request to stop;
5. the step is counted.

A comment takes a turn but no step.  Neither it nor the end of the program is an attempt, so a request
to stop and a limit that has been reached change nothing there.

`Run.finish` gives a run a number of turns and has no answer when the run wants more, so a run that
never ends is one without an answer for every number.  `finish_mono` says that more turns never
change an answer.
-/

namespace TapeMachine

/-- What stays fixed during a run. -/
structure Setup where
  program : Program
  policy : EofPolicy
  maxSteps : Option Nat
  deriving DecidableEq, Repr, Inhabited

/-- A run between two turns. -/
structure Run where
  machine : Machine
  /-- The number of completed instructions. -/
  steps : Nat
  /-- The run has been asked to stop. -/
  cancelled : Bool
  trace : Option Sink
  deriving DecidableEq, Inhabited

/-- How a run ended. -/
inductive Ending
  /-- The end of the program was reached, with the machine in this state. -/
  | finished (machine : Machine)
  | failed (fault : Fault)
  deriving DecidableEq, Repr, Inhabited

/-- What is known of a run that has ended. -/
structure Report where
  ending : Ending
  /-- The number of completed instructions. -/
  steps : Nat
  trace : Option Sink
  deriving DecidableEq, Inhabited

/-- The output of a run; a run that failed has none. -/
def Report.outcome (r : Report) : Except Fault (Array UInt8) :=
  match r.ending with
  | .finished machine => .ok machine.output
  | .failed fault => .error fault

/-- What a turn leads to. -/
inductive Turn
  | running (run : Run)
  | ended (report : Report)
  deriving DecidableEq, Inhabited

namespace Run

/-- The fault that keeps the next instruction from being attempted. -/
def obstacle? (setup : Setup) (cancelled : Bool) (steps : Nat) : Option Fault :=
  if cancelled then some .cancelled
  else
    match setup.maxSteps with
    | none => none
    | some limit => if limit ≤ steps then some (.stepLimit limit) else none

/-- Completes an instruction that has taken effect: writes its row and counts it. -/
def complete (machine : Machine) (steps : Nat) (cancelled : Bool) (trace : Option Sink) (row : Row) :
    Turn :=
  match trace with
  | none => .running ⟨machine, steps + 1, cancelled, none⟩
  | some sink =>
    match sink.writeLine (row.line steps) with
    | (sink, true) => .running ⟨machine, steps + 1, cancelled || sink.asksToCancel, some sink⟩
    | (sink, false) => .ended ⟨.failed (.traceWrite row.ip Sink.refusal), steps, some sink⟩

/-- One turn. -/
def turn (setup : Setup) (r : Run) : Turn :=
  match r with
  | ⟨machine, steps, cancelled, trace⟩ =>
    match setup.program.code[machine.ip]? with
    | none => .ended ⟨.finished machine, steps, trace⟩
    | some c =>
      match Instruction.ofChar? c with
      | none => .running ⟨machine.skip, steps, cancelled, trace⟩
      | some i =>
        match obstacle? setup cancelled steps with
        | some fault => .ended ⟨.failed fault, steps, trace⟩
        | none =>
          match machine.perform setup.program setup.policy i with
          | .error fault => .ended ⟨.failed fault, steps, trace⟩
          | .ok (machine, row) => complete machine steps cancelled trace row

/-- The run after `turns` turns, or its report if it ends before that. -/
def advance (setup : Setup) : Nat → Run → Turn
  | 0, r => .running r
  | turns + 1, r =>
    match r.turn setup with
    | .ended report => .ended report
    | .running r => advance setup turns r

/-- The report of a run that ends within `turns` turns. -/
def finish (setup : Setup) (turns : Nat) (r : Run) : Option Report :=
  match advance setup turns r with
  | .ended report => some report
  | .running _ => none

/-- The run before its first turn, with the head of the trace written. -/
def start (input : List UInt8) (cancelled : Bool) (trace : Option Sink) : Turn :=
  match trace with
  | none => .running ⟨Machine.start input, 0, cancelled, none⟩
  | some sink =>
    match sink.writeLine Row.headings with
    | (sink, false) => .ended ⟨.failed (.traceWrite 0 Sink.refusal), 0, some sink⟩
    | (sink, true) =>
      match sink.writeLine Row.ruler with
      | (sink, false) => .ended ⟨.failed (.traceWrite 0 Sink.refusal), 0, some sink⟩
      | (sink, true) =>
        .running ⟨Machine.start input, 0, cancelled || sink.asksToCancel, some sink⟩

/-! ## One turn -/

theorem turn_of_end {setup : Setup} {r : Run} (h : setup.program.code[r.machine.ip]? = none) :
    r.turn setup = .ended ⟨.finished r.machine, r.steps, r.trace⟩ := by
  simp [turn, h]

theorem turn_of_comment {setup : Setup} {r : Run} {c : Char}
    (h : setup.program.code[r.machine.ip]? = some c) (hc : Instruction.ofChar? c = none) :
    r.turn setup = .running { r with machine := r.machine.skip } := by
  simp [turn, h, hc]

theorem turn_of_obstacle {setup : Setup} {r : Run} {i : Instruction} {fault : Fault}
    (h : setup.program.code[r.machine.ip]? = some i.char)
    (ho : obstacle? setup r.cancelled r.steps = some fault) :
    r.turn setup = .ended ⟨.failed fault, r.steps, r.trace⟩ := by
  simp [turn, h, ho]

theorem turn_of_fault {setup : Setup} {r : Run} {i : Instruction} {fault : Fault}
    (h : setup.program.code[r.machine.ip]? = some i.char)
    (ho : obstacle? setup r.cancelled r.steps = none)
    (hp : r.machine.perform setup.program setup.policy i = .error fault) :
    r.turn setup = .ended ⟨.failed fault, r.steps, r.trace⟩ := by
  simp [turn, h, ho, hp]

theorem turn_of_perform {setup : Setup} {r : Run} {i : Instruction} {machine : Machine} {row : Row}
    (h : setup.program.code[r.machine.ip]? = some i.char)
    (ho : obstacle? setup r.cancelled r.steps = none)
    (hp : r.machine.perform setup.program setup.policy i = .ok (machine, row)) :
    r.turn setup = complete machine r.steps r.cancelled r.trace row := by
  simp [turn, h, ho, hp]

/-! ## Many turns -/

@[simp] theorem advance_zero (setup : Setup) (r : Run) : advance setup 0 r = .running r := rfl

theorem advance_succ_of_ended {setup : Setup} {r : Run} {report : Report}
    (h : r.turn setup = .ended report) (turns : Nat) :
    advance setup (turns + 1) r = .ended report := by
  simp [advance, h]

theorem advance_succ_of_running {setup : Setup} {r r' : Run}
    (h : r.turn setup = .running r') (turns : Nat) :
    advance setup (turns + 1) r = advance setup turns r' := by
  simp [advance, h]

/-- Turns can be taken in two parts. -/
theorem advance_add_of_running {setup : Setup} {r r' : Run} {n : Nat}
    (h : advance setup n r = .running r') (m : Nat) :
    advance setup (n + m) r = advance setup m r' := by
  induction n generalizing r with
  | zero => cases h; rw [Nat.zero_add]
  | succ n ih =>
    rw [Nat.add_right_comm]
    cases ht : r.turn setup with
    | ended report => rw [advance_succ_of_ended ht] at h; cases h
    | running r₁ =>
      rw [advance_succ_of_running ht] at h ⊢
      exact ih h

@[simp] theorem finish_zero (setup : Setup) (r : Run) : finish setup 0 r = none := rfl

theorem finish_succ_of_ended {setup : Setup} {r : Run} {report : Report}
    (h : r.turn setup = .ended report) (turns : Nat) :
    finish setup (turns + 1) r = some report := by
  simp [finish, advance_succ_of_ended h]

theorem finish_succ_of_running {setup : Setup} {r r' : Run}
    (h : r.turn setup = .running r') (turns : Nat) :
    finish setup (turns + 1) r = finish setup turns r' := by
  simp [finish, advance_succ_of_running h]

/-- More turns never change an answer. -/
theorem finish_mono {setup : Setup} {r : Run} {report : Report} {n m : Nat} (hnm : n ≤ m)
    (h : finish setup n r = some report) : finish setup m r = some report := by
  induction n generalizing m r with
  | zero => simp at h
  | succ n ih =>
    obtain ⟨m, rfl⟩ : ∃ k, m = k + 1 := ⟨m - 1, by omega⟩
    cases ht : r.turn setup with
    | ended rep => rwa [finish_succ_of_ended ht] at h ⊢
    | running r' =>
      rw [finish_succ_of_running ht] at h ⊢
      exact ih (by omega) h

end Run

/-- Runs a program from the start, for at most `turns` turns. -/
def Setup.execute (setup : Setup) (turns : Nat) (input : List UInt8) (cancelled : Bool)
    (trace : Option Sink) : Option Report :=
  match Run.start input cancelled trace with
  | .ended report => some report
  | .running run => run.finish setup turns

/-- The setup and the run agree on an answer, however many turns are allowed beyond those needed. -/
theorem Setup.execute_mono {setup : Setup} {input : List UInt8} {cancelled : Bool}
    {trace : Option Sink} {report : Report} {n m : Nat} (hnm : n ≤ m)
    (h : setup.execute n input cancelled trace = some report) :
    setup.execute m input cancelled trace = some report := by
  simp only [Setup.execute] at *
  split at h
  · exact h
  · exact Run.finish_mono hnm h

end TapeMachine
