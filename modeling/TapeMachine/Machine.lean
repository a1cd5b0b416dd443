import TapeMachine.Input
import TapeMachine.Program
import TapeMachine.Tape
import TapeMachine.Trace.Row
set_option autoImplicit false

/-!
# Machine

The state of a running program and the effect of one instruction on it.

A loop is governed by the cell that the pointer was on when the loop was entered.  The machine
remembers the index of that cell in `frames`, innermost loop first, and every arrival at the closing
bracket looks at that cell again, wherever the pointer is by then.  A repeated loop goes on after its
opening bracket, which is not executed again.
-/

namespace TapeMachine

/-- The state of a running program. -/
structure Machine where
  tape : Tape
  input : Input
  /-- The bytes put out so far. -/
  output : Array UInt8
  /-- The index of the cell that governs each loop being executed, innermost first. -/
  frames : List Nat
  /-- The index of the next character of the program. -/
  ip : Nat
  deriving DecidableEq, Repr, Inhabited

namespace Machine

/-- The state before the first instruction. -/
def start (input : List UInt8) : Machine := ⟨Tape.fresh, Input.ofBytes input, #[], [], 0⟩

/-- Passes over a comment. -/
def skip (m : Machine) : Machine := { m with ip := m.ip + 1 }

/-- Executes the instruction that stands at `ip`, and says what there is to say about it. -/
def perform (program : Program) (policy : EofPolicy) (i : Instruction) (m : Machine) :
    Except Fault (Machine × Row) :=
  let here := m.tape.pointer
  let value := m.tape.read
  let next := m.ip + 1
  let row (action : Action) : Row := ⟨m.ip, here, value, i, action⟩
  match i with
  | .right => .ok ({ m with tape := m.tape.advance, ip := next }, row (.moved (here + 1)))
  | .left =>
    .ok ({ m with tape := m.tape.retreat, ip := next },
      row (if here = 0 then .stayed else .moved (here - 1)))
  | .increment =>
    .ok ({ m with tape := m.tape.increment, ip := next },
      row (.incremented here value (value + 1)))
  | .decrement =>
    .ok ({ m with tape := m.tape.decrement, ip := next },
      row (.decremented here value (value - 1)))
  | .put => .ok ({ m with output := m.output.push value, ip := next }, row (.put value))
  | .get =>
    match m.input.next?, policy with
    | some (b, input), _ =>
      .ok ({ m with tape := m.tape.write b, input := input, ip := next },
        row (.got input.position b))
    | none, .zero =>
      .ok ({ m with tape := m.tape.write 0, ip := next }, row (.got m.input.position 0))
    | none, .error => .error (.inputExhausted m.ip m.input.position)
  | .enter =>
    match program.partner? m.ip with
    | none => .error (.unclosedLoop m.ip)
    | some close =>
      if value = 0 then .ok ({ m with ip := close + 1 }, row (.skipped (close + 1)))
      else .ok ({ m with frames := here :: m.frames, ip := next }, row (.entered here))
  | .again =>
    match program.partner? m.ip with
    | none => .ok ({ m with ip := next }, row .stray)
    | some opening =>
      match m.frames with
      | [] => .error (.unclosedLoop opening)
      | entry :: outer =>
        let governing := m.tape.cell entry
        if governing = 0 then .ok ({ m with frames := outer, ip := next }, row (.left entry))
        else
          .ok ({ m with ip := opening + 1 }, row (.repeated entry governing (opening + 1)))

/-- The row speaks of the instruction and of the state before it. -/
theorem row_of_perform {program : Program} {policy : EofPolicy} {i : Instruction} {m m' : Machine}
    {row : Row} (h : m.perform program policy i = .ok (m', row)) :
    row.ip = m.ip ∧ row.pointer = m.tape.pointer ∧ row.cell = m.tape.read ∧
      row.instruction = i := by
  simp only [perform] at h
  repeat' split at h
  all_goals cases h <;> exact ⟨rfl, rfl, rfl, rfl⟩

/-- No instruction leads the pointer off the row. -/
theorem wellFormed_of_perform {program : Program} {policy : EofPolicy} {i : Instruction}
    {m m' : Machine} {row : Row} (ht : m.tape.WellFormed)
    (h : m.perform program policy i = .ok (m', row)) : m'.tape.WellFormed := by
  cases i with
  | right => cases h; exact ht.advance
  | left => cases h; exact ht.retreat
  | increment => cases h; exact ht.increment
  | decrement => cases h; exact ht.decrement
  | put => cases h; exact ht
  | get =>
    simp only [perform] at h
    split at h
    · cases h; exact ht.write _
    · cases h; exact ht.write _
    · cases h
  | enter =>
    simp only [perform] at h
    repeat' split at h
    all_goals cases h <;> exact ht
  | again =>
    simp only [perform] at h
    repeat' split at h
    all_goals cases h <;> exact ht

end Machine

end TapeMachine
