import TapeMachine.Run
set_option autoImplicit false

/-!
# Run: what a turn can do

`Run.turn` by its cases (`cases_of_turn`), and read backwards.  A turn after which the run goes on has
passed over a comment or completed an instruction (`cases_of_turn_running`); a turn that ends the run
has found the end of the program, an obstacle, a fault of the instruction or a trace that takes no more
(`cases_of_turn_ended`).
-/

namespace TapeMachine.Run

variable {setup : Setup} {r r' : Run} {report : Report}

theorem ofChar?_cases (c : Char) :
    Instruction.ofChar? c = none ∨ ∃ i : Instruction, c = i.char := by
  cases h : Instruction.ofChar? c with
  | none => exact .inl rfl
  | some i => exact .inr ⟨i, Instruction.ofChar?_eq_some_iff.1 h⟩

/-- The machine of a run before its first turn. -/
theorem machine_of_start {input : List UInt8} {cancelled : Bool} {trace : Option Sink}
    (h : start input cancelled trace = .running r) : r.machine = Machine.start input := by
  simp only [start] at h
  repeat' split at h
  all_goals cases h <;> rfl

/-- The machine of a run is the one that its last instruction has led to. -/
theorem machine_of_complete {machine : Machine} {steps : Nat} {cancelled : Bool}
    {trace : Option Sink} {row : Row}
    (h : complete machine steps cancelled trace row = .running r') :
    r'.machine = machine ∧ r'.steps = steps + 1 := by
  simp only [complete] at h
  repeat' split at h
  all_goals cases h <;> exact ⟨rfl, rfl⟩

/-- A line that the trace refuses is the only fault of completing an instruction. -/
theorem fault_of_complete {machine : Machine} {steps : Nat} {cancelled : Bool}
    {trace : Option Sink} {row : Row}
    (h : complete machine steps cancelled trace row = .ended report) :
    report.ending = .failed (.traceWrite row.ip Sink.refusal) ∧ report.steps = steps := by
  simp only [complete] at h
  repeat' split at h
  all_goals cases h <;> exact ⟨rfl, rfl⟩

/-- What a turn does, in each of its cases. -/
theorem cases_of_turn (setup : Setup) (r : Run) :
    (setup.program.code[r.machine.ip]? = none ∧
      r.turn setup = .ended ⟨.finished r.machine, r.steps, r.trace⟩) ∨
    (∃ c, setup.program.code[r.machine.ip]? = some c ∧ Instruction.ofChar? c = none ∧
      r.turn setup = .running { r with machine := r.machine.skip }) ∨
    ∃ i, setup.program.code[r.machine.ip]? = some (Instruction.char i) ∧
      ((∃ fault, obstacle? setup r.cancelled r.steps = some fault ∧
          r.turn setup = .ended ⟨.failed fault, r.steps, r.trace⟩) ∨
        obstacle? setup r.cancelled r.steps = none ∧
        ((∃ fault, r.machine.perform setup.program setup.policy i = .error fault ∧
            r.turn setup = .ended ⟨.failed fault, r.steps, r.trace⟩) ∨
          ∃ machine row, r.machine.perform setup.program setup.policy i = .ok (machine, row) ∧
            r.turn setup = complete machine r.steps r.cancelled r.trace row)) := by
  cases hc : setup.program.code[r.machine.ip]? with
  | none => exact .inl ⟨rfl, turn_of_end hc⟩
  | some c =>
    rcases ofChar?_cases c with hno | ⟨i, rfl⟩
    · exact .inr (.inl ⟨c, rfl, hno, turn_of_comment hc hno⟩)
    · refine .inr (.inr ⟨i, rfl, ?_⟩)
      cases ho : obstacle? setup r.cancelled r.steps with
      | some fault => exact .inl ⟨fault, rfl, turn_of_obstacle hc ho⟩
      | none =>
        refine .inr ⟨rfl, ?_⟩
        cases hp : r.machine.perform setup.program setup.policy i with
        | error fault => exact .inl ⟨fault, rfl, turn_of_fault hc ho hp⟩
        | ok result => exact .inr ⟨result.1, result.2, rfl, turn_of_perform hc ho hp⟩

/-- A turn after which the run goes on. -/
theorem cases_of_turn_running (h : r.turn setup = .running r') :
    (∃ c, setup.program.code[r.machine.ip]? = some c ∧ Instruction.ofChar? c = none ∧
      r' = { r with machine := r.machine.skip }) ∨
    ∃ i machine row, setup.program.code[r.machine.ip]? = some (Instruction.char i) ∧
      obstacle? setup r.cancelled r.steps = none ∧
      r.machine.perform setup.program setup.policy i = .ok (machine, row) ∧
      complete machine r.steps r.cancelled r.trace row = .running r' := by
  rcases cases_of_turn setup r with ⟨-, ht⟩ | ⟨c, hc, hno, ht⟩ | ⟨i, hi, hattempt⟩
  · cases h.symm.trans ht
  · exact .inl ⟨c, hc, hno, Turn.running.inj (h.symm.trans ht)⟩
  · rcases hattempt with ⟨fault, -, ht⟩ | ⟨ho, ⟨fault, -, ht⟩ | ⟨machine, row, hp, ht⟩⟩
    · cases h.symm.trans ht
    · cases h.symm.trans ht
    · exact .inr ⟨i, machine, row, hi, ho, hp, ht.symm.trans h⟩

/-- A turn that ends the run. -/
theorem cases_of_turn_ended (h : r.turn setup = .ended report) :
    (setup.program.code[r.machine.ip]? = none ∧
      report = ⟨.finished r.machine, r.steps, r.trace⟩) ∨
    ∃ i, setup.program.code[r.machine.ip]? = some (Instruction.char i) ∧
      ((∃ fault, obstacle? setup r.cancelled r.steps = some fault ∧
          report = ⟨.failed fault, r.steps, r.trace⟩) ∨
        obstacle? setup r.cancelled r.steps = none ∧
        ((∃ fault, r.machine.perform setup.program setup.policy i = .error fault ∧
            report = ⟨.failed fault, r.steps, r.trace⟩) ∨
          ∃ machine row, r.machine.perform setup.program setup.policy i = .ok (machine, row) ∧
            complete machine r.steps r.cancelled r.trace row = .ended report)) := by
  rcases cases_of_turn setup r with ⟨hc, ht⟩ | ⟨c, -, -, ht⟩ | ⟨i, hi, hattempt⟩
  · exact .inl ⟨hc, Turn.ended.inj (h.symm.trans ht)⟩
  · cases h.symm.trans ht
  · refine .inr ⟨i, hi, ?_⟩
    rcases hattempt with ⟨fault, ho, ht⟩ | ⟨ho, ⟨fault, hp, ht⟩ | ⟨machine, row, hp, ht⟩⟩
    · exact .inl ⟨fault, ho, Turn.ended.inj (h.symm.trans ht)⟩
    · exact .inr ⟨ho, .inl ⟨fault, hp, Turn.ended.inj (h.symm.trans ht)⟩⟩
    · exact .inr ⟨ho, .inr ⟨machine, row, hp, ht.symm.trans h⟩⟩

/-- A turn that ends the run with success has found the end of the program. -/
theorem end_of_turn_finished (h : r.turn setup = .ended report) {m : Machine}
    (hm : report.ending = .finished m) :
    setup.program.code[r.machine.ip]? = none ∧ report = ⟨.finished r.machine, r.steps, r.trace⟩ := by
  rcases cases_of_turn_ended h with hend | ⟨i, -, ⟨fault, -, rfl⟩ | ⟨-, ⟨fault, -, rfl⟩ | hwrite⟩⟩
  · exact hend
  · cases hm
  · cases hm
  · obtain ⟨machine, row, -, hdone⟩ := hwrite
    rw [(fault_of_complete hdone).1] at hm
    cases hm

end TapeMachine.Run
