import TapeMachine.Proofs.Run.Progress
import TapeMachine.Proofs.Trace.Reading
set_option autoImplicit false

/-!
# Run: its log

What a run has written can be read back, at any time and also if the run never ends: a head of two
lines, and one line for each completed instruction that tells which instruction it was and in which
state it found the machine.  An instruction that failed has no line.

`Run.Records` says that columns are right.  There is such a run for each row of the course that the run
has come past (`exists_records`).

Main statement: the trace of a run holds the columns of the completed instructions, and those of the
output instructions hold the output of a run that came to the end (`holds_of_progress`).
-/

namespace TapeMachine

/-- The columns are those of the instruction that the run completes with its next turn. -/
structure Run.Records (setup : Setup) (r : Run) (c : Row.Columns) : Prop where
  completes : ∃ r', r.turn setup = .running r' ∧ r'.steps = r.steps + 1
  instruction_eq : setup.program.code[r.machine.ip]? = some c.instruction
  step_eq : c.step = r.steps
  ip_eq : c.ip = r.machine.ip
  pointer_eq : c.pointer = r.machine.tape.pointer
  cell_eq : c.cell = r.machine.tape.read.toNat

/-! ## The output in the columns -/

/-- The columns of the output instructions hold what was put out; their numbers do not matter. -/
theorem Row.map_cell_mapIdx {f : Nat → Row → Columns}
    (hf : ∀ step r, (f step r).instruction = r.instruction.char ∧ (f step r).cell = r.cell.toNat)
    (rows : List Row) :
    ((rows.mapIdx f).filter fun c => c.instruction = '.').map Columns.cell =
      (emitted rows).map UInt8.toNat := by
  have hchar (i : Instruction) : i.char = '.' ↔ i = .put := by cases i <;> decide
  induction rows generalizing f with
  | nil => rfl
  | cons row rows ih =>
    have hrest := ih fun step r => hf (step + 1) r
    obtain ⟨hinstruction, hcell⟩ := hf 0 row
    rw [emitted] at hrest ⊢
    by_cases hput : row.instruction = .put
    · simp [hinstruction, hchar, hput, hcell, hrest]
    · simp [hinstruction, hchar, hput, hrest]

namespace Run

variable {setup : Setup} {input : List UInt8} {cancelled : Bool} {trace : Option Sink}

/-- Each completed instruction is recorded by the row of its number. -/
theorem exists_records (htrace : ∀ sink ∈ trace, sink.capacity = none) {k j : Nat} {m : Machine}
    (hm : (setup.course input).machine? k = some m) (hclear : Clear setup cancelled trace k)
    {c : Row.Columns} (hc : (((setup.course input).rows k).mapIdx Row.columns)[j]? = some c) :
    ∃ n r, setup.progress n input cancelled trace = .running r ∧ r.steps = j ∧
      Records setup r c := by
  have hj : j < k := by
    have hlt := (List.getElem?_eq_some_iff.1 hc).1
    rwa [List.length_mapIdx, Course.length_rows hm] at hlt
  obtain ⟨m', done, row, hm', hstep, hrow⟩ := Course.exists_getElem?_rows hm hj
  rw [List.getElem?_mapIdx, hrow] at hc
  cases hc
  obtain ⟨n, hn⟩ := exists_progress htrace hm' fun i hi => hclear i (Nat.lt_trans hi hj)
  have hturn := turn_of_step? htrace hm' hstep (hclear j hj)
  obtain ⟨i, hi, hp⟩ := Course.step?_eq_some_iff.1 hstep
  obtain ⟨hip, hpointer, hcell, hinstruction⟩ := Machine.row_of_perform hp
  refine ⟨n, _, hn, rfl, ⟨_, hturn, rfl⟩, ?_, rfl, hip, hpointer, congrArg UInt8.toNat hcell⟩
  rw [Row.columns, hinstruction]
  exact Program.instruction?_eq_some_iff.1 hi

/-- A run that came to the end has put out what its rows say. -/
theorem output_of_finished {report : Report} (h : report.OnCourse setup input cancelled trace)
    {machine : Machine} (hending : report.ending = .finished machine) :
    machine.output.toList = Row.emitted ((setup.course input).rows report.steps) := by
  obtain ⟨m, hm, hstop⟩ := h.ending_eq
  rw [hending] at hstop
  rcases Setup.cases_of_stop? hstop with ⟨-, hfinished⟩ | ⟨i, -, ⟨fault, -, hfailed⟩ | hperform⟩
  · cases hfinished
    exact Course.output_of_machine? hm
  · cases hfailed
  · obtain ⟨-, fault, -, hfailed⟩ := hperform
    cases hfailed

end Run

/-- The trace is a faithful log, whatever the program, the input, the policy and the control: at any
time of a run it holds the head and one line for each completed instruction, which gives back the
number of the instruction, its place, the pointer and the cell before it, and its character.  If the
run came to the end, its output is in the lines of the output instructions, in order. -/
theorem Setup.holds_of_progress (setup : Setup) (n : Nat) (input : List UInt8) (cancelled : Bool)
    (cancelAt : Option Nat) :
    ∃ (sink : Sink) (columns : List Row.Columns),
      (setup.progress n input cancelled (some (Sink.empty none cancelAt))).trace = some sink ∧
      sink.Holds columns ∧
      columns.length =
        (setup.progress n input cancelled (some (Sink.empty none cancelAt))).steps ∧
      (∀ j c, columns[j]? = some c → ∃ n' r,
        setup.progress n' input cancelled (some (Sink.empty none cancelAt)) = .running r ∧
        r.steps = j ∧ r.Records setup c) ∧
      ∀ report machine,
        setup.progress n input cancelled (some (Sink.empty none cancelAt)) = .ended report →
        report.ending = .finished machine →
        machine.output.toList.map UInt8.toNat =
          (columns.filter fun c => c.instruction = '.').map Row.Columns.cell := by
  have hfresh := Sink.fresh_empty cancelAt
  have htrace : ∀ sink ∈ some (Sink.empty none cancelAt), sink.capacity = none := fun sink hsink =>
    Option.some.inj hsink ▸ rfl
  have hcourse := Run.onCourse_progress htrace setup n input cancelled
  obtain ⟨m, hm⟩ := hcourse.exists_machine?
  refine ⟨_, _, hcourse.trace_eq, hfresh.holds_table _, ?_, fun j c => ?_, ?_⟩
  · rw [List.length_mapIdx, Course.length_rows hm]
  · exact Run.exists_records htrace hm hcourse.clear
  · intro report machine hended hending
    rw [hended] at hcourse ⊢
    rw [Run.output_of_finished hcourse hending]
    exact (Row.map_cell_mapIdx (fun _ _ => ⟨rfl, rfl⟩) _).symm

end TapeMachine
