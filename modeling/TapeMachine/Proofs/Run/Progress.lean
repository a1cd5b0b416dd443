import TapeMachine.Proofs.Machine.Course
import TapeMachine.Proofs.Run.Turn
import TapeMachine.Proofs.Trace.Lines
set_option autoImplicit false

/-!
# Run: a run and the course of its machine

How far a run gets and how it ends, said without its turns.  A run whose trace takes everything follows
the course of its machine.  Instruction number `k` is attempted if there is no obstacle in front of it
or of an earlier one, and everything else that the run shows, its trace and the request to stop, is
known from the number of completed instructions.

`OnCourse` is the invariant.  Every turn keeps it (`OnCourse.turn`), so it holds of whatever a run has
come to.  Conversely, a run comes to every place of the course that no obstacle keeps it from
(`exists_progress`).

Main statements: a run ends with a report if and only if the report is on the course (`ends_iff`), and of
two runs on one course, one writes the rows of the other as far as it gets (`exists_rows_of_clear`).
-/

namespace TapeMachine

/-- What a run from the start has come to after `turns` turns. -/
def Setup.progress (setup : Setup) (turns : Nat) (input : List UInt8) (cancelled : Bool)
    (trace : Option Sink) : Turn :=
  match Run.start input cancelled trace with
  | .ended report => .ended report
  | .running run => run.advance setup turns

/-- The run from the start ends, with this report. -/
def Setup.Ends (setup : Setup) (input : List UInt8) (cancelled : Bool) (trace : Option Sink)
    (report : Report) : Prop :=
  ∃ turns, setup.execute turns input cancelled trace = some report

/-- What the machine of a run would do if nothing stopped it. -/
def Setup.course (setup : Setup) (input : List UInt8) : Course :=
  ⟨setup.program, setup.policy, Machine.start input⟩

/-- How a run ends whose machine is past the comments; nothing if it goes on. -/
def Setup.stop? (setup : Setup) (cancelled : Bool) (steps : Nat) (m : Machine) : Option Ending :=
  match setup.program.instruction? m.ip with
  | none => some (.finished m)
  | some i =>
    match Run.obstacle? setup cancelled steps with
    | some fault => some (.failed fault)
    | none =>
      match m.perform setup.program setup.policy i with
      | .error fault => some (.failed fault)
      | .ok _ => none

/-- The number of completed instructions. -/
def Turn.steps : Turn → Nat
  | running r => r.steps
  | ended report => report.steps

/-- The trace as far as it is written. -/
def Turn.trace : Turn → Option Sink
  | running r => r.trace
  | ended report => report.trace

namespace Run

/-- The run has been asked to stop by the time `steps` instructions are complete: from the start, or by
its trace, which has taken its head and `steps` more lines by then. -/
def askedAt (cancelled : Bool) (trace : Option Sink) (steps : Nat) : Bool :=
  cancelled || trace.any fun sink => sink.cancelAt.any fun n => n ≤ sink.lines + (2 + steps)

/-- The trace of a run, which takes everything, with these rows. -/
def traceWith (trace : Option Sink) (rows : List Row) : Option Sink :=
  trace.map fun sink => sink.after (Row.table rows)

/-- There is no obstacle in front of the first `steps` instructions. -/
def Clear (setup : Setup) (cancelled : Bool) (trace : Option Sink) (steps : Nat) : Prop :=
  ∀ k < steps, obstacle? setup (askedAt cancelled trace k) k = none

/-- The run is where the course of its machine leads. -/
structure OnCourse (setup : Setup) (input : List UInt8) (cancelled : Bool) (trace : Option Sink)
    (r : Run) : Prop where
  machine_eq : (setup.course input).machine? r.steps = some (r.machine.settle setup.program)
  clear : Clear setup cancelled trace r.steps
  cancelled_eq : r.cancelled = askedAt cancelled trace r.steps
  trace_eq : r.trace = traceWith trace ((setup.course input).rows r.steps)

end Run

/-- The report is of a run that was where the course of its machine leads when it ended. -/
structure Report.OnCourse (setup : Setup) (input : List UInt8) (cancelled : Bool)
    (trace : Option Sink) (report : Report) : Prop where
  ending_eq : ∃ m, (setup.course input).machine? report.steps = some m ∧
    setup.stop? (Run.askedAt cancelled trace report.steps) report.steps m = some report.ending
  clear : Run.Clear setup cancelled trace report.steps
  trace_eq : report.trace = Run.traceWith trace ((setup.course input).rows report.steps)

/-- What a run has come to is on the course of its machine. -/
def Turn.OnCourse (setup : Setup) (input : List UInt8) (cancelled : Bool) (trace : Option Sink) :
    Turn → Prop
  | running r => r.OnCourse setup input cancelled trace
  | ended report => report.OnCourse setup input cancelled trace

/-- What a run has come to has the trace of as many rows as it has completed instructions. -/
theorem Turn.OnCourse.trace_eq {setup : Setup} {input : List UInt8} {cancelled : Bool}
    {trace : Option Sink} {t : Turn} (h : t.OnCourse setup input cancelled trace) :
    t.trace = Run.traceWith trace ((setup.course input).rows t.steps) := by
  cases t with
  | running r => exact Run.OnCourse.trace_eq h
  | ended report => exact Report.OnCourse.trace_eq h

theorem Turn.OnCourse.clear {setup : Setup} {input : List UInt8} {cancelled : Bool}
    {trace : Option Sink} {t : Turn} (h : t.OnCourse setup input cancelled trace) :
    Run.Clear setup cancelled trace t.steps := by
  cases t with
  | running r => exact Run.OnCourse.clear h
  | ended report => exact Report.OnCourse.clear h

theorem Turn.OnCourse.exists_machine? {setup : Setup} {input : List UInt8} {cancelled : Bool}
    {trace : Option Sink} {t : Turn} (h : t.OnCourse setup input cancelled trace) :
    ∃ m, (setup.course input).machine? t.steps = some m := by
  cases t with
  | running r => exact ⟨_, Run.OnCourse.machine_eq h⟩
  | ended report =>
    obtain ⟨m, hm, -⟩ := Report.OnCourse.ending_eq h
    exact ⟨m, hm⟩

/-! ## What ends a run -/

section Stop

variable {setup : Setup} {cancelled : Bool} {steps : Nat} {m : Machine} {i : Instruction}
  {fault : Fault}

theorem Setup.stop?_of_end (h : setup.program.instruction? m.ip = none) :
    setup.stop? cancelled steps m = some (.finished m) := by
  simp only [stop?, h]

theorem Setup.stop?_of_obstacle (hi : setup.program.instruction? m.ip = some i)
    (ho : Run.obstacle? setup cancelled steps = some fault) :
    setup.stop? cancelled steps m = some (.failed fault) := by
  simp only [stop?, hi, ho]

theorem Setup.stop?_of_fault (hi : setup.program.instruction? m.ip = some i)
    (ho : Run.obstacle? setup cancelled steps = none)
    (hp : m.perform setup.program setup.policy i = .error fault) :
    setup.stop? cancelled steps m = some (.failed fault) := by
  simp only [stop?, hi, ho, hp]

theorem Setup.cases_of_stop? {ending : Ending} (h : setup.stop? cancelled steps m = some ending) :
    (setup.program.instruction? m.ip = none ∧ ending = .finished m) ∨
    ∃ i, setup.program.instruction? m.ip = some i ∧
      ((∃ fault, Run.obstacle? setup cancelled steps = some fault ∧ ending = .failed fault) ∨
        Run.obstacle? setup cancelled steps = none ∧
          ∃ fault, m.perform setup.program setup.policy i = .error fault ∧
            ending = .failed fault) := by
  cases hi : setup.program.instruction? m.ip with
  | none =>
    rw [stop?_of_end hi] at h
    exact .inl ⟨rfl, (Option.some.inj h).symm⟩
  | some i =>
    refine .inr ⟨i, rfl, ?_⟩
    cases ho : Run.obstacle? setup cancelled steps with
    | some fault =>
      rw [stop?_of_obstacle hi ho] at h
      exact .inl ⟨fault, rfl, (Option.some.inj h).symm⟩
    | none =>
      refine .inr ⟨rfl, ?_⟩
      cases hp : m.perform setup.program setup.policy i with
      | error fault =>
        rw [stop?_of_fault hi ho hp] at h
        exact ⟨fault, rfl, (Option.some.inj h).symm⟩
      | ok result => simp only [stop?, hi, ho, hp, reduceCtorEq] at h

/-- A machine that nothing ends completes its instruction. -/
theorem Setup.exists_step?_of_stop? (input : List UInt8)
    (h : setup.stop? cancelled steps m = none) :
    ∃ done row, (setup.course input).step? m = some (done, row) := by
  cases hi : setup.program.instruction? m.ip with
  | none => rw [stop?_of_end hi] at h; cases h
  | some i =>
    cases ho : Run.obstacle? setup cancelled steps with
    | some fault => rw [stop?_of_obstacle hi ho] at h; cases h
    | none =>
      cases hp : m.perform setup.program setup.policy i with
      | error fault => rw [stop?_of_fault hi ho hp] at h; cases h
      | ok result => exact ⟨result.1, result.2, Course.step?_eq_some_iff.2 ⟨i, hi, hp⟩⟩

end Stop

/-! ## Progress -/

section Progress

variable {setup : Setup} {input : List UInt8} {cancelled : Bool} {trace : Option Sink} {r : Run}
  {report report' : Report} {n : Nat}

theorem Setup.execute_eq_some_iff : setup.execute n input cancelled trace = some report ↔
    setup.progress n input cancelled trace = .ended report := by
  rw [execute, progress]
  cases Run.start input cancelled trace with
  | ended first => simp
  | running first =>
    simp only [Run.finish]
    cases Run.advance setup n first <;> simp

/-- A run ends in one way only. -/
theorem Setup.Ends.unique (h : setup.Ends input cancelled trace report)
    (h' : setup.Ends input cancelled trace report') : report = report' := by
  obtain ⟨n, hn⟩ := h
  obtain ⟨n', hn'⟩ := h'
  have hmax := execute_mono (Nat.le_max_left n n') hn
  have hmax' := execute_mono (Nat.le_max_right n n') hn'
  exact Option.some.inj (hmax.symm.trans hmax')

theorem Setup.progress_add (h : setup.progress n input cancelled trace = .running r) (m : Nat) :
    setup.progress (n + m) input cancelled trace = r.advance setup m := by
  simp only [progress] at h ⊢
  cases hstart : Run.start input cancelled trace with
  | ended first => rw [hstart] at h; cases h
  | running first =>
    rw [hstart] at h
    exact Run.advance_add_of_running h m

theorem Run.advance_one (setup : Setup) (r : Run) : r.advance setup 1 = r.turn setup := by
  simp only [advance]
  cases r.turn setup <;> rfl

theorem Setup.progress_succ (h : setup.progress n input cancelled trace = .running r) :
    setup.progress (n + 1) input cancelled trace = r.turn setup := by
  rw [progress_add h, Run.advance_one]

/-- A run that has ended has ended for good. -/
theorem Setup.progress_of_ended (h : setup.progress n input cancelled trace = .ended report) {m : Nat}
    (hnm : n ≤ m) : setup.progress m input cancelled trace = .ended report :=
  execute_eq_some_iff.1 (execute_mono hnm (execute_eq_some_iff.2 h))

/-- A run that goes on after a turn has been there before it. -/
theorem Setup.exists_turn_of_progress_succ
    (h : setup.progress (n + 1) input cancelled trace = .running r) :
    ∃ r', setup.progress n input cancelled trace = .running r' ∧ r'.turn setup = .running r := by
  cases hn : setup.progress n input cancelled trace with
  | ended report =>
    rw [progress_of_ended hn (Nat.le_succ n)] at h
    cases h
  | running r' =>
    rw [progress_succ hn] at h
    exact ⟨r', rfl, h⟩

/-- A run that has ended has ended with its head or with a turn. -/
theorem Setup.start_or_turn_of_ended (h : setup.progress n input cancelled trace = .ended report) :
    Run.start input cancelled trace = .ended report ∨
      ∃ k r, setup.progress k input cancelled trace = .running r ∧
        r.turn setup = .ended report := by
  induction n with
  | zero =>
    unfold progress at h
    cases hstart : Run.start input cancelled trace with
    | ended first =>
      rw [hstart] at h
      exact .inl (congrArg Turn.ended (Turn.ended.inj h))
    | running first =>
      rw [hstart] at h
      cases h
  | succ n ih =>
    cases hn : setup.progress n input cancelled trace with
    | ended report' =>
      rw [progress_of_ended hn (Nat.le_succ n)] at h
      exact ih (hn.trans h)
    | running r =>
      rw [progress_succ hn] at h
      exact .inr ⟨n, r, hn, h⟩

/-- An untraced run that has ended has ended with a turn. -/
theorem Setup.exists_turn_of_ended (h : setup.progress n input cancelled none = .ended report) :
    ∃ k r, setup.progress k input cancelled none = .running r ∧ r.turn setup = .ended report := by
  rcases start_or_turn_of_ended h with hstart | hturn
  · cases hstart
  · exact hturn

end Progress

namespace Run

variable {setup : Setup} {input : List UInt8} {cancelled : Bool} {trace : Option Sink}

/-! ## Every turn stays on the course -/

theorem capacity_of_fresh (htrace : ∀ sink ∈ trace, sink.Fresh) :
    ∀ sink ∈ trace, sink.capacity = none :=
  fun sink hsink => (htrace sink hsink).capacity_eq

theorem capacity_none : ∀ sink ∈ (none : Option Sink), sink.capacity = none := by simp

/-- A request to stop is never taken back. -/
theorem askedAt_or (cancelled : Bool) (trace : Option Sink) (k : Nat) :
    (askedAt cancelled trace k || trace.any fun sink =>
      sink.cancelAt.any fun n => n ≤ sink.lines + (2 + (k + 1))) =
    askedAt cancelled trace (k + 1) := by
  cases trace with
  | none => simp [askedAt]
  | some sink =>
    cases hcancel : sink.cancelAt with
    | none => simp [askedAt, hcancel]
    | some n =>
      simp only [askedAt, hcancel, Option.any_some, Bool.or_assoc]
      congr 1
      rw [Bool.eq_iff_iff, Bool.or_eq_true]
      simp only [decide_eq_true_eq]
      omega

/-- A trace that takes everything lets every instruction be completed. -/
theorem complete_traceWith (htrace : ∀ sink ∈ trace, sink.capacity = none) (cancelled : Bool)
    (machine : Machine) (rows : List Row) (row : Row) :
    complete machine rows.length (askedAt cancelled trace rows.length) (traceWith trace rows) row =
      .running ⟨machine, rows.length + 1, askedAt cancelled trace (rows.length + 1),
        traceWith trace (rows ++ [row])⟩ := by
  rw [← askedAt_or]
  cases trace with
  | none => simp [complete, traceWith]
  | some sink =>
    have hwrite := Sink.writeLine_after (htrace sink rfl) (Row.table rows) (row.line rows.length)
    rw [← Row.table_concat] at hwrite
    simp only [complete, traceWith, Option.map_some, hwrite, Sink.asksToCancel_after,
      Row.length_table, List.length_append, List.length_singleton, Option.any_some]

theorem start_eq (htrace : ∀ sink ∈ trace, sink.capacity = none) (input : List UInt8)
    (cancelled : Bool) : start input cancelled trace =
      .running ⟨Machine.start input, 0, askedAt cancelled trace 0, traceWith trace []⟩ := by
  cases trace with
  | none => simp [start, askedAt, traceWith]
  | some sink =>
    have hheadings := Sink.writeLine_after (htrace sink rfl) [] Row.headings
    have hruler := Sink.writeLine_after (htrace sink rfl) [Row.headings] Row.ruler
    rw [Sink.after_nil, List.nil_append] at hheadings
    simp only [start, hheadings, hruler, Sink.asksToCancel_after]
    rfl

/-- In front of an instruction that the course completes, a run that meets no obstacle completes it
too. -/
theorem turn_of_step? (htrace : ∀ sink ∈ trace, sink.capacity = none) {k : Nat} {m done : Machine}
    {row : Row} (hm : (setup.course input).machine? k = some m)
    (hstep : (setup.course input).step? m = some (done, row))
    (ho : obstacle? setup (askedAt cancelled trace k) k = none) :
    turn setup ⟨m, k, askedAt cancelled trace k, traceWith trace ((setup.course input).rows k)⟩ =
      .running ⟨done, k + 1, askedAt cancelled trace (k + 1),
        traceWith trace ((setup.course input).rows (k + 1))⟩ := by
  obtain ⟨i, hi, hp⟩ := Course.step?_eq_some_iff.1 hstep
  have hcomplete := complete_traceWith htrace cancelled done ((setup.course input).rows k) row
  rw [Course.length_rows hm, ← Course.rows_succ_of_step? hm hstep] at hcomplete
  have hturn := turn_of_perform (r := ⟨m, k, askedAt cancelled trace k, traceWith trace
    ((setup.course input).rows k)⟩) (Program.instruction?_eq_some_iff.1 hi) ho hp
  exact hturn.trans hcomplete

theorem onCourse_start (htrace : ∀ sink ∈ trace, sink.capacity = none) (setup : Setup)
    (input : List UInt8) (cancelled : Bool) :
    (start input cancelled trace).OnCourse setup input cancelled trace := by
  rw [start_eq htrace]
  exact ⟨rfl, fun k hk => absurd hk (Nat.not_lt_zero k), rfl, rfl⟩

/-- A turn that attempts an instruction. -/
theorem OnCourse.turn_instruction (htrace : ∀ sink ∈ trace, sink.capacity = none) {r : Run}
    (h : r.OnCourse setup input cancelled trace) {i : Instruction}
    (hi : setup.program.code[r.machine.ip]? = some i.char) :
    (r.turn setup).OnCourse setup input cancelled trace := by
  have hmachine := h.machine_eq
  rw [Machine.settle_of_instruction hi] at hmachine
  have hinstruction := Program.instruction?_eq_some_iff.2 hi
  cases ho : obstacle? setup r.cancelled r.steps with
  | some fault =>
    rw [turn_of_obstacle hi ho]
    refine ⟨⟨r.machine, hmachine, ?_⟩, h.clear, h.trace_eq⟩
    exact Setup.stop?_of_obstacle hinstruction (h.cancelled_eq ▸ ho)
  | none =>
    cases hp : r.machine.perform setup.program setup.policy i with
    | error fault =>
      rw [turn_of_fault hi ho hp]
      refine ⟨⟨r.machine, hmachine, ?_⟩, h.clear, h.trace_eq⟩
      exact Setup.stop?_of_fault hinstruction (h.cancelled_eq ▸ ho) hp
    | ok result =>
      obtain ⟨machine, row⟩ := result
      have hstep : (setup.course input).step? r.machine = some (machine, row) :=
        Course.step?_eq_some_iff.2 ⟨i, hinstruction, hp⟩
      rw [h.cancelled_eq] at ho
      have hturn := turn_of_step? htrace hmachine hstep ho
      rw [← h.cancelled_eq, ← h.trace_eq] at hturn
      rw [hturn]
      refine ⟨Course.machine?_succ_of_step? hmachine hstep, fun k hk => ?_, rfl, rfl⟩
      rcases Nat.lt_or_eq_of_le (Nat.le_of_lt_succ hk) with hlt | rfl
      · exact h.clear k hlt
      · exact ho

/-- A turn keeps a run on the course of its machine. -/
theorem OnCourse.turn (htrace : ∀ sink ∈ trace, sink.capacity = none) {r : Run}
    (h : r.OnCourse setup input cancelled trace) :
    (r.turn setup).OnCourse setup input cancelled trace := by
  cases hc : setup.program.code[r.machine.ip]? with
  | none =>
    have hmachine := h.machine_eq
    rw [Machine.settle_of_end hc] at hmachine
    rw [turn_of_end hc]
    refine ⟨⟨r.machine, hmachine, ?_⟩, h.clear, h.trace_eq⟩
    exact Setup.stop?_of_end (by rw [Program.instruction?, hc, Option.bind_none])
  | some c =>
    rcases ofChar?_cases c with hno | ⟨i, rfl⟩
    · rw [turn_of_comment hc hno]
      have hmachine := h.machine_eq
      rw [← Machine.settle_skip hc hno] at hmachine
      exact ⟨hmachine, h.clear, h.cancelled_eq, h.trace_eq⟩
    · exact h.turn_instruction htrace hc

theorem OnCourse.advance (htrace : ∀ sink ∈ trace, sink.capacity = none) {r : Run}
    (h : r.OnCourse setup input cancelled trace) (n : Nat) :
    (r.advance setup n).OnCourse setup input cancelled trace := by
  induction n generalizing r with
  | zero => exact h
  | succ n ih =>
    have hturn := h.turn htrace
    cases ht : r.turn setup with
    | ended report =>
      rw [advance_succ_of_ended ht]
      exact ht ▸ hturn
    | running r' =>
      rw [advance_succ_of_running ht]
      rw [ht] at hturn
      exact ih hturn

/-- Whatever a run has come to is on the course of its machine. -/
theorem onCourse_progress (htrace : ∀ sink ∈ trace, sink.capacity = none) (setup : Setup) (n : Nat)
    (input : List UInt8) (cancelled : Bool) :
    (setup.progress n input cancelled trace).OnCourse setup input cancelled trace := by
  have hstart := onCourse_start htrace setup input cancelled
  rw [start_eq htrace] at hstart
  simp only [Setup.progress, start_eq htrace]
  exact OnCourse.advance htrace hstart n

/-- A run without a trace is given none. -/
theorem trace_progress_none (setup : Setup) (n : Nat) (input : List UInt8) (cancelled : Bool) :
    (setup.progress n input cancelled none).trace = none :=
  (onCourse_progress capacity_none setup n input cancelled).trace_eq

/-- What a run has written: the table of the instructions it has completed. -/
theorem written_of_progress (htrace : ∀ sink ∈ trace, sink.Fresh) (setup : Setup) (n : Nat)
    (input : List UInt8) (cancelled : Bool) :
    ∀ sink ∈ (setup.progress n input cancelled trace).trace,
      sink.written = (Text.ofLines (Row.table ((setup.course input).rows
        (setup.progress n input cancelled trace).steps))).toUTF8 := by
  intro sink hsink
  have hcourse := onCourse_progress (capacity_of_fresh htrace) setup n input cancelled
  rw [hcourse.trace_eq, traceWith, Option.mem_def, Option.map_eq_some_iff] at hsink
  obtain ⟨first, hfirst, rfl⟩ := hsink
  exact (htrace first hfirst).written_after _

/-- A run that has completed more instructions has written the same rows first. -/
theorem exists_written_of_le (htrace : ∀ sink ∈ trace, sink.Fresh) (setup : Setup) (n : Nat)
    (input : List UInt8) (cancelled : Bool) {k : Nat}
    (hk : k ≤ (setup.progress n input cancelled trace).steps) :
    ∀ sink ∈ (setup.progress n input cancelled trace).trace, ∃ more, sink.written =
      (Text.ofLines (Row.table ((setup.course input).rows k ++ more))).toUTF8 := by
  intro sink hsink
  obtain ⟨more, hmore⟩ := Course.rows_prefix (setup.course input) hk
  refine ⟨more, ?_⟩
  rw [hmore]
  exact written_of_progress htrace setup n input cancelled sink hsink

/-! ## The course is followed as far as it is clear -/

theorem exists_advance_of_comments {ip stop : Nat} (h : setup.program.Comments ip stop) {r : Run}
    (hip : r.machine.ip = ip) :
    ∃ n, r.advance setup n = .running { r with machine := { r.machine with ip := stop } } := by
  induction h generalizing r with
  | refl ip => exact ⟨0, by rw [← hip]; rfl⟩
  | step hc hno _ ih =>
    subst hip
    have hturn := turn_of_comment hc hno
    obtain ⟨n, hn⟩ := ih (r := { r with machine := r.machine.skip }) rfl
    exact ⟨n + 1, (advance_succ_of_running hturn n).trans hn⟩

/-- A run comes to the next instruction or to the end. -/
theorem exists_advance_settle (setup : Setup) (r : Run) :
    ∃ n, r.advance setup n = .running { r with machine := r.machine.settle setup.program } :=
  exists_advance_of_comments (setup.program.comments_place r.machine.ip).1 rfl

/-- A run comes to the front of instruction number `k` if there is no obstacle before that. -/
theorem exists_progress (htrace : ∀ sink ∈ trace, sink.capacity = none) {k : Nat} {m : Machine}
    (hm : (setup.course input).machine? k = some m) (hclear : Clear setup cancelled trace k) :
    ∃ n, setup.progress n input cancelled trace = .running ⟨m, k, askedAt cancelled trace k,
      traceWith trace ((setup.course input).rows k)⟩ := by
  induction k generalizing m with
  | zero =>
    cases hm
    obtain ⟨n, hn⟩ := exists_advance_settle setup ⟨Machine.start input, 0,
      askedAt cancelled trace 0, traceWith trace []⟩
    refine ⟨n, ?_⟩
    simp only [Setup.progress, start_eq htrace]
    exact hn
  | succ k ih =>
    obtain ⟨m', done, row, hm', hstep, rfl⟩ := Course.exists_step?_of_machine?_succ hm
    obtain ⟨n, hn⟩ := ih hm' fun j hj => hclear j (Nat.lt_succ_of_lt hj)
    have hturn := turn_of_step? htrace hm' hstep (hclear k (Nat.lt_succ_self k))
    have hnext := (Setup.progress_succ hn).trans hturn
    obtain ⟨l, hl⟩ := exists_advance_settle setup ⟨done, k + 1, askedAt cancelled trace (k + 1),
      traceWith trace ((setup.course input).rows (k + 1))⟩
    exact ⟨n + 1 + l, (Setup.progress_add hnext l).trans hl⟩

/-- A run that has come to where it stops ends there. -/
theorem turn_of_stop? {r : Run} {ending : Ending}
    (hplace : setup.program.code[r.machine.ip]? = none ∨
      ∃ i, setup.program.code[r.machine.ip]? = some (Instruction.char i))
    (h : setup.stop? r.cancelled r.steps r.machine = some ending) :
    r.turn setup = .ended ⟨ending, r.steps, r.trace⟩ := by
  rcases Setup.cases_of_stop? h with ⟨hnone, rfl⟩ | ⟨i, hi, hstop⟩
  · rcases hplace with hend | ⟨i, hi⟩
    · exact turn_of_end hend
    · cases hnone.symm.trans (Program.instruction?_eq_some_iff.2 hi)
  · have hchar := Program.instruction?_eq_some_iff.1 hi
    rcases hstop with ⟨fault, ho, rfl⟩ | ⟨ho, fault, hp, rfl⟩
    · exact turn_of_obstacle hchar ho
    · exact turn_of_fault hchar ho hp

/-! ## Two runs on one course -/

/-- Two runs of one program on one input, under whatever control, and a moment of the first one.  If
there is no obstacle in the way of the second run up to there, it has written the same rows at some
moment, and more rows behind them whenever it has completed more instructions. -/
theorem exists_rows_of_clear {setup setup' : Setup} {cancelled cancelled' : Bool}
    {first first' : Sink} (hfirst : first.Fresh) (hfirst' : first'.Fresh)
    (hsame : setup.course input = setup'.course input) {n : Nat}
    (hclear : Clear setup' cancelled' (some first')
      (setup.progress n input cancelled (some first)).steps) :
    ∃ rows : List Row,
      (setup.progress n input cancelled (some first)).trace = some (first.after (Row.table rows)) ∧
      rows.length = (setup.progress n input cancelled (some first)).steps ∧
      (∃ n', (setup'.progress n' input cancelled' (some first')).trace =
        some (first'.after (Row.table rows))) ∧
      ∀ n', ∀ later ∈ (setup'.progress n' input cancelled' (some first')).trace,
        rows.length ≤ (setup'.progress n' input cancelled' (some first')).steps →
        ∃ more, later.written = (Text.ofLines (Row.table (rows ++ more))).toUTF8 := by
  have htrace : ∀ sink ∈ some first, sink.Fresh := fun _ hs => Option.some.inj hs ▸ hfirst
  have htrace' : ∀ sink ∈ some first', sink.Fresh := fun _ hs => Option.some.inj hs ▸ hfirst'
  have hcourse := onCourse_progress (capacity_of_fresh htrace) setup n input cancelled
  obtain ⟨m, hm⟩ := hcourse.exists_machine?
  have hlength := Course.length_rows hm
  refine ⟨_, hcourse.trace_eq, hlength, ?_, fun n' later hlater hle => ?_⟩
  · rw [hsame] at hm
    obtain ⟨n', hn'⟩ := exists_progress (capacity_of_fresh htrace') hm hclear
    refine ⟨n', ?_⟩
    rw [hn', hsame]
    rfl
  · rw [hlength] at hle
    rw [hsame]
    exact exists_written_of_le htrace' setup' n' input cancelled' hle later hlater

end Run

/-- A run with a trace that takes everything ends with a report if and only if the report is on the
course of its machine. -/
theorem Setup.ends_iff {setup : Setup} {input : List UInt8} {cancelled : Bool} {trace : Option Sink}
    (htrace : ∀ sink ∈ trace, sink.capacity = none) {report : Report} :
    setup.Ends input cancelled trace report ↔ report.OnCourse setup input cancelled trace := by
  constructor
  · rintro ⟨n, hn⟩
    have hcourse := Run.onCourse_progress htrace setup n input cancelled
    rw [execute_eq_some_iff.1 hn] at hcourse
    exact hcourse
  · rintro ⟨⟨m, hm, hstop⟩, hclear, htrace_eq⟩
    obtain ⟨n, hn⟩ := Run.exists_progress htrace hm hclear
    have hended := (progress_succ hn).trans (Run.turn_of_stop? (Course.place_of_machine? hm) hstop)
    rw [← htrace_eq] at hended
    exact ⟨n + 1, execute_eq_some_iff.2 hended⟩

end TapeMachine
