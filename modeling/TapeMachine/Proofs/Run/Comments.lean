import TapeMachine.Proofs.Program.Comments
import TapeMachine.Proofs.Run.Progress
import TapeMachine.Proofs.Trace.Reading
set_option autoImplicit false

/-!
# Run: comments are inert

The run of a program next to the run of its instructions.  The turns do not correspond, since a
comment takes a turn, but the courses of the two machines do: instruction number `k` is the same in
both, at its place in the one and in the other (`machine?_commented`).  The places appear in faults
and in rows.

Main statement: `Program.ofSource_stripped`, for every source and for the runs under every policy,
limit and request to stop.
-/

namespace TapeMachine

/-- The columns of the same instruction at its new place. -/
def Row.Columns.relocated (f : Nat → Nat) (c : Columns) : Columns := { c with ip := f c.ip }

/-- There is no trace in either case, or both have the same rows up to the places of the
instructions. -/
def Sink.Matches (f : Nat → Nat) (trace trace' : Option Sink) : Prop :=
  match trace, trace' with
  | none, none => True
  | some sink, some sink' =>
    ∃ columns, sink'.Holds columns ∧ sink.Holds (columns.map (Row.Columns.relocated f))
  | _, _ => False

/-- The reports are of runs that did the same, up to the places of the instructions. -/
structure Report.Matches (f : Nat → Nat) (report report' : Report) : Prop where
  outcome_eq : report.outcome = report'.outcome.mapError (Fault.relocated f)
  steps_eq : report.steps = report'.steps
  trace_matches : Sink.Matches f report.trace report'.trace

/-- So far both runs have completed as many instructions, the same ones up to their places. -/
def Turn.Matches (f : Nat → Nat) (t t' : Turn) : Prop :=
  t.steps = t'.steps ∧ Sink.Matches f t.trace t'.trace

section Commented

variable {f : Nat → Nat} {p q : Program} {policy : EofPolicy} {maxSteps : Option Nat}
  {input : List UInt8} {cancelled : Bool} {trace : Option Sink}

/-! ## The course -/

theorem Program.Commented.instruction?_eq (h : Commented f q p) (ip : Nat) :
    p.instruction? (f ip) = q.instruction? ip := by
  unfold instruction?
  rw [h.code_eq]

/-- Past the comments behind an instruction the next one follows. -/
theorem Machine.settle_relocated (h : Program.Commented f q p) {m : Machine} {j : Nat}
    (hj : m.ip = j + 1) :
    (m.relocated (behind f) #[]).settle p = (m.settle q).relocated f #[] := by
  simp only [settle, relocated, hj, behind_succ, h.place_succ]

namespace Course

theorem step?_commented (h : Program.Commented f q p) (start start' m : Machine) :
    step? ⟨p, policy, start⟩ (m.relocated f #[]) =
      (step? ⟨q, policy, start'⟩ m).map fun done =>
        (done.1.relocated (behind f) #[], done.2.relocated f) := by
  simp only [step?, Machine.relocated_ip, h.instruction?_eq]
  cases q.instruction? m.ip with
  | none => rfl
  | some i =>
    simp only [Option.bind_some, Machine.perform_relocated policy i #[] (h.partner_eq m.ip)]
    cases m.perform q policy i <;> rfl

/-- The machine in front of each instruction is the same at its place. -/
theorem machine?_commented (h : Program.Commented f q p) (k : Nat) :
    machine? ⟨p, policy, Machine.start input⟩ k =
      (machine? ⟨q, policy, Machine.start input⟩ k).map (Machine.relocated f #[]) := by
  induction k with
  | zero =>
    have hzero : p.place (Machine.start input).ip = f (q.place (Machine.start input).ip) :=
      h.place_zero
    simp only [machine?, Machine.settle, hzero]
    rfl
  | succ k ih =>
    simp only [machine?, ih]
    cases machine? ⟨q, policy, Machine.start input⟩ k with
    | none => rfl
    | some m =>
      simp only [Option.map_some, Option.bind_some]
      rw [step?_commented h _ (Machine.start input)]
      cases hstep : step? ⟨q, policy, Machine.start input⟩ m with
      | none => rfl
      | some result =>
        obtain ⟨done, row⟩ := result
        obtain ⟨i, -, hp⟩ := step?_eq_some_iff.1 hstep
        obtain ⟨j, hj, -⟩ := Machine.ip_of_perform hp
        simp only [Option.map_some, Machine.settle_relocated h hj]

theorem row?_commented (h : Program.Commented f q p) (k : Nat) :
    row? ⟨p, policy, Machine.start input⟩ k =
      (row? ⟨q, policy, Machine.start input⟩ k).map (Row.relocated f) := by
  unfold row?
  rw [machine?_commented h]
  cases machine? ⟨q, policy, Machine.start input⟩ k with
  | none => rfl
  | some m =>
    simp only [Option.map_some, Option.bind_some]
    rw [step?_commented h _ (Machine.start input), Option.map_map, Option.map_map]
    rfl

theorem rows_commented (h : Program.Commented f q p) (k : Nat) :
    rows ⟨p, policy, Machine.start input⟩ k =
      (rows ⟨q, policy, Machine.start input⟩ k).map (Row.relocated f) := by
  have hrow : row? ⟨p, policy, Machine.start input⟩ =
      fun k => (row? ⟨q, policy, Machine.start input⟩ k).map (Row.relocated f) :=
    funext (row?_commented h)
  rw [rows, rows, hrow, List.map_filterMap]

end Course

/-- What ends the one run ends the other. -/
theorem Setup.stop?_commented (h : Program.Commented f q p) (steps : Nat) (m : Machine) :
    stop? ⟨p, policy, maxSteps⟩ cancelled steps (m.relocated f #[]) =
      (stop? ⟨q, policy, maxSteps⟩ cancelled steps m).map (Ending.relocated f #[]) := by
  have hobstacle : Run.obstacle? ⟨p, policy, maxSteps⟩ cancelled steps =
      Run.obstacle? ⟨q, policy, maxSteps⟩ cancelled steps := rfl
  simp only [stop?, Machine.relocated_ip, h.instruction?_eq, hobstacle]
  cases q.instruction? m.ip with
  | none => rfl
  | some i =>
    cases ho : Run.obstacle? ⟨q, policy, maxSteps⟩ cancelled steps with
    | some fault =>
      simp only [Option.map_some, Ending.relocated, Fault.relocated_of_obstacle ho]
    | none =>
      simp only [Machine.perform_relocated policy i #[] (h.partner_eq m.ip)]
      cases m.perform q policy i <;> rfl

/-! ## What is written -/

theorem Row.columns_relocated (f : Nat → Nat) (rows : List Row) :
    (rows.map (relocated f)).mapIdx columns = (rows.mapIdx columns).map (Columns.relocated f) := by
  apply List.ext_getElem?
  intro step
  simp only [List.getElem?_map, List.getElem?_mapIdx, Option.map_map]
  rfl

/-- The traces of the first `k` instructions. -/
theorem Sink.matches_rows (h : Program.Commented f q p) (htrace : ∀ sink ∈ trace, sink.Fresh)
    (k : Nat) :
    Sink.Matches f (Run.traceWith trace ((Setup.course ⟨p, policy, maxSteps⟩ input).rows k))
      (Run.traceWith trace ((Setup.course ⟨q, policy, maxSteps⟩ input).rows k)) := by
  cases trace with
  | none => trivial
  | some sink =>
    have hfresh := htrace sink rfl
    have hrows : (Setup.course ⟨p, policy, maxSteps⟩ input).rows k = _ := Course.rows_commented h k
    refine ⟨_, hfresh.holds_table _, ?_⟩
    rw [hrows, ← Row.columns_relocated]
    exact hfresh.holds_table _

/-! ## The two runs -/

/-- A run of the instructions that has ended has ended in the same way with the comments. -/
theorem Report.OnCourse.commented (h : Program.Commented f q p) {report : Report}
    (hcourse : report.OnCourse ⟨q, policy, maxSteps⟩ input cancelled trace) :
    Report.OnCourse ⟨p, policy, maxSteps⟩ input cancelled trace
      ⟨report.ending.relocated f #[], report.steps, Run.traceWith trace
        ((Setup.course ⟨p, policy, maxSteps⟩ input).rows report.steps)⟩ := by
  obtain ⟨⟨m, hm, hstop⟩, hclear, -⟩ := hcourse
  refine ⟨⟨m.relocated f #[], ?_, ?_⟩, hclear, rfl⟩
  · exact (Course.machine?_commented h report.steps).trans (congrArg _ hm)
  · exact (Setup.stop?_commented h report.steps m).trans (congrArg _ hstop)

/-- A run with comments that has ended has ended in the same way without them. -/
theorem Report.OnCourse.exists_commented (h : Program.Commented f q p) {report : Report}
    (hcourse : report.OnCourse ⟨p, policy, maxSteps⟩ input cancelled trace) :
    ∃ ending, report.ending = ending.relocated f #[] ∧
      Report.OnCourse ⟨q, policy, maxSteps⟩ input cancelled trace
        ⟨ending, report.steps, Run.traceWith trace
          ((Setup.course ⟨q, policy, maxSteps⟩ input).rows report.steps)⟩ := by
  obtain ⟨⟨m, hm, hstop⟩, hclear, -⟩ := hcourse
  have hmachine := (Course.machine?_commented h report.steps).symm.trans hm
  obtain ⟨m', hm', rfl⟩ := Option.map_eq_some_iff.1 hmachine
  rw [Setup.stop?_commented h] at hstop
  obtain ⟨ending, hending, hrelocated⟩ := Option.map_eq_some_iff.1 hstop
  exact ⟨ending, hrelocated.symm, ⟨⟨m', hm', hending⟩, hclear, rfl⟩⟩

/-- Reports with the same ending on the two courses match. -/
theorem Report.matches_of_onCourse (h : Program.Commented f q p)
    (htrace : ∀ sink ∈ trace, sink.Fresh) {report report' : Report}
    (hcourse : report.OnCourse ⟨p, policy, maxSteps⟩ input cancelled trace)
    (hcourse' : report'.OnCourse ⟨q, policy, maxSteps⟩ input cancelled trace)
    (hending : report.ending = report'.ending.relocated f #[])
    (hsteps : report.steps = report'.steps) : report.Matches f report' where
  outcome_eq := by
    unfold outcome
    rw [hending]
    cases report'.ending with
    | finished m => exact congrArg Except.ok Array.empty_append
    | failed fault => rfl
  steps_eq := hsteps
  trace_matches := by
    rw [hcourse.trace_eq, hcourse'.trace_eq, hsteps]
    exact Sink.matches_rows h htrace _

/-- If the run with comments ends, the run without them ends in the same way. -/
theorem Setup.Ends.exists_stripped (h : Program.Commented f q p)
    (htrace : ∀ sink ∈ trace, sink.Fresh) {report : Report}
    (hends : Ends ⟨p, policy, maxSteps⟩ input cancelled trace report) :
    ∃ report', Ends ⟨q, policy, maxSteps⟩ input cancelled trace report' ∧
      report.Matches f report' := by
  have hcapacity := Run.capacity_of_fresh htrace
  have hcourse := (ends_iff hcapacity).1 hends
  obtain ⟨ending, hending, hcourse'⟩ := hcourse.exists_commented h
  refine ⟨_, (ends_iff hcapacity).2 hcourse', ?_⟩
  exact Report.matches_of_onCourse h htrace hcourse hcourse' hending rfl

/-- If the run without comments ends, the run with them ends in the same way. -/
theorem Setup.Ends.exists_commented (h : Program.Commented f q p)
    (htrace : ∀ sink ∈ trace, sink.Fresh) {report' : Report}
    (hends : Ends ⟨q, policy, maxSteps⟩ input cancelled trace report') :
    ∃ report, Ends ⟨p, policy, maxSteps⟩ input cancelled trace report ∧
      report.Matches f report' := by
  have hcapacity := Run.capacity_of_fresh htrace
  have hcourse' := (ends_iff hcapacity).1 hends
  have hcourse := hcourse'.commented h
  refine ⟨_, (ends_iff hcapacity).2 hcourse, ?_⟩
  exact Report.matches_of_onCourse h htrace hcourse hcourse' rfl rfl

/-- Whatever the run with comments has come to, the run without them comes to as much. -/
theorem Setup.exists_progress_stripped (h : Program.Commented f q p)
    (htrace : ∀ sink ∈ trace, sink.Fresh) (n : Nat) :
    ∃ n', (progress ⟨p, policy, maxSteps⟩ n input cancelled trace).Matches f
      (progress ⟨q, policy, maxSteps⟩ n' input cancelled trace) := by
  have hcapacity := Run.capacity_of_fresh htrace
  have hcourse := Run.onCourse_progress hcapacity ⟨p, policy, maxSteps⟩ n input cancelled
  obtain ⟨m, hm⟩ := hcourse.exists_machine?
  have hmachine := (Course.machine?_commented h _).symm.trans hm
  obtain ⟨m', hm', -⟩ := Option.map_eq_some_iff.1 hmachine
  have hcourse' : (course ⟨q, policy, maxSteps⟩ input).machine? _ = some m' := hm'
  obtain ⟨n', hn'⟩ := Run.exists_progress hcapacity hcourse' hcourse.clear
  refine ⟨n', ?_⟩
  rw [hn']
  refine ⟨rfl, ?_⟩
  rw [hcourse.trace_eq]
  exact Sink.matches_rows h htrace _

/-- Whatever the run without comments has come to, the run with them comes to as much. -/
theorem Setup.exists_progress_commented (h : Program.Commented f q p)
    (htrace : ∀ sink ∈ trace, sink.Fresh) (n' : Nat) :
    ∃ n, (progress ⟨p, policy, maxSteps⟩ n input cancelled trace).Matches f
      (progress ⟨q, policy, maxSteps⟩ n' input cancelled trace) := by
  have hcapacity := Run.capacity_of_fresh htrace
  have hcourse := Run.onCourse_progress hcapacity ⟨q, policy, maxSteps⟩ n' input cancelled
  obtain ⟨m', hm'⟩ := hcourse.exists_machine?
  have hm : (course ⟨p, policy, maxSteps⟩ input).machine? _ = some (m'.relocated f #[]) :=
    (Course.machine?_commented h _).trans (congrArg _ hm')
  obtain ⟨n, hn⟩ := Run.exists_progress hcapacity hm hcourse.clear
  refine ⟨n, ?_⟩
  rw [hn]
  refine ⟨rfl, ?_⟩
  rw [hcourse.trace_eq]
  exact Sink.matches_rows h htrace _

end Commented

/-- Comments are inert.  `Text.origin` gives the place in the source of each character of the
stripped source, in order.

* The source is accepted if and only if the stripped one is, and else the faults are the same up to
  their places.
* A run of the one ends if and only if the run of the other ends under the same policy, limit and
  control, on the same input; with the same output, or with the same fault up to its place.
* Whatever one of the runs has written, the other one comes to write as well, the same rows up to
  the places of the instructions. -/
theorem Program.ofSource_stripped (source : String) :
    (∀ i j, i < j → Text.origin source.toList i < Text.origin source.toList j) ∧
    (∀ i : Nat, source.toList[Text.origin source.toList i]? = (stripped source).toList[i]?) ∧
    ((∃ p, ofSource source = .ok p) ↔ ∃ q, ofSource (stripped source) = .ok q) ∧
    (∀ fault, ofSource source = .error fault ↔
      ∃ fault', ofSource (stripped source) = .error fault' ∧
        fault = fault'.relocated (Text.origin source.toList)) ∧
    ∀ p q, ofSource source = .ok p → ofSource (stripped source) = .ok q →
      ∀ (policy : EofPolicy) (maxSteps : Option Nat) (input : List UInt8) (cancelled : Bool)
        (trace : Option Sink), (∀ sink ∈ trace, sink.Fresh) →
        (∀ report, Setup.Ends ⟨p, policy, maxSteps⟩ input cancelled trace report →
          ∃ report', Setup.Ends ⟨q, policy, maxSteps⟩ input cancelled trace report' ∧
            report.Matches (Text.origin source.toList) report') ∧
        (∀ report', Setup.Ends ⟨q, policy, maxSteps⟩ input cancelled trace report' →
          ∃ report, Setup.Ends ⟨p, policy, maxSteps⟩ input cancelled trace report ∧
            report.Matches (Text.origin source.toList) report') ∧
        (∀ n, ∃ n', (Setup.progress ⟨p, policy, maxSteps⟩ n input cancelled trace).Matches
          (Text.origin source.toList)
          (Setup.progress ⟨q, policy, maxSteps⟩ n' input cancelled trace)) ∧
        ∀ n', ∃ n, (Setup.progress ⟨p, policy, maxSteps⟩ n input cancelled trace).Matches
          (Text.origin source.toList)
          (Setup.progress ⟨q, policy, maxSteps⟩ n' input cancelled trace) := by
  have htext : (stripped source).toList = Text.instructions source.toList := String.toList_ofList
  unfold ofSource
  rw [htext]
  refine ⟨fun i j => Text.origin_lt_origin _, Text.getElem?_origin _,
    exists_ofText_instructions _, ofText_eq_error_instructions _, fun p q hp hq => ?_⟩
  intro policy maxSteps input cancelled trace htrace
  have hcommented := commented_of_ofText hp hq
  exact ⟨fun report hends => hends.exists_stripped hcommented htrace,
    fun report' hends => hends.exists_commented hcommented htrace,
    Setup.exists_progress_stripped hcommented htrace,
    Setup.exists_progress_commented hcommented htrace⟩

end TapeMachine
