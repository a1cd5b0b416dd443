import TapeMachine.Proofs.Run.Progress
set_option autoImplicit false

/-!
# Run: a request to stop

What a request to stop changes, whether it is there from the start or comes from the trace while one
of its lines is written.  The run is compared with the undisturbed one, whose trace is muted.  Both go
the same way up to the first attempt that finds the request standing (`clear_or_ends_cancelled`).

Main statement: the run ends as the undisturbed one does or is cancelled, when it is cancelled, and what
it has done and written by then (`ends_muted_or_cancelled`).
-/

namespace TapeMachine

/-- The sink that takes the same and never asks the run to stop. -/
def Sink.muted (s : Sink) : Sink := { s with cancelAt := none }

/-- The report with its trace muted. -/
def Report.muted (report : Report) : Report :=
  { report with trace := report.trace.map Sink.muted }

/-- The run gets to the attempt of instruction number `k`, counted from 0. -/
def Setup.Attempts (setup : Setup) (input : List UInt8) (cancelled : Bool) (trace : Option Sink)
    (k : Nat) : Prop :=
  ∃ n r i, setup.progress n input cancelled trace = .running r ∧ r.steps = k ∧
    setup.program.code[r.machine.ip]? = some (Instruction.char i)

theorem Sink.Fresh.muted {s : Sink} (h : s.Fresh) : s.muted.Fresh :=
  ⟨h.written_eq, h.lines_eq, h.capacity_eq⟩

/-- No instruction fails because of a request to stop. -/
theorem Machine.perform_ne_cancelled (p : Program) (policy : EofPolicy) (i : Instruction)
    (m : Machine) : m.perform p policy i ≠ .error .cancelled := by
  intro h
  simp only [perform] at h
  repeat' split at h
  all_goals cases h

namespace Run

variable {setup : Setup} {input : List UInt8} {cancelled : Bool} {trace : Option Sink} {k : Nat}
  {report : Report}

/-! ## The undisturbed run -/

theorem askedAt_muted (trace : Option Sink) (k : Nat) :
    askedAt false (trace.map Sink.muted) k = false := by
  cases trace <;> rfl

theorem traceWith_muted (trace : Option Sink) (rows : List Row) :
    traceWith (trace.map Sink.muted) rows = (traceWith trace rows).map Sink.muted := by
  cases trace <;> rfl

theorem fresh_muted (htrace : ∀ sink ∈ trace, sink.Fresh) :
    ∀ sink ∈ trace.map Sink.muted, sink.Fresh := by
  intro sink hsink
  obtain ⟨first, hfirst, rfl⟩ := Option.map_eq_some_iff.1 hsink
  exact (htrace first hfirst).muted

/-- The only obstacle more is the request to stop. -/
theorem obstacle?_eq_none_iff {steps : Nat} :
    obstacle? setup cancelled steps = none ↔
      cancelled = false ∧ obstacle? setup false steps = none := by
  cases cancelled <;> simp [obstacle?]

theorem eq_true_of_obstacle? {steps : Nat}
    (h : obstacle? setup cancelled steps = some .cancelled) : cancelled = true := by
  cases cancelled with
  | true => rfl
  | false =>
    simp only [obstacle?, Bool.false_eq_true, if_false] at h
    split at h
    · cases h
    · split at h <;> cases h

theorem Clear.muted (h : Clear setup cancelled trace k) :
    Clear setup false (trace.map Sink.muted) k := by
  intro j hj
  rw [askedAt_muted]
  exact (obstacle?_eq_none_iff.1 (h j hj)).2

/-- The way is clear, or there is a first obstacle. -/
theorem clear_or_exists_obstacle (setup : Setup) (cancelled : Bool) (trace : Option Sink) (k : Nat) :
    Clear setup cancelled trace k ∨ ∃ j < k, Clear setup cancelled trace j ∧
      ∃ fault, obstacle? setup (askedAt cancelled trace j) j = some fault := by
  induction k with
  | zero => exact .inl fun j hj => absurd hj (Nat.not_lt_zero j)
  | succ k ih =>
    rcases ih with hclear | ⟨j, hj, hobstacle⟩
    · cases ho : obstacle? setup (askedAt cancelled trace k) k with
      | some fault => exact .inr ⟨k, Nat.lt_succ_self k, hclear, fault, ho⟩
      | none =>
        refine .inl fun j hj => ?_
        rcases Nat.lt_or_eq_of_le (Nat.le_of_lt_succ hj) with hlt | rfl
        · exact hclear j hlt
        · exact ho
    · exact .inr ⟨j, Nat.lt_succ_of_lt hj, hobstacle⟩

/-! ## Where the request is honoured -/

/-- An attempt that finds the request standing ends the run. -/
theorem ends_cancelled (htrace : ∀ sink ∈ trace, sink.Fresh) {m : Machine} {i : Instruction}
    (hm : (setup.course input).machine? k = some m)
    (hi : setup.program.instruction? m.ip = some i) (hclear : Clear setup cancelled trace k)
    (hasked : askedAt cancelled trace k = true) :
    ∃ report, setup.Ends input cancelled trace report ∧ report.ending = .failed .cancelled := by
  have hstop : setup.stop? (askedAt cancelled trace k) k m = some (.failed .cancelled) :=
    Setup.stop?_of_obstacle hi (by rw [hasked]; rfl)
  exact ⟨⟨.failed .cancelled, k, traceWith trace ((setup.course input).rows k)⟩,
    (Setup.ends_iff (capacity_of_fresh htrace)).2 ⟨⟨m, hm, hstop⟩, hclear, rfl⟩, rfl⟩

/-- Where the undisturbed run gets, the other run gets too, or it is cancelled before. -/
theorem clear_or_ends_cancelled (htrace : ∀ sink ∈ trace, sink.Fresh) {m : Machine}
    (hm : (setup.course input).machine? k = some m)
    (hclear : Clear setup false (trace.map Sink.muted) k) :
    Clear setup cancelled trace k ∨
      ∃ report, setup.Ends input cancelled trace report ∧ report.ending = .failed .cancelled := by
  rcases clear_or_exists_obstacle setup cancelled trace k with
    hall | ⟨j, hj, hbefore, fault, ho⟩
  · exact .inl hall
  · right
    obtain ⟨next, hnext⟩ := Course.exists_machine?_of_le hm (Nat.succ_le_of_lt hj)
    obtain ⟨m', i, hm', hi⟩ := Course.exists_instruction_of_machine?_succ hnext
    have hfree := hclear j hj
    rw [askedAt_muted] at hfree
    cases hasked : askedAt cancelled trace j with
    | true => exact ends_cancelled htrace hm' hi hbefore hasked
    | false => rw [hasked, hfree] at ho; cases ho

/-- A run that was not asked to stop by its last attempt stops like the undisturbed one. -/
theorem stop?_of_ne_cancelled {steps : Nat} {m : Machine} {ending : Ending}
    (h : setup.stop? cancelled steps m = some ending) (hne : ending ≠ .failed .cancelled) :
    setup.stop? false steps m = some ending := by
  cases cancelled with
  | false => exact h
  | true =>
    rcases Setup.cases_of_stop? h with ⟨hend, rfl⟩ | ⟨i, hi, ⟨fault, ho, rfl⟩ | ⟨ho, -⟩⟩
    · exact Setup.stop?_of_end hend
    · cases ho
      exact absurd rfl hne
    · cases ho

/-! ## The two runs compared -/

/-- A run that ends and is not cancelled ends like the undisturbed one. -/
theorem ends_muted (htrace : ∀ sink ∈ trace, sink.Fresh)
    (h : setup.Ends input cancelled trace report) (hne : report.ending ≠ .failed .cancelled) :
    setup.Ends input false (trace.map Sink.muted) report.muted := by
  obtain ⟨⟨m, hm, hstop⟩, hclear, htrace_eq⟩ := (Setup.ends_iff (capacity_of_fresh htrace)).1 h
  have hcapacity := capacity_of_fresh (fresh_muted htrace)
  refine (Setup.ends_iff hcapacity).2 ⟨⟨m, hm, ?_⟩, hclear.muted, ?_⟩
  · rw [askedAt_muted]
    exact stop?_of_ne_cancelled hstop hne
  · rw [traceWith_muted]
    exact congrArg (Option.map Sink.muted) htrace_eq

/-- Where the undisturbed run stops, the other run stops in the same way or is cancelled. -/
theorem stop?_or_ends_cancelled (htrace : ∀ sink ∈ trace, sink.Fresh) {m : Machine}
    {ending : Ending} (hm : (setup.course input).machine? k = some m)
    (hclear : Clear setup cancelled trace k) (hstop : setup.stop? false k m = some ending) :
    setup.stop? (askedAt cancelled trace k) k m = some ending ∨
      ∃ report, setup.Ends input cancelled trace report ∧ report.ending = .failed .cancelled := by
  cases hasked : askedAt cancelled trace k with
  | false => exact .inl hstop
  | true =>
    rcases Setup.cases_of_stop? hstop with ⟨hend, rfl⟩ | ⟨i, hi, -⟩
    · exact .inl (Setup.stop?_of_end hend)
    · exact .inr (ends_cancelled htrace hm hi hclear hasked)

/-- If the undisturbed run ends, the other run ends like it or is cancelled. -/
theorem ends_or_cancelled_of_muted (htrace : ∀ sink ∈ trace, sink.Fresh)
    (h : setup.Ends input false (trace.map Sink.muted) report) :
    ∃ report', setup.Ends input cancelled trace report' ∧
      (report'.ending = .failed .cancelled ∨ report'.muted = report) := by
  have hcapacity := capacity_of_fresh (fresh_muted htrace)
  obtain ⟨⟨m, hm, hstop⟩, hfree, htrace_eq⟩ := (Setup.ends_iff hcapacity).1 h
  rw [askedAt_muted] at hstop
  rw [traceWith_muted] at htrace_eq
  rcases clear_or_ends_cancelled htrace hm hfree with hclear | ⟨report', hends, hcancelled⟩
  · rcases stop?_or_ends_cancelled htrace hm hclear hstop with
      hsame | ⟨report', hends, hcancelled⟩
    · refine ⟨⟨report.ending, report.steps,
        traceWith trace ((setup.course input).rows report.steps)⟩, ?_, .inr ?_⟩
      · exact (Setup.ends_iff (capacity_of_fresh htrace)).2 ⟨⟨m, hm, hsame⟩, hclear, rfl⟩
      · simp only [Report.muted, ← htrace_eq]
    · exact ⟨report', hends, .inl hcancelled⟩
  · exact ⟨report', hends, .inl hcancelled⟩

/-- A run is cancelled if and only if the undisturbed one gets to an attempt by which the request to
stop stands. -/
theorem ends_cancelled_iff (htrace : ∀ sink ∈ trace, sink.Fresh) :
    (∃ report, setup.Ends input cancelled trace report ∧ report.ending = .failed .cancelled) ↔
      ∃ k, setup.Attempts input false (trace.map Sink.muted) k ∧
        askedAt cancelled trace k = true := by
  have hcapacity := capacity_of_fresh (fresh_muted htrace)
  constructor
  · rintro ⟨report, hends, hcancelled⟩
    obtain ⟨⟨m, hm, hstop⟩, hclear, -⟩ := (Setup.ends_iff (capacity_of_fresh htrace)).1 hends
    rw [hcancelled] at hstop
    rcases Setup.cases_of_stop? hstop with ⟨-, hfinished⟩ | ⟨i, hi, ⟨fault, ho, hfault⟩ | hperform⟩
    · cases hfinished
    · obtain ⟨n, hn⟩ := exists_progress hcapacity hm hclear.muted
      cases hfault
      exact ⟨report.steps, ⟨n, _, i, hn, rfl, Program.instruction?_eq_some_iff.1 hi⟩,
        eq_true_of_obstacle? ho⟩
    · obtain ⟨-, fault, hp, hfault⟩ := hperform
      cases hfault
      exact absurd hp (Machine.perform_ne_cancelled _ _ _ _)
  · rintro ⟨k, ⟨n, r, i, hn, rfl, hi⟩, hasked⟩
    have hcourse := onCourse_progress hcapacity setup n input false
    rw [hn] at hcourse
    have hm := hcourse.machine_eq
    rw [Machine.settle_of_instruction hi] at hm
    rcases clear_or_ends_cancelled htrace hm hcourse.clear with hclear | hcancelled
    · exact ends_cancelled htrace hm (Program.instruction?_eq_some_iff.2 hi) hclear hasked
    · exact hcancelled

end Run

/-- A run with a request to stop, be it there from the start or raised by the trace, next to the
undisturbed run, which never finds such a request:

* how the request stands between two turns is known from the number of completed instructions;
* a run that ends is cancelled or has the report of the undisturbed run, and it does end if the
  undisturbed one does;
* it is cancelled if and only if the undisturbed run comes to an attempt by which the request stands,
  also if the step limit is met by then;
* an instruction is completed only if there was no request when it was attempted;
* at any time, what is written is the head and the rows of the completed instructions, the undisturbed
  run has written the same at some time, and all that it writes later comes behind this. -/
theorem Setup.ends_muted_or_cancelled (setup : Setup) (input : List UInt8) (cancelled : Bool)
    {trace : Option Sink} (htrace : ∀ sink ∈ trace, sink.Fresh) :
    (∀ n r, setup.progress n input cancelled trace = .running r →
      r.cancelled = Run.askedAt cancelled trace r.steps) ∧
    (∀ report, setup.Ends input cancelled trace report → report.ending ≠ .failed .cancelled →
      setup.Ends input false (trace.map Sink.muted) report.muted) ∧
    (∀ report, setup.Ends input false (trace.map Sink.muted) report →
      ∃ report', setup.Ends input cancelled trace report' ∧
        (report'.ending = .failed .cancelled ∨ report'.muted = report)) ∧
    ((∃ report, setup.Ends input cancelled trace report ∧ report.ending = .failed .cancelled) ↔
      ∃ k, setup.Attempts input false (trace.map Sink.muted) k ∧
        Run.askedAt cancelled trace k = true) ∧
    (∀ n k, k < (setup.progress n input cancelled trace).steps →
      Run.askedAt cancelled trace k = false) ∧
    ∀ n first, trace = some first → ∃ (sink : Sink) (rows : List Row),
      (setup.progress n input cancelled trace).trace = some sink ∧
      sink.written = (Text.ofLines (Row.table rows)).toUTF8 ∧
      rows.length = (setup.progress n input cancelled trace).steps ∧
      (∃ n', (setup.progress n' input false (trace.map Sink.muted)).trace = some sink.muted) ∧
      ∀ n', ∀ later ∈ (setup.progress n' input false (trace.map Sink.muted)).trace,
        rows.length ≤ (setup.progress n' input false (trace.map Sink.muted)).steps →
        ∃ more, later.written = (Text.ofLines (Row.table (rows ++ more))).toUTF8 := by
  have hcourse (n : Nat) :=
    Run.onCourse_progress (Run.capacity_of_fresh htrace) setup n input cancelled
  refine ⟨fun n r hr => ?_, fun report => Run.ends_muted htrace,
    fun report => Run.ends_or_cancelled_of_muted htrace, Run.ends_cancelled_iff htrace,
    fun n k hk => ?_, fun n first hfirst => ?_⟩
  · have hrunning := hcourse n
    rw [hr] at hrunning
    exact hrunning.cancelled_eq
  · exact (Run.obstacle?_eq_none_iff.1 ((hcourse n).clear k hk)).1
  · subst hfirst
    have hfresh := htrace first rfl
    obtain ⟨rows, htaken, hlength, hreached, hlater⟩ :=
      Run.exists_rows_of_clear hfresh hfresh.muted rfl (hcourse n).clear.muted
    exact ⟨_, rows, htaken, hfresh.written_after _, hlength, hreached, hlater⟩

/-- The request comes while the third row is written, when the limit of three steps is met as well. -/
theorem Setup.ends_cancelled_third : ∃ p report, Program.ofSource "+[]" = .ok p ∧
    (∀ sink ∈ some (Sink.empty none (some 5)), sink.Fresh) ∧
    Attempts ⟨p, .error, some 3⟩ [] false (some Sink.unlimited) 3 ∧
    Ends ⟨p, .error, some 3⟩ [] false (some (Sink.empty none (some 5))) report ∧
    report.ending = .failed .cancelled := by
  have hfresh : ∀ sink ∈ some (Sink.empty none (some 5)), sink.Fresh := fun sink hsink =>
    Option.some.inj hsink ▸ Sink.fresh_empty (some 5)
  have hsource : Program.ofSource "+[]" = .ok ⟨#['+', '[', ']'], #[none, some 2, some 1]⟩ := rfl
  have hattempts : Attempts ⟨⟨#['+', '[', ']'], #[none, some 2, some 1]⟩, .error, some 3⟩ [] false
      (some Sink.unlimited) 3 := ⟨3, _, .again, rfl, rfl, rfl⟩
  obtain ⟨report, hends, hcancelled⟩ :=
    (ends_muted_or_cancelled _ [] false hfresh).2.2.2.1.2 ⟨3, hattempts, rfl⟩
  exact ⟨_, report, hsource, hfresh, hattempts, hends, hcancelled⟩

end TapeMachine
