import TapeMachine.Proofs.Command.Preparation
import TapeMachine.Proofs.Run.Progress
set_option autoImplicit false

/-!
# Command: the exit

How the program ends, and what it has put on standard output by then.  Every command line that
parses goes one of five ways (`Invocation.Way`): it is answered with help, it does not say enough,
something fails before anything runs, its program is checked, or its program is run.  Which way it
goes is said by predicates of the command line and the world that know nothing of exits.

Main statement: the exit code and the bytes on standard output, for every command line whose run is
not over before its time (`invoke_classified`).
-/

namespace TapeMachine

/-- The bytes of the trace; none if there is no trace. -/
def Report.traced (report : Report) : ByteArray :=
  match report.trace with
  | some sink => sink.written
  | none => ByteArray.empty

/-- The bytes of the output; none if the run failed. -/
def Report.produced (report : Report) : ByteArray :=
  match report.outcome with
  | .ok output => ⟨output⟩
  | .error _ => ByteArray.empty

namespace Command

/-- The run that the options ask for starts, and ends with this report. -/
def RunOptions.Executes (world : World) (o : RunOptions) (report : Report) : Prop :=
  ∃ text p input, o.Ready world text p input ∧
    Setup.Ends ⟨p, (o.settings world).eof, (o.settings world).maxSteps.map UInt64.toNat⟩ input false
      (if o.debug then some .unlimited else none) report

namespace Invocation

/-- Help is asked for, before the subcommand or among its options. -/
def AsksHelp : Invocation → Prop
  | ⟨true, _⟩ => True
  | ⟨false, none⟩ => False
  | ⟨false, some (.run o)⟩ => o.help = true
  | ⟨false, some (.check o)⟩ => o.help = true

/-- No help is asked for, and either there is no subcommand or its program is given in no way or in
two. -/
def Incomplete : Invocation → Prop
  | ⟨true, _⟩ => False
  | ⟨false, none⟩ => True
  | ⟨false, some (.run o)⟩ => o.help = false ∧ Misgiven o.file o.code
  | ⟨false, some (.check o)⟩ => o.help = false ∧ Misgiven o.file o.code

/-- The program to be checked is accepted, or the one to be run ends with success. -/
def Succeeds (world : World) : Invocation → Prop
  | ⟨true, _⟩ => False
  | ⟨false, none⟩ => False
  | ⟨false, some (.run o)⟩ => ∃ report output, o.Executes world report ∧ report.outcome = .ok output
  | ⟨false, some (.check o)⟩ => o.Accepts world

/-- What is put on standard output by a command line that gets to its program. -/
inductive Displays (world : World) : Invocation → ByteArray → Prop
  /-- The answer to a check. -/
  | accepted {o : CheckOptions} (h : o.Accepts world) :
    Displays world ⟨false, some (.check o)⟩ "ok\n".toUTF8
  /-- The trace if it was wished for, the output of a run that did not fail, and the end of the
  line. -/
  | executed {o : RunOptions} {report : Report} (h : o.Executes world report) :
    Displays world ⟨false, some (.run o)⟩
      ((if o.debug then report.traced else ByteArray.empty) ++ report.produced ++ "\n".toUTF8)

/-- The way that a command line goes, and the exit at the end of it. -/
inductive Way (world : World) (i : Invocation) : Exit → Prop
  | helped {stderr : String} (h : i.AsksHelp) : Way world i (.silent 0 stderr)
  | incomplete {stderr : String} (h : i.Incomplete) : Way world i (.silent 2 stderr)
  /-- Something that is asked for is not there or cannot be read, or the program is not accepted. -/
  | failed {stderr : String} (hhelp : ¬i.AsksHelp) (hcomplete : ¬i.Incomplete)
    (hnone : ∀ stdout, ¬i.Displays world stdout) : Way world i (.silent 1 stderr)
  | accepted {c : CheckOptions} (hi : i = ⟨false, some (.check c)⟩) (h : c.Accepts world) :
    Way world i ⟨0, "ok\n".toUTF8, ""⟩
  | executed {o : RunOptions} {report : Report} {job : Job} (hi : i = ⟨false, some (.run o)⟩)
    (h : o.Executes world report) : Way world i (job.conclude report)

end Invocation

section

variable {world : World} {turns : Job → Nat} {name : String} {words : List String}
  {i : Invocation} {o : RunOptions} {c : CheckOptions} {report report' : Report}
  {stdout stdout' : ByteArray}

/-! ## The ways exclude each other -/

theorem RunOptions.Executes.help (h : o.Executes world report) : o.help = false := by
  obtain ⟨text, p, input, hready, -⟩ := h
  exact hready.help

theorem RunOptions.Executes.not_misgiven (h : o.Executes world report) :
    ¬Misgiven o.file o.code := by
  obtain ⟨text, p, input, hready, -⟩ := h
  exact hready.not_misgiven

/-- The run that the options ask for ends in one way. -/
theorem RunOptions.Executes.unique (h : o.Executes world report) (h' : o.Executes world report') :
    report' = report := by
  obtain ⟨text, p, input, hready, hends⟩ := h
  obtain ⟨text', p', input', hready', hends'⟩ := h'
  obtain ⟨rfl, rfl, rfl⟩ := hready.unique hready'
  exact hends'.unique hends

namespace Invocation

theorem Incomplete.not_asksHelp (h : i.Incomplete) : ¬i.AsksHelp := by
  rcases i with ⟨_ | _, _ | o | c⟩
  · exact id
  · exact ne_true_of_eq_false h.1
  · exact ne_true_of_eq_false h.1
  all_goals cases h

theorem Displays.not_asksHelp (h : i.Displays world stdout) : ¬i.AsksHelp := by
  cases h with
  | accepted haccepts => exact ne_true_of_eq_false haccepts.1
  | executed hexec => exact ne_true_of_eq_false hexec.help

theorem Displays.not_incomplete (h : i.Displays world stdout) : ¬i.Incomplete := by
  cases h with
  | accepted haccepts => exact fun hincomplete => haccepts.not_misgiven hincomplete.2
  | executed hexec => exact fun hincomplete => hexec.not_misgiven hincomplete.2

theorem Displays.unique (h : i.Displays world stdout) (h' : i.Displays world stdout') :
    stdout' = stdout := by
  cases h with
  | accepted => cases h'; rfl
  | executed hexec =>
    cases h' with
    | executed hexec' => rw [hexec.unique hexec']

theorem Succeeds.exists_displays (h : i.Succeeds world) : ∃ stdout, i.Displays world stdout := by
  rcases i with ⟨_ | _, _ | o | c⟩
  · cases h
  · obtain ⟨report, output, hexec, -⟩ := h
    exact ⟨_, .executed hexec⟩
  · exact ⟨_, .accepted h⟩
  all_goals cases h

end Invocation

/-! ## After a run -/

/-- Without the wish for a trace there is none. -/
theorem RunOptions.Executes.traced_eq (h : o.Executes world report) :
    (if o.debug then report.traced else ByteArray.empty) = report.traced := by
  cases hdebug : o.debug with
  | true => rfl
  | false =>
    obtain ⟨text, p, input, -, n, hn⟩ := h
    rw [hdebug, if_neg Bool.false_ne_true] at hn
    have htrace := Run.trace_progress_none
      ⟨p, (o.settings world).eof, (o.settings world).maxSteps.map UInt64.toNat⟩ n input false
    rw [Setup.execute_eq_some_iff.1 hn] at htrace
    rw [if_neg Bool.false_ne_true, Report.traced, show report.trace = none from htrace]

theorem Job.display_eq (report : Report) :
    display report = report.traced ++ report.produced ++ "\n".toUTF8 := by
  unfold display Report.traced Report.produced Report.outcome
  cases report.ending <;> rfl

theorem Job.code_conclude (job : Job) (report : Report) :
    (job.conclude report).code = 0 ∧ (∃ output, report.outcome = .ok output) ∨
    (job.conclude report).code = 1 ∧ ∃ fault, report.outcome = .error fault := by
  unfold conclude Report.outcome
  cases report.ending with
  | finished machine => exact .inl ⟨rfl, machine.output, rfl⟩
  | failed fault => exact .inr ⟨rfl, fault, rfl⟩

/-! ## The exit at the end of a way -/

@[simp] theorem Exit.code_silent (code : UInt32) (stderr : String) :
    (silent code stderr).code = code := rfl

namespace Invocation.Way

variable {exit : Exit}

theorem code_eq_two_iff (h : i.Way world exit) : exit.code = 2 ↔ i.Incomplete := by
  cases h with
  | helped hhelp => exact iff_of_false (by simp) fun hincomplete => hincomplete.not_asksHelp hhelp
  | incomplete hincomplete => exact iff_of_true rfl hincomplete
  | failed _ hcomplete => exact iff_of_false (by simp) hcomplete
  | accepted hi haccepts =>
    subst hi
    exact iff_of_false (by simp) (Displays.accepted haccepts).not_incomplete
  | @executed o report job hi hexec =>
    subst hi
    refine iff_of_false ?_ (Displays.executed hexec).not_incomplete
    rcases job.code_conclude report with ⟨hcode, -⟩ | ⟨hcode, -⟩ <;> simp [hcode]

theorem code_eq_zero_iff (h : i.Way world exit) :
    exit.code = 0 ↔ i.AsksHelp ∨ i.Succeeds world := by
  cases h with
  | helped hhelp => exact iff_of_true rfl (.inl hhelp)
  | incomplete hincomplete =>
    refine iff_of_false (by simp) (not_or.2 ⟨hincomplete.not_asksHelp, fun hsucceeds => ?_⟩)
    obtain ⟨stdout, hdisplays⟩ := hsucceeds.exists_displays
    exact hdisplays.not_incomplete hincomplete
  | failed hhelp _ hnone =>
    refine iff_of_false (by simp) (not_or.2 ⟨hhelp, fun hsucceeds => ?_⟩)
    obtain ⟨stdout, hdisplays⟩ := hsucceeds.exists_displays
    exact hnone stdout hdisplays
  | accepted hi haccepts =>
    subst hi
    exact iff_of_true rfl (.inr haccepts)
  | @executed o report job hi hexec =>
    subst hi
    rcases job.code_conclude report with ⟨hcode, output, hok⟩ | ⟨hcode, fault, herror⟩
    · exact iff_of_true hcode (.inr ⟨report, output, hexec, hok⟩)
    · refine iff_of_false (by simp [hcode]) (not_or.2
        ⟨(Displays.executed hexec).not_asksHelp, ?_⟩)
      rintro ⟨report', output, hexec', hok⟩
      cases hexec.unique hexec'
      cases herror.symm.trans hok

theorem code_cases (h : i.Way world exit) : exit.code = 0 ∨ exit.code = 1 ∨ exit.code = 2 := by
  cases h with
  | helped => exact .inl rfl
  | incomplete => exact .inr (.inr rfl)
  | failed => exact .inr (.inl rfl)
  | accepted => exact .inl rfl
  | @executed o report job =>
    rcases job.code_conclude report with ⟨hcode, -⟩ | ⟨hcode, -⟩
    · exact .inl hcode
    · exact .inr (.inl hcode)

/-- A way that gets to the program ends with what the program displays. -/
theorem stdout_eq (h : i.Way world exit) (hdisplays : i.Displays world stdout) :
    exit.stdout = stdout := by
  cases h with
  | helped hhelp => exact absurd hhelp hdisplays.not_asksHelp
  | incomplete hincomplete => exact absurd hincomplete hdisplays.not_incomplete
  | failed _ _ hnone => exact absurd hdisplays (hnone stdout)
  | accepted hi haccepts =>
    subst hi
    exact hdisplays.unique (.accepted haccepts)
  | @executed o report job hi hexec =>
    subst hi
    refine Eq.trans ?_ (hdisplays.unique (.executed hexec))
    rw [hexec.traced_eq]
    exact Job.display_eq report

/-- Every other way ends in silence. -/
theorem stdout_eq_empty (h : i.Way world exit) (hnone : ∀ stdout, ¬i.Displays world stdout) :
    exit.stdout = ByteArray.empty := by
  cases h with
  | helped => rfl
  | incomplete => rfl
  | failed => rfl
  | accepted hi haccepts =>
    subst hi
    exact absurd (.accepted haccepts) (hnone _)
  | executed hi hexec =>
    subst hi
    exact absurd (.executed hexec) (hnone _)

end Invocation.Way

/-! ## The five ways -/

theorem invoke_of_error {exit : Exit} (h : (prepare world name words).run = .error exit) :
    invoke world turns name words = exit := by
  unfold invoke
  rw [h]

theorem invoke_of_report {job : Job} (h : (prepare world name words).run = .ok job)
    (hreport : job.execute (turns job) = some report) :
    invoke world turns name words = job.conclude report := by
  unfold invoke
  rw [h]
  simp only [hreport]

theorem prepare_of_parse_error {fault : ArgFault} (hparse : Invocation.parse words = .error fault) :
    (prepare world name words).run = .error (.silent 2 fault.message) := by
  unfold prepare
  rw [hparse]
  rfl

theorem prepare_of_help {command : Option Subcommand}
    (hparse : Invocation.parse words = .ok ⟨true, command⟩) :
    (prepare world name words).run = .error (.silent 0 (Usage.top name)) := by
  unfold prepare
  rw [hparse]
  rfl

theorem prepare_of_no_command (hparse : Invocation.parse words = .ok ⟨false, none⟩) :
    (prepare world name words).run = .error (.silent 2 (Usage.top name)) := by
  unfold prepare
  rw [hparse]
  rfl

theorem prepare_eq_run (hparse : Invocation.parse words = .ok ⟨false, some (.run o)⟩) :
    prepare world name words = prepareRun world name o := by
  unfold prepare
  rw [hparse]

theorem prepare_eq_check (hparse : Invocation.parse words = .ok ⟨false, some (.check c)⟩) :
    (prepare world name words).run = .error (check world name c).run := by
  unfold prepare
  rw [hparse]
  rfl

section

variable {text : List Char} {p : Program} {input : List UInt8}

/-- A run that is ready starts. -/
theorem RunOptions.Ready.run_prepare (hready : o.Ready world text p input)
    (hparse : Invocation.parse words = .ok ⟨false, some (.run o)⟩) :
    (prepare world name words).run = .ok (o.job world name text p input) := by
  rw [prepare_eq_run hparse,
    run_prepareRun_of_supplies name hready.help hready.supplies hready.feeds, hready.accepted]

/-- A run that is ready ends as its options ask for, if it is not over before its time. -/
theorem exists_invoke_eq_conclude (hparse : Invocation.parse words = .ok ⟨false, some (.run o)⟩)
    (hready : o.Ready world text p input)
    (hends : ∀ job, (prepare world name words).run = .ok job →
      ∃ report, job.execute (turns job) = some report) :
    ∃ report, o.Executes world report ∧
      invoke world turns name words =
        Job.conclude (o.job world name text p input) report := by
  obtain ⟨report, hreport⟩ := hends _ (hready.run_prepare hparse)
  exact ⟨report, ⟨text, p, input, hready, _, hreport⟩,
    invoke_of_report (hready.run_prepare hparse) hreport⟩

end

theorem way_of_run (hparse : Invocation.parse words = .ok ⟨false, some (.run o)⟩)
    (hends : ∀ job, (prepare world name words).run = .ok job →
      ∃ report, job.execute (turns job) = some report) :
    Invocation.Way world ⟨false, some (.run o)⟩ (invoke world turns name words) := by
  cases hhelp : o.help with
  | true =>
    have hprepare : (prepare world name words).run = .error (.silent 0 (Usage.run name)) := by
      rw [prepare_eq_run hparse, prepareRun, if_pos hhelp]
      rfl
    rw [invoke_of_error hprepare]
    exact .helped hhelp
  | false =>
    rcases run_prepareRun_cases world name hhelp with
      ⟨hmis, stderr, hrun⟩ | ⟨hgiven, hnone, stderr, hrun⟩ | ⟨text, p, input, hready, -⟩
    · rw [invoke_of_error ((congrArg Id.run (prepare_eq_run hparse)).trans hrun)]
      exact .incomplete ⟨hhelp, hmis⟩
    · rw [invoke_of_error ((congrArg Id.run (prepare_eq_run hparse)).trans hrun)]
      refine .failed (ne_true_of_eq_false hhelp) (fun h => hgiven h.2) fun stdout h => ?_
      cases h with
      | executed hexec =>
        obtain ⟨text, p, input, hready, -⟩ := hexec
        exact hnone text p input hready
    · obtain ⟨report, hexec, hexit⟩ := exists_invoke_eq_conclude hparse hready hends
      rw [hexit]
      exact .executed rfl hexec

theorem way_of_check (hparse : Invocation.parse words = .ok ⟨false, some (.check c)⟩) :
    Invocation.Way world ⟨false, some (.check c)⟩ (invoke world turns name words) := by
  rw [invoke_of_error (prepare_eq_check hparse)]
  cases hhelp : c.help with
  | true =>
    rw [check, if_pos hhelp]
    exact .helped hhelp
  | false =>
    rcases run_check_cases world name hhelp with
      ⟨hmis, stderr, hcheck⟩ | ⟨hgiven, hnone, stderr, hcheck⟩ | ⟨haccepts, hcheck⟩
    · rw [hcheck]
      exact .incomplete ⟨hhelp, hmis⟩
    · rw [hcheck]
      refine .failed (ne_true_of_eq_false hhelp) (fun h => hgiven h.2) fun stdout h => ?_
      cases h with
      | accepted haccepts => exact hnone haccepts
    · rw [hcheck]
      exact .accepted rfl haccepts

/-- Every command line that parses goes its way, if it is not over before its time. -/
theorem way_of_parse (hparse : Invocation.parse words = .ok i)
    (hends : ∀ job, (prepare world name words).run = .ok job →
      ∃ report, job.execute (turns job) = some report) :
    i.Way world (invoke world turns name words) := by
  rcases i with ⟨_ | _, _ | o | c⟩
  · rw [invoke_of_error (prepare_of_no_command hparse)]
    exact .incomplete trivial
  · exact way_of_run hparse hends
  · exact way_of_check hparse
  all_goals
    rw [invoke_of_error (prepare_of_help hparse)]
    exact .helped trivial

/-- The exit of the program, for a command line whose run ends before its time.

* The code is 2 if the command line does not parse, or if no help is asked for and there is no
  subcommand or its program is given in no way or in two.
* The code is 0 if help is asked for, or the program to be checked is accepted, or the program to be
  run ends with success.
* In every other case it is 1.
* A run that is ready has a report.
* A command line that gets to its program puts on standard output what `Invocation.Displays` says, and
  every other one puts nothing there. -/
theorem invoke_classified (hends : ∀ job, (prepare world name words).run = .ok job →
      ∃ report, job.execute (turns job) = some report) :
    ((invoke world turns name words).code = 2 ↔
      (∃ fault, Invocation.parse words = .error fault) ∨
        ∃ i, Invocation.parse words = .ok i ∧ i.Incomplete) ∧
    ((invoke world turns name words).code = 0 ↔
      ∃ i, Invocation.parse words = .ok i ∧ (i.AsksHelp ∨ i.Succeeds world)) ∧
    ((invoke world turns name words).code = 0 ∨ (invoke world turns name words).code = 1 ∨
      (invoke world turns name words).code = 2) ∧
    (∀ o text p input, Invocation.parse words = .ok ⟨false, some (.run o)⟩ →
      o.Ready world text p input → ∃ report, o.Executes world report) ∧
    (∀ i stdout, Invocation.parse words = .ok i → i.Displays world stdout →
      (invoke world turns name words).stdout = stdout) ∧
    ((∀ i stdout, Invocation.parse words = .ok i → ¬i.Displays world stdout) →
      (invoke world turns name words).stdout = ByteArray.empty) := by
  cases hparse : Invocation.parse words with
  | error fault =>
    rw [invoke_of_error (prepare_of_parse_error hparse)]
    refine ⟨iff_of_true rfl (.inl ⟨fault, rfl⟩), iff_of_false (by simp) ?_, .inr (.inr rfl), ?_, ?_,
      fun _ => rfl⟩
    · rintro ⟨i, hi, -⟩
      cases hi
    · intro o text p input hi
      cases hi
    · intro i stdout hi
      cases hi
  | ok i =>
    have hway := way_of_parse hparse hends
    refine ⟨hway.code_eq_two_iff.trans ?_, hway.code_eq_zero_iff.trans ?_, hway.code_cases, ?_, ?_,
      ?_⟩
    · simp
    · simp
    · intro o text p input hrun hready
      obtain ⟨report, hexec, -⟩ := exists_invoke_eq_conclude (hparse.trans hrun) hready hends
      exact ⟨report, hexec⟩
    · rintro _ stdout ⟨⟩ hdisplays
      exact hway.stdout_eq hdisplays
    · intro hnone
      exact hway.stdout_eq_empty fun stdout => hnone i stdout rfl

/-- The second read finds no input, so what was written before it is not shown. -/
theorem invoke_classified_unread :
    (invoke (World.bare "A".toUTF8) (fun _ => 3) "bfi" ["run", ",.,"]).code ≠ 2 ∧
    (invoke (World.bare "A".toUTF8) (fun _ => 3) "bfi" ["run", ",.,"]).stdout = "\n".toUTF8 := by
  have hparse : Invocation.parse ["run", ",.,"] = .ok ⟨false, some (.run (.ofCode [",.,"]))⟩ := rfl
  have hready : (RunOptions.ofCode [",.,"]).Ready (World.bare "A".toUTF8) [',', '.', ',']
      ⟨#[',', '.', ','], #[none, none, none]⟩ [65] :=
    ⟨rfl, .words (List.cons_ne_nil _ _), .bare _, rfl⟩
  have hexec : (RunOptions.ofCode [",.,"]).Executes (World.bare "A".toUTF8)
      ⟨.failed (.inputExhausted 2 1), 2, none⟩ := ⟨_, _, _, hready, 3, rfl⟩
  have hends (job : Job) (hjob : (prepare (World.bare "A".toUTF8) "bfi" ["run", ",.,"]).run =
      .ok job) : ∃ report, job.execute 3 = some report := by
    rw [prepare_eq_run hparse, run_prepareRun_of_supplies "bfi" rfl hready.supplies hready.feeds,
      hready.accepted] at hjob
    cases hjob
    exact ⟨⟨.failed (.inputExhausted 2 1), 2, none⟩, rfl⟩
  obtain ⟨hcode, -, -, -, hstdout, -⟩ := invoke_classified hends
  refine ⟨fun h => ?_, hstdout _ _ hparse (.executed hexec)⟩
  rcases hcode.1 h with ⟨fault, hfault⟩ | ⟨i, hi, hincomplete⟩
  · cases hparse.symm.trans hfault
  · cases hparse.symm.trans hi
    exact (Invocation.Displays.executed hexec).not_incomplete hincomplete

/-- Standard input that cannot be read keeps a program from running, even one that would not read
it. -/
example : invoke { World.bare ByteArray.empty with standardInput := .error .isDirectory } (fun _ => 3)
    "bfi" ["run", "+."] = .silent 1 "bfi: failed reading stdin: Is a directory (os error 21)\n" :=
  rfl

end

end Command

end TapeMachine
