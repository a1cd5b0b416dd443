import TapeMachine.Proofs.Machine.Relocation
import TapeMachine.Proofs.Program.Embedding
import TapeMachine.Proofs.Run.Limit
set_option autoImplicit false

/-!
# Run: one program behind the other

What the text of two programs does, the one behind the other.  The first program is at work as it is
on its own, since a turn uses of the program only the character at its place and the partner of this
(`turn_congr`).  When it comes to its end, no loop is left and the place is the first one of the
second program.  From then on every turn is a turn of the second program at another place
(`turn_behind`).

Main statement: `Program.ofSource_append`, for two accepted sources and every run of them that
nothing limits.
-/

namespace TapeMachine

/-- `r` is the program `p` with the program `q` behind it. -/
structure Program.Joined (p q r : Program) : Prop where
  code_front : ∀ i < p.length, r.code[i]? = p.code[i]?
  partner_front : ∀ i < p.length, r.partner? i = p.partner? i
  code_behind : ∀ i, r.code[p.length + i]? = q.code[i]?
  partner_behind : ∀ i, r.partner? (p.length + i) = (q.partner? i).map (p.length + ·)

/-- The run that takes over the tape, the pointer and the input of a machine and begins its own
program, with no loop entered and nothing put out. -/
def Run.takeover (m : Machine) : Run := ⟨⟨m.tape, m.input, #[], [], 0⟩, 0, false, none⟩

section Joined

variable {a b : List Char} {p q r : Program}

theorem Program.joined_of_ofText (hp : ofText a = .ok p) (hq : ofText b = .ok q)
    (hr : ofText (a ++ b) = .ok r) : Joined p q r where
  code_front i hi := (embeds_append_left hp hr).code_eq i hi
  partner_front := by
    intro i hi
    have hpartner := (embeds_append_left hp hr).partner?_eq (paired_of_ofText hp)
      (paired_of_ofText hr) hi
    rwa [Option.map_id] at hpartner
  code_behind := code_append_right hp hq hr
  partner_behind := (embeds_append_right hp hq hr).partner?_eq_of_code (paired_of_ofText hq)
    (paired_of_ofText hr) (code_append_right hp hq hr)

end Joined

namespace Run

variable {p q r : Program} {policy : EofPolicy} {maxSteps : Option Nat} {run run' : Run}

/-! ## The first program -/

/-- A turn uses of the program only the character at its place and the partner of this. -/
theorem turn_congr (hcode : p.code[run.machine.ip]? = q.code[run.machine.ip]?)
    (hpartner : p.partner? run.machine.ip = q.partner? run.machine.ip) :
    run.turn ⟨p, policy, maxSteps⟩ = run.turn ⟨q, policy, maxSteps⟩ := by
  obtain ⟨machine, steps, cancelled, trace⟩ := run
  have hperform (i : Instruction) : machine.perform p policy i = machine.perform q policy i :=
    Machine.perform_congr policy i hpartner
  simp only [turn, hcode, hperform, obstacle?]

/-- As long as the first program is at work, nothing is different. -/
theorem turn_in_front (h : Program.Joined p q r) (hip : run.machine.ip < p.length) :
    run.turn ⟨r, policy, maxSteps⟩ = run.turn ⟨p, policy, maxSteps⟩ :=
  turn_congr (h.code_front _ hip) (h.partner_front _ hip)

/-- A turn after which the run goes on was taken at a character. -/
theorem ip_lt_of_turn_running (h : run.turn ⟨p, policy, maxSteps⟩ = .running run') :
    run.machine.ip < p.length := by
  rcases cases_of_turn_running h with ⟨c, hc, -, -⟩ | ⟨i, -, -, hi, -, -, -⟩
  · exact Program.lt_length_of_code hc
  · exact Program.lt_length_of_code hi

/-- A turn that ends the run with a fault was taken at a character. -/
theorem ip_lt_of_turn_failed {report : Report} {fault : Fault}
    (h : run.turn ⟨p, policy, maxSteps⟩ = .ended report) (hfault : report.ending = .failed fault) :
    run.machine.ip < p.length := by
  rcases cases_of_turn_ended h with ⟨-, rfl⟩ | ⟨i, hi, -⟩
  · cases hfault
  · exact Program.lt_length_of_code hi

/-! ## The second program -/

/-- An untraced run that goes on is untraced. -/
theorem trace_of_turn {setup : Setup} (hnone : run.trace = none)
    (h : run.turn setup = .running run') : run'.trace = none := by
  rcases cases_of_turn_running h with ⟨-, -, -, rfl⟩ | ⟨i, machine, row, -, -, -, hdone⟩
  · exact hnone
  · rw [hnone] at hdone
    cases hdone
    rfl

/-- An instruction of the second program leads from its place behind the first one to another place
behind the first one. -/
theorem perform_behind (h : Program.Joined p q r) (policy : EofPolicy) (i : Instruction)
    (m : Machine) (before : Array UInt8) :
    (m.relocated (p.length + ·) before).perform r policy i =
      match m.perform q policy i with
      | .error fault => .error (fault.relocated (p.length + ·))
      | .ok (done, row) =>
        .ok (done.relocated (p.length + ·) before, row.relocated (p.length + ·)) := by
  rw [Machine.perform_relocated policy i before (h.partner_behind m.ip)]
  cases hp : m.perform q policy i with
  | error fault => rfl
  | ok result =>
    obtain ⟨done, row⟩ := result
    obtain ⟨j, hj, -⟩ := Machine.ip_of_perform hp
    simp only [Machine.relocated, hj, behind_succ, Nat.add_assoc]

/-- A turn of the second program is the same turn behind the first one. -/
theorem turn_behind (h : Program.Joined p q r) (policy : EofPolicy) (hnone : run.trace = none)
    (before : Array UInt8) (steps : Nat) :
    (run.relocated (p.length + ·) before steps).turn ⟨r, policy, none⟩ =
      (run.turn ⟨q, policy, none⟩).relocated (p.length + ·) before steps := by
  have hplace : r.code[(run.relocated (p.length + ·) before steps).machine.ip]? =
      q.code[run.machine.ip]? := h.code_behind run.machine.ip
  rcases cases_of_turn ⟨q, policy, none⟩ run with ⟨hc, ht⟩ | ⟨c, hc, hno, ht⟩ | ⟨i, hi, hattempt⟩
  · rw [ht]
    exact turn_of_end (hplace.trans hc)
  · rw [ht]
    exact turn_of_comment (hplace.trans hc) hno
  · have hperform := perform_behind h policy i run.machine before
    have hobstacle : obstacle? ⟨r, policy, none⟩ run.cancelled (steps + run.steps) =
        obstacle? ⟨q, policy, none⟩ run.cancelled run.steps := rfl
    rcases hattempt with ⟨fault, ho, ht⟩ | ⟨ho, ⟨fault, hp, ht⟩ | ⟨machine, row, hp, ht⟩⟩
    · rw [ht, Turn.relocated, Report.relocated, Ending.relocated, Fault.relocated_of_obstacle ho]
      exact turn_of_obstacle (hplace.trans hi) (hobstacle.trans ho)
    · rw [hp] at hperform
      rw [ht]
      exact turn_of_fault (hplace.trans hi) (hobstacle.trans ho) hperform
    · rw [hp] at hperform
      rw [ht, hnone]
      refine (turn_of_perform (hplace.trans hi) (hobstacle.trans ho) hperform).trans ?_
      simp only [relocated, hnone, complete, Turn.relocated, Nat.add_assoc]

theorem advance_behind (h : Program.Joined p q r) (policy : EofPolicy) (hnone : run.trace = none)
    (before : Array UInt8) (steps n : Nat) :
    (run.relocated (p.length + ·) before steps).advance ⟨r, policy, none⟩ n =
      (run.advance ⟨q, policy, none⟩ n).relocated (p.length + ·) before steps := by
  induction n generalizing run with
  | zero => rfl
  | succ n ih =>
    have hturn := turn_behind h policy hnone before steps
    cases ht : run.turn ⟨q, policy, none⟩ with
    | ended report =>
      rw [ht] at hturn
      rw [advance_succ_of_ended ht, advance_succ_of_ended hturn]
      rfl
    | running next =>
      rw [ht] at hturn
      rw [advance_succ_of_running ht, advance_succ_of_running hturn]
      exact ih (trace_of_turn hnone ht)

end Run

section Sequence

variable {p q r : Program} {policy : EofPolicy} {input : List UInt8} {n : Nat} {run : Run}
  {report : Report}

/-- The run of both programs is the run of the first one as long as this goes on. -/
theorem Setup.progress_in_front (h : Program.Joined p q r)
    (hrun : progress ⟨p, policy, none⟩ n input false none = .running run) :
    progress ⟨r, policy, none⟩ n input false none = .running run := by
  induction n generalizing run with
  | zero => exact hrun
  | succ n ih =>
    obtain ⟨before, hbefore, hturn⟩ := exists_turn_of_progress_succ hrun
    rw [progress_succ (ih hbefore), Run.turn_in_front h (Run.ip_lt_of_turn_running hturn)]
    exact hturn

/-- If the run of the first program fails, the run of both fails in the same way. -/
theorem Setup.Ends.failed_in_front (h : Program.Joined p q r)
    (hends : Ends ⟨p, policy, none⟩ input false none report) {fault : Fault}
    (hfault : report.ending = .failed fault) : Ends ⟨r, policy, none⟩ input false none report := by
  obtain ⟨n, hn⟩ := hends
  obtain ⟨k, last, hlast, hturn⟩ := exists_turn_of_ended (execute_eq_some_iff.1 hn)
  refine ⟨k + 1, execute_eq_some_iff.2 ?_⟩
  rw [progress_succ (progress_in_front h hlast),
    Run.turn_in_front h (Run.ip_lt_of_turn_failed hturn hfault)]
  exact hturn

/-- If the run of the first program does not end, the run of both does not end. -/
theorem Setup.not_ends_in_front (h : Program.Joined p q r)
    (hforever : ∀ report, ¬Ends ⟨p, policy, none⟩ input false none report) (report : Report) :
    ¬Ends ⟨r, policy, none⟩ input false none report := by
  rintro ⟨n, hn⟩
  cases hp : progress ⟨p, policy, none⟩ n input false none with
  | ended first => exact hforever first ⟨n, execute_eq_some_iff.2 hp⟩
  | running run => cases (execute_eq_some_iff.1 hn).symm.trans (progress_in_front h hp)

/-- The run of the first program comes to its end in front of the second program, in no loop. -/
theorem Setup.Ends.exists_seam (hp : p.Paired)
    (hends : Ends ⟨p, policy, none⟩ input false none report) {m : Machine}
    (hm : report.ending = .finished m) :
    ∃ k, progress ⟨p, policy, none⟩ k input false none =
      .running ((Run.takeover m).relocated (p.length + ·) m.output report.steps) := by
  obtain ⟨n, hn⟩ := hends
  obtain ⟨k, last, hlast, hturn⟩ := exists_turn_of_ended (execute_eq_some_iff.1 hn)
  -- a run that comes to the end has left its loops, and nothing has asked it to stop
  obtain ⟨past, hframed⟩ := Run.exists_framed_of_progress hp hlast
  have hframes := hframed.frames_eq_nil hp hturn hm
  have hcourse := Run.onCourse_progress Run.capacity_none ⟨p, policy, none⟩ k input false
  rw [hlast] at hcourse
  have hcancelled : last.cancelled = false := hcourse.cancelled_eq
  have htrace : last.trace = none := hcourse.trace_eq
  obtain ⟨hnone, rfl⟩ := Run.end_of_turn_finished hturn hm
  have hip : last.machine.ip = p.length :=
    Nat.le_antisymm hframed.ip_le (Array.getElem?_eq_none_iff.1 hnone)
  cases hm
  refine ⟨k, hlast.trans (congrArg Turn.running ?_)⟩
  obtain ⟨⟨tape, rest, output, frames, ip⟩, steps, cancelled, trace⟩ := last
  subst hip hframes hcancelled htrace
  simp [Run.relocated, Run.takeover, Machine.relocated]

/-- From the seam on, every turn of both programs is a turn of the second one. -/
theorem Setup.progress_behind {steps k : Nat} {m : Machine} (h : Program.Joined p q r)
    (hseam : progress ⟨r, policy, none⟩ k input false none =
      .running ((Run.takeover m).relocated (p.length + ·) m.output steps)) (n : Nat) :
    progress ⟨r, policy, none⟩ (k + n) input false none =
      ((Run.takeover m).advance ⟨q, policy, none⟩ n).relocated (p.length + ·) m.output steps := by
  rw [progress_add hseam]
  exact Run.advance_behind h policy rfl m.output steps n

/-- The run of both ends exactly if the run that takes over ends. -/
theorem Setup.ends_iff_of_progress {steps k : Nat} {m : Machine}
    (hbehind : ∀ n, progress ⟨r, policy, none⟩ (k + n) input false none =
      ((Run.takeover m).advance ⟨q, policy, none⟩ n).relocated (p.length + ·) m.output steps) :
    Ends ⟨r, policy, none⟩ input false none report ↔
      ∃ n later, (Run.takeover m).finish ⟨q, policy, none⟩ n = some later ∧
        report = later.relocated (p.length + ·) m.output steps := by
  constructor
  · rintro ⟨n, hn⟩
    have hended := progress_of_ended (execute_eq_some_iff.1 hn) (Nat.le_add_left n k)
    rw [hbehind] at hended
    unfold Run.finish
    cases hadvance : (Run.takeover m).advance ⟨q, policy, none⟩ n with
    | running run =>
      rw [hadvance] at hended
      cases hended
    | ended later =>
      rw [hadvance] at hended
      cases hended
      exact ⟨n, later, by rw [hadvance], rfl⟩
  · rintro ⟨n, later, hlater, rfl⟩
    refine ⟨k + n, execute_eq_some_iff.2 ?_⟩
    rw [hbehind]
    unfold Run.finish at hlater
    split at hlater
    · next hadvance =>
      cases hlater
      rw [hadvance]
      rfl
    · cases hlater

/-- Of two accepted sources, the one behind the other is accepted, and the brackets of both keep
their partners, those of the second source behind the first.  Of the runs on one input that nothing
limits, the run of both

* does not end if the run of the first does not end;
* fails like the run of the first if this fails;
* takes the turns of the second program, each one behind the first program, once the run of the
  first has come to its end with a machine `m`.  The second program begins on the tape of `m` with
  the input that is left.  The run of both ends if this ends, with the output of both or with the
  fault of the second at its place. -/
theorem Program.ofSource_append {source source' : String} (hp : ofSource source = .ok p)
    (hq : ofSource source' = .ok q) :
    ∃ r, ofSource (source ++ source') = .ok r ∧
      (∀ i < p.length, r.partner? i = p.partner? i) ∧
      (∀ i, r.partner? (p.length + i) = (q.partner? i).map (p.length + ·)) ∧
      ∀ (policy : EofPolicy) (input : List UInt8),
        ((∀ report, ¬Setup.Ends ⟨p, policy, none⟩ input false none report) →
          ∀ report, ¬Setup.Ends ⟨r, policy, none⟩ input false none report) ∧
        (∀ report fault, Setup.Ends ⟨p, policy, none⟩ input false none report →
          report.ending = .failed fault → Setup.Ends ⟨r, policy, none⟩ input false none report) ∧
        ∀ report m, Setup.Ends ⟨p, policy, none⟩ input false none report →
          report.ending = .finished m →
          (∃ k, ∀ n, Setup.progress ⟨r, policy, none⟩ (k + n) input false none =
            ((Run.takeover m).advance ⟨q, policy, none⟩ n).relocated (p.length + ·) m.output
              report.steps) ∧
          (∀ both, Setup.Ends ⟨r, policy, none⟩ input false none both ↔
            ∃ n later, (Run.takeover m).finish ⟨q, policy, none⟩ n = some later ∧
              both = later.relocated (p.length + ·) m.output report.steps) ∧
          ∀ later : Report, (later.relocated (p.length + ·) m.output report.steps).outcome =
            match later.outcome with
            | .ok output => .ok (m.output ++ output)
            | .error fault => .error (fault.relocated (p.length + ·)) := by
  obtain ⟨r, hr⟩ := exists_ofText_append hp hq
  have hjoined := joined_of_ofText hp hq hr
  refine ⟨r, ?_, hjoined.partner_front, hjoined.partner_behind, fun policy input => ⟨?_, ?_, ?_⟩⟩
  · rw [ofSource, String.toList_append]
    exact hr
  · intro hforever
    exact Setup.not_ends_in_front hjoined hforever
  · intro report fault hends hfault
    exact hends.failed_in_front hjoined hfault
  · intro report m hends hm
    obtain ⟨k, hseam⟩ := hends.exists_seam (paired_of_ofText hp) hm
    have hbehind := Setup.progress_behind hjoined (Setup.progress_in_front hjoined hseam)
    refine ⟨⟨k, hbehind⟩, fun both => Setup.ends_iff_of_progress hbehind, fun later => ?_⟩
    exact later.outcome_relocated _ _ _

/-- The bracket that is stray in the second source stays stray behind the loop of the first one, and
the read behind it fails at its place in both. -/
theorem Program.ofSource_append_stray : ∃ p q r report m both,
    ofSource "+.[-]" = .ok p ∧ ofSource "]," = .ok q ∧ ofSource ("+.[-]" ++ "],") = .ok r ∧
      r.partner? 5 = none ∧ Setup.Ends ⟨p, .error, none⟩ [] false none report ∧
      report.ending = .finished m ∧ m.output = #[1] ∧
      Setup.Ends ⟨r, .error, none⟩ [] false none both ∧
      both.outcome = .error (.inputExhausted 6 0) := by
  have hp : ofSource "+.[-]" = .ok ⟨#['+', '.', '[', '-', ']'],
    #[none, none, some 4, none, some 2]⟩ := rfl
  have hq : ofSource "]," = .ok ⟨#[']', ','], #[none, none]⟩ := rfl
  obtain ⟨r, hr, -, hpartner, hruns⟩ := ofSource_append hp hq
  obtain ⟨-, -, hfinished⟩ := hruns .error []
  have hends : Setup.Ends ⟨⟨#['+', '.', '[', '-', ']'], #[none, none, some 4, none, some 2]⟩,
    .error, none⟩ [] false none _ := ⟨6, rfl⟩
  obtain ⟨-, hboth, houtcome⟩ := hfinished _ _ hends rfl
  have hends' := (hboth _).2 ⟨2, _, rfl, rfl⟩
  exact ⟨_, _, r, _, _, _, hp, hq, hr, hpartner 0, hends, rfl, rfl, hends', houtcome _⟩

end Sequence

end TapeMachine
