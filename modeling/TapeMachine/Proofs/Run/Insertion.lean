import TapeMachine.Proofs.Block.Execution
import TapeMachine.Proofs.Machine.Relocation
import TapeMachine.Proofs.Machine.View
import TapeMachine.Proofs.Program.Insertion
import TapeMachine.Proofs.Run.Limit
set_option autoImplicit false

/-!
# Run: two instructions that cancel

The run of a program next to the run of the program with two instructions put in of which the second
takes back what the first does.  Every character keeps its meaning at its new place, on a tape that may
be longer (`turn_alike`).  Whenever the first run arrives at the place where the two have been put in,
the second one is in front of them, and catches up with two turns of its own (`exists_advance_pair`).

So the second run never needs fewer turns, and what the first one comes to the second one comes to
(`exists_advance_alike`).  That settles both directions: a run that ends is not running after as many
turns.

Main statement: `Program.ofSource_inserted`.
-/

namespace TapeMachine

open Program

/-- What two runs have come to without limits and traces, of which the second one has two characters
more on its way: they go on alike, or have ended with the same outcome, up to the place of a fault. -/
inductive Turn.Alike (cut : Nat) : Turn → Turn → Prop
  | running {m m' : Machine} {k k' : Nat} (h : (m.relocated (arrival cut) #[]).SameView m') :
    Alike cut (.running ⟨m, k, false, none⟩) (.running ⟨m', k', false, none⟩)
  | ended {report report' : Report}
    (h : report'.outcome = report.outcome.mapError (Fault.relocated (apart cut))) :
    Alike cut (.ended report) (.ended report')

namespace Run

variable {cut : Nat} {a a' : Plain} {p q : Program} {policy : EofPolicy} {m m' : Machine}
  {k k' : Nat}

/-- An instruction leads behind its own character or behind its partner, which is where a machine
arrives. -/
theorem perform_apart (h : Inserted cut a a' p q) (policy : EofPolicy) (i : Instruction)
    (hsame : (m.relocated (apart cut) #[]).SameView m') :
    match m.perform p policy i with
    | .error fault => m'.perform q policy i = .error (fault.relocated (apart cut))
    | .ok (done, row) => ∃ done', m'.perform q policy i = .ok (done', row.relocated (apart cut)) ∧
        (done.relocated (arrival cut) #[]).SameView done' := by
  have hview := Machine.perform_sameView q policy i hsame
  rw [Machine.perform_relocated policy i #[] (h.partner_eq m.ip)] at hview
  cases hp : m.perform p policy i with
  | error fault =>
    rw [hp] at hview
    exact hview
  | ok result =>
    obtain ⟨done, row⟩ := result
    obtain ⟨j, hj, -⟩ := Machine.ip_of_perform hp
    have hplace : done.relocated (behind (apart cut)) #[] = done.relocated (arrival cut) #[] := by
      simp only [Machine.relocated, hj, behind_succ, apart_succ]
    simp only [hp, hplace] at hview
    exact hview

/-- A turn at the same character. -/
theorem turn_alike (h : Inserted cut a a' p q) (policy : EofPolicy) (k k' : Nat)
    (hsame : (m.relocated (apart cut) #[]).SameView m') :
    Turn.Alike cut (turn ⟨p, policy, none⟩ ⟨m, k, false, none⟩)
      (turn ⟨q, policy, none⟩ ⟨m', k', false, none⟩) := by
  have hip : m'.ip = apart cut m.ip := by rw [hsame.eq]; rfl
  have hcode : q.code[m'.ip]? = p.code[m.ip]? := by rw [hip, h.code_eq]
  rcases cases_of_turn ⟨p, policy, none⟩ ⟨m, k, false, none⟩ with
    ⟨hend, ht⟩ | ⟨c, hc, hno, ht⟩ | ⟨i, hi, ⟨_, ho, -⟩ | ⟨-, hattempt⟩⟩
  · rw [ht, turn_of_end (hcode.trans hend)]
    refine .ended (congrArg Except.ok ?_)
    rw [hsame.eq]
    exact Array.empty_append
  · rw [ht, turn_of_comment (hcode.trans hc) hno]
    refine .running ⟨hsame.tape, ?_⟩
    rw [hsame.eq]
    simp only [Machine.skip, Machine.relocated, apart_succ]
  · cases ho
  · have hperform := perform_apart h policy i hsame
    rcases hattempt with ⟨fault, hp, ht⟩ | ⟨done, row, hp, ht⟩
    · rw [hp] at hperform
      rw [ht, turn_of_fault (hcode.trans hi) rfl hperform]
      exact .ended rfl
    · rw [hp] at hperform
      obtain ⟨done', hp', hdone⟩ := hperform
      rw [ht, turn_of_perform (hcode.trans hi) rfl hp']
      exact .running hdone

/-- A machine that has arrived comes to the character it has arrived for. -/
theorem exists_advance_pair (h : Inserted cut a a' p q) (hundone : a.UndoneBy a')
    (policy : EofPolicy) (k' : Nat) (hsame : (m.relocated (arrival cut) #[]).SameView m') :
    ∃ n m'' k'', advance ⟨q, policy, none⟩ n ⟨m', k', false, none⟩ =
        .running ⟨m'', k'', false, none⟩ ∧ (m.relocated (apart cut) #[]).SameView m'' := by
  by_cases hip : m.ip = cut
  · have hip' : m'.ip = cut := by
      rw [hsame.eq, Machine.relocated, hip]
      exact arrival_self cut
    have hw : m'.store.tape.WellFormed := hsame.tape.wellFormed'
    obtain ⟨s₁, t, hfirst, hsecond, ht⟩ := hundone.exists_apply policy cut hw
    have hstart : (⟨m', k', false, none⟩ : Run) = quiet m'.store m'.frames cut k' := by
      rw [← hip']
      rfl
    have hthere : (m.relocated (apart cut) #[]).SameView { m' with ip := cut + 2 } := by
      rw [Machine.relocated, hip, apart_self]
      exact hsame.goto (cut + 2)
    refine ⟨2, { m' with tape := t, ip := cut + 2 }, k' + 2, ?_, hthere.trans ⟨ht, rfl⟩⟩
    rw [hstart, advance_succ_of_running (turn_quiet_plain k' m'.frames h.first hfirst), advance_one]
    exact turn_quiet_plain (k' + 1) m'.frames h.second hsecond
  · refine ⟨0, m', k', rfl, ?_⟩
    rwa [Machine.relocated, ← arrival_of_ne hip]

/-- Whatever the first run has come to, the second one comes to the same, with as many turns or
more. -/
theorem exists_advance_alike (h : Inserted cut a a' p q) (hundone : a.UndoneBy a')
    (policy : EofPolicy) (n k k' : Nat) (hsame : (m.relocated (arrival cut) #[]).SameView m') :
    ∃ n', n ≤ n' ∧ Turn.Alike cut (advance ⟨p, policy, none⟩ n ⟨m, k, false, none⟩)
      (advance ⟨q, policy, none⟩ n' ⟨m', k', false, none⟩) := by
  induction n generalizing m m' k k' with
  | zero => exact ⟨0, Nat.le_refl 0, .running hsame⟩
  | succ n ih =>
    obtain ⟨pair, m'', k'', hpair, hthere⟩ := exists_advance_pair h hundone policy k' hsame
    have hturn := turn_alike h policy k k'' hthere
    cases ht : turn ⟨p, policy, none⟩ ⟨m, k, false, none⟩ with
    | ended report =>
      rw [ht] at hturn
      cases ht' : turn ⟨q, policy, none⟩ ⟨m'', k'', false, none⟩ with
      | running r => rw [ht'] at hturn; cases hturn
      | ended report' =>
        rw [ht'] at hturn
        refine ⟨pair + (n + 1), Nat.le_add_left _ _, ?_⟩
        rw [advance_add_of_running hpair, advance_succ_of_ended ht, advance_succ_of_ended ht']
        exact hturn
    | running r =>
      rw [ht] at hturn
      cases ht' : turn ⟨q, policy, none⟩ ⟨m'', k'', false, none⟩ with
      | ended report' => rw [ht'] at hturn; cases hturn
      | running r' =>
        rw [ht'] at hturn
        cases hturn with
        | @running done done' steps steps' hdone =>
          obtain ⟨n', hn', halike⟩ := ih steps steps' hdone
          refine ⟨pair + (n' + 1), by omega, ?_⟩
          rw [advance_add_of_running hpair, advance_succ_of_running ht,
            advance_succ_of_running ht']
          exact halike

end Run

section Inserted

variable {cut : Nat} {a a' : Plain} {p q : Program} {policy : EofPolicy} {input : List UInt8}

/-- What a run with the two instructions comes to, next to the run without them. -/
theorem Setup.exists_progress_alike (h : Inserted cut a a' p q) (hundone : a.UndoneBy a')
    (policy : EofPolicy) (input : List UInt8) (n : Nat) :
    ∃ n', n ≤ n' ∧ Turn.Alike cut (progress ⟨p, policy, none⟩ n input false none)
      (progress ⟨q, policy, none⟩ n' input false none) := by
  have hstart : ((Machine.start input).relocated (arrival cut) #[]).SameView
      (Machine.start input) := by
    refine ⟨⟨Tape.wellFormed_fresh, Tape.wellFormed_fresh, rfl, fun _ => rfl⟩, ?_⟩
    rw [Machine.relocated, Array.empty_append]
    simp only [Machine.start, arrival_zero]
  exact Run.exists_advance_alike h hundone policy n 0 0 hstart

/-- If the run without the two instructions ends, the run with them ends alike. -/
theorem Setup.Ends.exists_inserted (h : Inserted cut a a' p q) (hundone : a.UndoneBy a')
    {report : Report} (hends : Ends ⟨p, policy, none⟩ input false none report) :
    ∃ report', Ends ⟨q, policy, none⟩ input false none report' ∧
      report'.outcome = report.outcome.mapError (Fault.relocated (apart cut)) := by
  obtain ⟨n, hn⟩ := hends
  obtain ⟨n', -, halike⟩ := exists_progress_alike h hundone policy input n
  rw [execute_eq_some_iff.1 hn] at halike
  cases hn' : progress ⟨q, policy, none⟩ n' input false none with
  | running r =>
    rw [hn'] at halike
    cases halike
  | ended report' =>
    rw [hn'] at halike
    cases halike with
    | ended houtcome => exact ⟨report', ⟨n', execute_eq_some_iff.2 hn'⟩, houtcome⟩

/-- If the run with the two instructions ends, so does the run without them. -/
theorem Setup.Ends.exists_of_inserted (h : Inserted cut a a' p q) (hundone : a.UndoneBy a')
    {report' : Report} (hends : Ends ⟨q, policy, none⟩ input false none report') :
    ∃ report, Ends ⟨p, policy, none⟩ input false none report := by
  obtain ⟨n', hn'⟩ := hends
  obtain ⟨n, hle, halike⟩ := exists_progress_alike h hundone policy input n'
  -- the run with the two instructions has ended by then
  rw [progress_of_ended (execute_eq_some_iff.1 hn') hle] at halike
  cases hn : progress ⟨p, policy, none⟩ n' input false none with
  | running r =>
    rw [hn] at halike
    cases halike
  | ended report => exact ⟨report, n', execute_eq_some_iff.2 hn⟩

/-- Both runs have the same output, or both fail at the same read. -/
theorem Setup.Ends.outcome_inserted (h : Inserted cut a a' p q) (hundone : a.UndoneBy a')
    (hp : p.Paired) {report report' : Report}
    (hends : Ends ⟨p, policy, none⟩ input false none report)
    (hends' : Ends ⟨q, policy, none⟩ input false none report') :
    (∃ output, report.outcome = .ok output ∧ report'.outcome = .ok output) ∨
      ∃ ip consumed, report.outcome = .error (.inputExhausted ip consumed) ∧
        report'.outcome = .error (.inputExhausted (apart cut ip) consumed) := by
  obtain ⟨found, hfound, houtcome⟩ := hends.exists_inserted h hundone
  obtain rfl := hends'.unique hfound
  have huntraced : ∀ sink ∈ (none : Option Sink), sink = Sink.unlimited := by simp
  rcases hends.cases_of_unlimited hp huntraced with ⟨m, hend⟩ | ⟨ip, consumed, hend⟩
  · have hok : report.outcome = .ok m.output := by rw [Report.outcome, hend]
    refine .inl ⟨m.output, hok, ?_⟩
    rw [houtcome, hok]
    rfl
  · have hfailed : report.outcome = .error (.inputExhausted ip consumed) := by
      rw [Report.outcome, hend]
    refine .inr ⟨ip, consumed, hfailed, ?_⟩
    rw [houtcome, hfailed]
    rfl

/-- The pairs of instructions that cancel. -/
theorem Plain.exists_undoneBy {pair : String} (h : pair ∈ ["><", "+-", "-+"]) :
    ∃ a a' : Plain, a.UndoneBy a' ∧ pair.toList = [a.instruction.char, a'.instruction.char] := by
  simp only [List.mem_cons, List.not_mem_nil, or_false] at h
  rcases h with rfl | rfl | rfl
  · exact ⟨_, _, .right, rfl⟩
  · exact ⟨_, _, .increment, rfl⟩
  · exact ⟨_, _, .decrement, rfl⟩

/-- Two instructions that cancel can be put into an accepted source anywhere, and the source is still
accepted.  Of the runs of both sources that nothing limits, under one policy and on one input, the one
ends if and only if the other does: both with the same output, or both at a read that finds no more
input after as many bytes, which stands two characters further on exactly if it stood at the place or
behind it. -/
theorem Program.ofSource_inserted {front back pair : String} (hpair : pair ∈ ["><", "+-", "-+"])
    (hp : ofSource (front ++ back) = .ok p) :
    ∃ q, ofSource (front ++ pair ++ back) = .ok q ∧
      ∀ (policy : EofPolicy) (input : List UInt8),
        ((∃ report', Setup.Ends ⟨q, policy, none⟩ input false none report') ↔
          ∃ report, Setup.Ends ⟨p, policy, none⟩ input false none report) ∧
        ∀ report report', Setup.Ends ⟨p, policy, none⟩ input false none report →
          Setup.Ends ⟨q, policy, none⟩ input false none report' →
          (∃ output, report.outcome = .ok output ∧ report'.outcome = .ok output) ∨
          ∃ ip consumed, report.outcome = .error (.inputExhausted ip consumed) ∧
            report'.outcome = .error (.inputExhausted
              (if front.length ≤ ip then ip + 2 else ip) consumed) := by
  obtain ⟨a, a', hundone, hchars⟩ := Plain.exists_undoneBy hpair
  have htext : (front ++ pair ++ back).toList = widened front.toList back.toList a a' := by
    rw [String.toList_append, String.toList_append, hchars, widened]
  rw [ofSource, String.toList_append] at hp
  obtain ⟨q, hq⟩ := (exists_ofText_widened front.toList back.toList a a').2 ⟨p, hp⟩
  have hinserted := inserted_of_ofText hp hq
  rw [String.length_toList] at hinserted
  refine ⟨q, by rw [ofSource, htext, hq], fun policy input => ⟨⟨?_, ?_⟩, ?_⟩⟩
  · rintro ⟨report', hends'⟩
    exact hends'.exists_of_inserted hinserted hundone
  · rintro ⟨report, hends⟩
    obtain ⟨report', hends', -⟩ := hends.exists_inserted hinserted hundone
    exact ⟨report', hends'⟩
  · intro report report' hends hends'
    simpa only [apart_eq_ite] using
      hends.outcome_inserted hinserted hundone (paired_of_ofText hp) hends'

/-- A pair put in behind the opening bracket of a loop.  The second read finds no input, two characters
further on. -/
theorem Program.ofSource_inserted_loop : ∃ p q report report',
    ofSource "+[>,]" = .ok p ∧ ofSource "+[><>,]" = .ok q ∧
      Setup.Ends ⟨p, .error, none⟩ [7] false none report ∧
      report.outcome = .error (.inputExhausted 3 1) ∧
      Setup.Ends ⟨q, .error, none⟩ [7] false none report' ∧
      report'.outcome = .error (.inputExhausted 5 1) := by
  have hp : ofSource ("+[" ++ ">,]") = .ok ⟨#['+', '[', '>', ',', ']'],
    #[none, some 4, none, none, some 1]⟩ := rfl
  have hpair : "><" ∈ ["><", "+-", "-+"] := List.mem_cons_self
  obtain ⟨q, hq, hruns⟩ := ofSource_inserted hpair hp
  obtain ⟨hiff, houtcomes⟩ := hruns .error [7]
  have hends : Setup.Ends ⟨⟨#['+', '[', '>', ',', ']'], #[none, some 4, none, none, some 1]⟩,
    .error, none⟩ [7] false none ⟨.failed (.inputExhausted 3 1), 6, none⟩ := ⟨8, rfl⟩
  obtain ⟨report', hends'⟩ := hiff.2 ⟨_, hends⟩
  refine ⟨_, q, _, report', hp, hq, hends, rfl, hends', ?_⟩
  rcases houtcomes _ _ hends hends' with ⟨output, hok, -⟩ | ⟨ip, consumed, hfailed, hfailed'⟩
  · cases hok
  · cases hfailed
    exact hfailed'

end Inserted

end TapeMachine
