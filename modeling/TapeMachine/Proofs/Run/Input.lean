import TapeMachine.Proofs.Machine.Input
import TapeMachine.Proofs.Run.Progress
set_option autoImplicit false

/-!
# Run: the input

How a run takes its input.  Every read takes one byte, in order, as long as there is one, so the input
of a run between two turns is known from the number of reads so far (`input_of_progress`).

What a run does depends only on the bytes that it gets.  Two runs of one program, under whatever
policies and on whatever inputs, are the same apart from what is left of the input as long as their
reads give the same (`progress_withInput`).

Main statement: the input is consumed as a prefix, in order and once, and what is not read has no
influence (`reads_in_order`).
-/

namespace TapeMachine

/-- The next turn executes a read: the run stands in front of one, and nothing keeps it from being
attempted. -/
def Run.Reads (setup : Setup) (r : Run) : Prop :=
  setup.program.code[r.machine.ip]? = some ',' ∧ Run.obstacle? setup r.cancelled r.steps = none

instance (setup : Setup) : DecidablePred (Run.Reads setup) := fun r =>
  inferInstanceAs (Decidable (setup.program.code[r.machine.ip]? = some ',' ∧
    Run.obstacle? setup r.cancelled r.steps = none))

/-- How many of the first `turns` turns of a run find it in a state of this kind. -/
def Setup.turnsWith (setup : Setup) (kind : Run → Prop) [DecidablePred kind] (turns : Nat)
    (input : List UInt8) (cancelled : Bool) (trace : Option Sink) : Nat :=
  (List.range turns).countP fun n =>
    match setup.progress n input cancelled trace with
    | .running r => decide (kind r)
    | .ended _ => false

/-- The number of reads that the first `turns` turns execute, one that fails included. -/
def Setup.reads (setup : Setup) (turns : Nat) (input : List UInt8) (cancelled : Bool)
    (trace : Option Sink) : Nat :=
  setup.turnsWith (Run.Reads setup) turns input cancelled trace

/-- The number of those reads that find nothing left of the input. -/
def Setup.readsPastEnd (setup : Setup) (turns : Nat) (input : List UInt8) (cancelled : Bool)
    (trace : Option Sink) : Nat :=
  setup.turnsWith (fun r => r.Reads setup ∧ r.machine.input.rest = []) turns input cancelled trace

/-- The same run in front of another input. -/
def Run.withInput (input : Input) (r : Run) : Run :=
  { r with machine := r.machine.withInput input }

/-- The same ending in front of another input. -/
def Ending.withInput (input : Input) : Ending → Ending
  | finished machine => finished (machine.withInput input)
  | failed fault => failed fault

/-- The report of the same run in front of another input. -/
def Report.withInput (input : Input) (report : Report) : Report :=
  { report with ending := report.ending.withInput input }

/-- What the same run has come to in front of another input. -/
def Turn.withInput (input : Input) : Turn → Turn
  | running r => running (r.withInput input)
  | ended report => ended (report.withInput input)

/-- A read gives the same byte in both cases, and a trace says the same about it. -/
def EofPolicy.SameRead (policy policy' : EofPolicy) (bytes bytes' : List UInt8)
    (trace : Option Sink) (reads : Nat) : Prop :=
  ∃ b, policy.byte? bytes reads = some b ∧ policy'.byte? bytes' reads = some b ∧
    (trace = none ∨
      (Input.after bytes (reads + 1)).position = (Input.after bytes' (reads + 1)).position)

/-- The input is not in the outcome. -/
theorem Report.outcome_withInput (input : Input) (report : Report) :
    (report.withInput input).outcome = report.outcome := by
  unfold outcome withInput
  cases report.ending <;> rfl

/-! ## Counting turns -/

section Count

variable {setup : Setup} {input : List UInt8} {cancelled : Bool} {trace : Option Sink} {n : Nat}

theorem Setup.turnsWith_succ_of_running (kind : Run → Prop) [DecidablePred kind] {r : Run}
    (h : setup.progress n input cancelled trace = .running r) :
    setup.turnsWith kind (n + 1) input cancelled trace =
      setup.turnsWith kind n input cancelled trace + if kind r then 1 else 0 := by
  unfold turnsWith
  rw [List.range_succ, List.countP_append, List.countP_singleton]
  simp only [h, decide_eq_true_eq]

theorem Setup.turnsWith_succ_of_ended (kind : Run → Prop) [DecidablePred kind] {report : Report}
    (h : setup.progress n input cancelled trace = .ended report) :
    setup.turnsWith kind (n + 1) input cancelled trace =
      setup.turnsWith kind n input cancelled trace := by
  unfold turnsWith
  rw [List.range_succ, List.countP_append, List.countP_singleton]
  simp only [h, Bool.false_eq_true, if_false, Nat.add_zero]

theorem Setup.reads_succ_of_running {r : Run}
    (h : setup.progress n input cancelled trace = .running r) :
    setup.reads (n + 1) input cancelled trace =
      setup.reads n input cancelled trace + if r.Reads setup then 1 else 0 :=
  turnsWith_succ_of_running _ h

theorem Setup.reads_succ_of_ended {report : Report}
    (h : setup.progress n input cancelled trace = .ended report) :
    setup.reads (n + 1) input cancelled trace = setup.reads n input cancelled trace :=
  turnsWith_succ_of_ended _ h

end Count

/-! ## One turn -/

namespace Run

variable {p : Program} {policy policy' : EofPolicy} {maxSteps : Option Nat} {setup : Setup}
  {r r' : Run} {bytes bytes' : List UInt8} {reads : Nat}

theorem reads_iff {i : Instruction} (hi : setup.program.code[r.machine.ip]? = some i.char)
    (ho : obstacle? setup r.cancelled r.steps = none) : r.Reads setup ↔ i = .get := by
  unfold Reads
  rw [hi, Option.some.injEq]
  constructor
  · intro h
    exact Instruction.char_injective h.1
  · intro h
    exact ⟨congrArg Instruction.char h, ho⟩

theorem not_reads_of_end (h : setup.program.code[r.machine.ip]? = none) : ¬r.Reads setup := by
  intro hreads
  cases h.symm.trans hreads.1

theorem not_reads_of_comment {c : Char} (h : setup.program.code[r.machine.ip]? = some c)
    (hno : Instruction.ofChar? c = none) : ¬r.Reads setup := by
  intro hreads
  cases h.symm.trans hreads.1
  cases hno

theorem not_reads_of_obstacle {fault : Fault}
    (h : obstacle? setup r.cancelled r.steps = some fault) : ¬r.Reads setup := by
  intro hreads
  cases h.symm.trans hreads.2

/-- A read that gets no byte ends the run. -/
theorem turn_of_exhausted (hreads : r.Reads ⟨p, policy, maxSteps⟩)
    (hinput : r.machine.input = Input.after bytes reads)
    (hb : policy.byte? bytes reads = none) :
    r.turn ⟨p, policy, maxSteps⟩ =
      .ended ⟨.failed (.inputExhausted r.machine.ip bytes.length), r.steps, r.trace⟩ :=
  turn_of_fault (i := .get) hreads.1 hreads.2 (Machine.perform_get_of_exhausted p hinput hb)

/-- A turn takes one byte of the input if it executes a read, and none otherwise. -/
theorem input_of_turn (hinput : r.machine.input = Input.after bytes reads)
    (ht : r.turn setup = .running r') :
    r'.machine.input = Input.after bytes (reads + if r.Reads setup then 1 else 0) := by
  rcases cases_of_turn_running ht with ⟨c, hc, hno, rfl⟩ | ⟨i, done, row, hi, ho, hp, hdone⟩
  · rw [if_neg (not_reads_of_comment hc hno)]
    exact hinput
  · rw [(machine_of_complete hdone).1]
    by_cases hget : i = .get
    · subst hget
      rw [if_pos ((reads_iff hi ho).2 rfl)]
      cases hb : setup.policy.byte? bytes reads with
      | none => cases hp.symm.trans (Machine.perform_get_of_exhausted _ hinput hb)
      | some b =>
        cases hp.symm.trans (Machine.perform_get_of_byte? _ hinput hb)
        rfl
    · rw [if_neg fun hreads => hget ((reads_iff hi ho).1 hreads)]
      exact (Machine.input_of_perform hget hp).trans hinput

/-- What a trace is told of an instruction does not depend on what is left of the input. -/
theorem complete_withInput (input : Input) (machine : Machine) (steps : Nat) (cancelled : Bool)
    (trace : Option Sink) (row : Row) :
    complete (machine.withInput input) steps cancelled trace row =
      (complete machine steps cancelled trace row).withInput input := by
  unfold complete
  cases trace with
  | none => rfl
  | some sink =>
    simp only
    split <;> rfl

/-- A turn does the same in front of another input, if it is no read or if the read gives the
same. -/
theorem turn_withInput (hinput : r.machine.input = Input.after bytes reads)
    (hsame : r.Reads ⟨p, policy, maxSteps⟩ →
      policy.SameRead policy' bytes bytes' r.trace reads) :
    (r.withInput (Input.after bytes' reads)).turn ⟨p, policy', maxSteps⟩ =
      (r.turn ⟨p, policy, maxSteps⟩).withInput
        (Input.after bytes' (reads + if r.Reads ⟨p, policy, maxSteps⟩ then 1 else 0)) := by
  have hobstacle : obstacle? ⟨p, policy', maxSteps⟩ r.cancelled r.steps =
      obstacle? ⟨p, policy, maxSteps⟩ r.cancelled r.steps := rfl
  rcases cases_of_turn ⟨p, policy, maxSteps⟩ r with ⟨hc, ht⟩ | ⟨c, hc, hno, ht⟩ | ⟨i, hi, hattempt⟩
  · rw [ht, if_neg (not_reads_of_end hc)]
    exact turn_of_end hc
  · rw [ht, if_neg (not_reads_of_comment hc hno)]
    exact turn_of_comment hc hno
  · rcases hattempt with ⟨fault, ho, ht⟩ | ⟨ho, hperform⟩
    · rw [ht, if_neg (not_reads_of_obstacle ho)]
      exact turn_of_obstacle hi (hobstacle.trans ho)
    · by_cases hget : i = .get
      · -- both reads get the same byte
        subst hget
        have hreads : r.Reads ⟨p, policy, maxSteps⟩ := (reads_iff hi ho).2 rfl
        obtain ⟨b, hb, hb', htold⟩ := hsame hreads
        have hp := Machine.perform_get_of_byte? p hinput hb
        have hp' := Machine.perform_get_of_byte? p
          (m := r.machine.withInput (Input.after bytes' reads)) rfl hb'
        have hturn : (r.withInput (Input.after bytes' reads)).turn ⟨p, policy', maxSteps⟩ = _ :=
          turn_of_perform hi (hobstacle.trans ho) hp'
        rw [hturn, turn_of_perform hi ho hp, if_pos hreads, ← complete_withInput]
        rcases htold with hnone | hposition
        · simp only [withInput, hnone]
          rfl
        · rw [hposition]
          rfl
      · have hother := Machine.perform_withInput p policy policy' hget r.machine
          (Input.after bytes' reads)
        rw [if_neg fun hreads => hget ((reads_iff hi ho).1 hreads)]
        rcases hperform with ⟨fault, hp, ht⟩ | ⟨machine, row, hp, ht⟩
        · rw [hp] at hother
          rw [ht]
          exact turn_of_fault hi (hobstacle.trans ho) hother
        · rw [hp] at hother
          rw [ht, ← complete_withInput]
          exact turn_of_perform hi (hobstacle.trans ho) hother

end Run

/-! ## Many turns -/

section Progress

variable {p : Program} {policy policy' : EofPolicy} {maxSteps : Option Nat} {setup : Setup}
  {input input' : List UInt8} {cancelled : Bool} {trace : Option Sink} {n : Nat} {r : Run}
  {report : Report}

/-- The start of a run is the same in front of every input. -/
theorem Run.start_withInput (input input' : List UInt8) (cancelled : Bool) (trace : Option Sink) :
    start input' cancelled trace =
      (start input cancelled trace).withInput (Input.after input' 0) := by
  rw [Input.after_zero]
  unfold start
  cases trace with
  | none => rfl
  | some sink =>
    simp only
    split
    · rfl
    · split <;> rfl

/-- The input between two turns is what the reads so far have left of it. -/
theorem Setup.input_of_progress (h : setup.progress n input cancelled trace = .running r) :
    r.machine.input = Input.after input (setup.reads n input cancelled trace) := by
  induction n generalizing r with
  | zero =>
    unfold progress at h
    cases hstart : Run.start input cancelled trace with
    | ended report =>
      rw [hstart] at h
      cases h
    | running first =>
      rw [hstart] at h
      cases h
      rw [Run.machine_of_start hstart]
      exact (Input.after_zero input).symm
  | succ n ih =>
    obtain ⟨last, hlast, hturn⟩ := exists_turn_of_progress_succ h
    rw [reads_succ_of_running hlast]
    exact Run.input_of_turn (ih hlast) hturn

/-- Of the reads, those beyond the number of bytes find nothing left. -/
theorem Setup.readsPastEnd_eq (setup : Setup) (n : Nat) (input : List UInt8) (cancelled : Bool)
    (trace : Option Sink) :
    setup.readsPastEnd n input cancelled trace =
      setup.reads n input cancelled trace - input.length := by
  induction n with
  | zero => exact (Nat.zero_sub _).symm
  | succ n ih =>
    cases hn : setup.progress n input cancelled trace with
    | ended report =>
      rw [reads_succ_of_ended hn, ← ih]
      exact turnsWith_succ_of_ended _ hn
    | running r =>
      have hrest : r.machine.input.rest = [] ↔
          input.length ≤ setup.reads n input cancelled trace := by
        rw [input_of_progress hn, Input.rest_after_eq_nil_iff]
      refine (turnsWith_succ_of_running _ hn).trans ?_
      rw [reads_succ_of_running hn, ← readsPastEnd, ih]
      by_cases hreads : r.Reads setup
      · simp only [hreads, hrest, true_and, if_true]
        split <;> omega
      · simp only [hreads, false_and, if_false, Nat.add_zero]

/-- Every read but one that ends the run gets a byte. -/
theorem Setup.exists_byte?_of_lt_reads
    (hne : ∀ report, progress ⟨p, policy, maxSteps⟩ n input cancelled trace = .ended report →
      ∀ ip consumed, report.ending ≠ .failed (.inputExhausted ip consumed)) {j : Nat}
    (hj : j < reads ⟨p, policy, maxSteps⟩ n input cancelled trace) :
    ∃ b, policy.byte? input j = some b := by
  induction n with
  | zero => cases hj
  | succ n ih =>
    cases hn : progress ⟨p, policy, maxSteps⟩ n input cancelled trace with
    | ended report =>
      rw [reads_succ_of_ended hn] at hj
      rw [progress_of_ended hn (Nat.le_succ n)] at hne
      exact ih (fun report' hreport => hne report' (hn.symm.trans hreport)) hj
    | running r =>
      rw [reads_succ_of_running hn] at hj
      have hbefore := ih fun report hreport => by cases hn.symm.trans hreport
      by_cases hreads : r.Reads ⟨p, policy, maxSteps⟩
      · rw [if_pos hreads] at hj
        rcases Nat.lt_or_eq_of_le (Nat.le_of_lt_succ hj) with hlt | rfl
        · exact hbefore hlt
        · cases hb : policy.byte? input
              (reads ⟨p, policy, maxSteps⟩ n input cancelled trace) with
          | some b => exact ⟨b, rfl⟩
          | none =>
            have hturn := Run.turn_of_exhausted hreads (input_of_progress hn) hb
            exact absurd rfl (hne _ ((progress_succ hn).trans hturn) _ _)
      · rw [if_neg hreads] at hj
        exact hbefore hj

/-- Before a turn there have not been more reads than bytes, if reading past the end is a fault. -/
theorem Setup.reads_le_length
    (h : progress ⟨p, .error, maxSteps⟩ n input cancelled trace = .running r) :
    reads ⟨p, .error, maxSteps⟩ n input cancelled trace ≤ input.length := by
  refine Nat.le_of_not_lt fun hlt => ?_
  have hne : ∀ report, progress ⟨p, .error, maxSteps⟩ n input cancelled trace = .ended report →
      ∀ ip consumed, report.ending ≠ .failed (.inputExhausted ip consumed) := by
    intro report hreport
    cases h.symm.trans hreport
  obtain ⟨b, hb⟩ := exists_byte?_of_lt_reads hne hlt
  rw [EofPolicy.byte?_eq_none_iff.2 ⟨rfl, Nat.le_refl _⟩] at hb
  cases hb

/-- Two runs of one program are the same apart from what is left of the input, as long as their reads
give the same. -/
theorem Setup.progress_withInput
    (hsame : ∀ j < reads ⟨p, policy, maxSteps⟩ n input cancelled trace,
      policy.SameRead policy' input input' trace j) :
    progress ⟨p, policy', maxSteps⟩ n input' cancelled trace =
      (progress ⟨p, policy, maxSteps⟩ n input cancelled trace).withInput
        (Input.after input' (reads ⟨p, policy, maxSteps⟩ n input cancelled trace)) := by
  induction n with
  | zero =>
    unfold progress
    rw [Run.start_withInput input input']
    cases Run.start input cancelled trace <;> rfl
  | succ n ih =>
    cases hn : progress ⟨p, policy, maxSteps⟩ n input cancelled trace with
    | ended report =>
      rw [reads_succ_of_ended hn] at hsame ⊢
      have hended := ih hsame
      rw [hn] at hended
      rw [progress_of_ended hn (Nat.le_succ n)]
      exact progress_of_ended hended (Nat.le_succ n)
    | running r =>
      rw [reads_succ_of_running hn] at hsame ⊢
      have hrunning := ih fun j hj => hsame j (Nat.lt_add_right _ hj)
      rw [hn] at hrunning
      rw [progress_succ hn, progress_succ hrunning]
      refine Run.turn_withInput (input_of_progress hn) fun hreads => ?_
      rw [if_pos hreads] at hsame
      obtain ⟨b, hb, hb', htold⟩ := hsame _ (Nat.lt_succ_self _)
      refine ⟨b, hb, hb', htold.imp_left fun hnone => ?_⟩
      subst hnone
      have htrace := Run.trace_progress_none ⟨p, policy, maxSteps⟩ n input cancelled
      rw [hn] at htrace
      exact htrace

/-- If the reads give the same, the other run ends after as many turns and in the same way. -/
theorem Setup.execute_withInput
    (h : execute ⟨p, policy, maxSteps⟩ n input cancelled trace = some report)
    (hsame : ∀ j < reads ⟨p, policy, maxSteps⟩ n input cancelled trace,
      policy.SameRead policy' input input' trace j) :
    ∃ report', execute ⟨p, policy', maxSteps⟩ n input' cancelled trace = some report' ∧
      report'.outcome = report.outcome ∧ report'.steps = report.steps ∧
      report'.trace = report.trace := by
  have hprogress := progress_withInput hsame
  rw [execute_eq_some_iff.1 h] at hprogress
  exact ⟨_, execute_eq_some_iff.2 hprogress, report.outcome_withInput _, rfl, rfl⟩

/-! ## Reads that fail -/

/-- A run whose trace does not take the head ends with a line that could not be written. -/
theorem Run.ending_of_start (h : start input cancelled trace = .ended report) :
    report.ending = .failed (.traceWrite 0 Sink.refusal) := by
  simp only [start] at h
  repeat' split at h
  all_goals cases h <;> rfl

/-- A turn that ends the run for want of input executes a read that gets no byte. -/
theorem Run.reads_of_turn_exhausted {reads ip consumed : Nat}
    (hinput : r.machine.input = Input.after input reads)
    (ht : r.turn ⟨p, policy, maxSteps⟩ = .ended report)
    (hfailed : report.ending = .failed (.inputExhausted ip consumed)) :
    r.Reads ⟨p, policy, maxSteps⟩ ∧ policy.byte? input reads = none ∧ ip = r.machine.ip ∧
      consumed = input.length := by
  rcases cases_of_turn_ended ht with ⟨-, rfl⟩ | ⟨i, hi, ⟨fault, ho, rfl⟩ | ⟨ho, hperform⟩⟩
  · cases hfailed
  · cases hfailed
    unfold obstacle? at ho
    repeat' split at ho
    all_goals cases ho
  · rcases hperform with ⟨fault, hp, rfl⟩ | ⟨machine, row, -, hdone⟩
    · cases hfailed
      obtain rfl := Machine.eq_get_of_exhausted hp
      refine ⟨(reads_iff hi ho).2 rfl, ?_⟩
      cases hb : policy.byte? input reads with
      | some b => cases hp.symm.trans (Machine.perform_get_of_byte? p hinput hb)
      | none =>
        cases hp.symm.trans (Machine.perform_get_of_exhausted p hinput hb)
        exact ⟨rfl, rfl, rfl⟩
    · rw [(fault_of_complete hdone).1] at hfailed
      cases hfailed

/-- A run that ends for want of input has read the whole input before, and the policy makes the next
read a fault. -/
theorem Setup.exists_read_of_exhausted {ip consumed : Nat}
    (h : execute ⟨p, policy, maxSteps⟩ n input cancelled trace = some report)
    (hfailed : report.ending = .failed (.inputExhausted ip consumed)) :
    policy = .error ∧ consumed = input.length ∧ p.code[ip]? = some ',' ∧
      ∃ k r, progress ⟨p, policy, maxSteps⟩ k input cancelled trace = .running r ∧
        r.turn ⟨p, policy, maxSteps⟩ = .ended report ∧ r.machine.ip = ip ∧
        reads ⟨p, policy, maxSteps⟩ k input cancelled trace = input.length := by
  rcases start_or_turn_of_ended (execute_eq_some_iff.1 h) with hstart | ⟨k, r, hk, hturn⟩
  · rw [Run.ending_of_start hstart] at hfailed
    cases hfailed
  · obtain ⟨hreads, hb, rfl, rfl⟩ :=
      Run.reads_of_turn_exhausted (input_of_progress hk) hturn hfailed
    obtain ⟨rfl, hle⟩ := EofPolicy.byte?_eq_none_iff.1 hb
    exact ⟨rfl, rfl, hreads.1, k, r, hk, hturn, rfl, Nat.le_antisymm (reads_le_length hk) hle⟩

/-! ## Unread input -/

/-- Bytes that are read are the same in front of whatever follows them. -/
theorem EofPolicy.sameRead_take (policy : EofPolicy) {k j : Nat} (hj : j < k)
    (hk : k ≤ input.length) (more : List UInt8) (trace : Option Sink) :
    policy.SameRead policy input (input.take k ++ more) trace j := by
  have htake : (input.take k).length = k := List.length_take_of_le hk
  have hlt : j < input.length := Nat.lt_of_lt_of_le hj hk
  have hbyte : (input.take k ++ more)[j]? = some input[j] := by
    rw [List.getElem?_append_left (by omega), List.getElem?_take_of_lt hj,
      List.getElem?_eq_getElem hlt]
  refine ⟨input[j], policy.byte?_of_getElem? (List.getElem?_eq_getElem hlt),
    policy.byte?_of_getElem? hbyte, .inr ?_⟩
  simp only [Input.after, List.length_append, htake]
  omega

/-- A run of an accepted source, under whatever policy and control, consumes its input as a prefix, in
order and once.  Reads are counted from 0.

* Between two turns as many bytes are gone from the front of the input as there have been reads, or
  all of them.
* Read number `j` stores byte number `j` as long as there is one.
* If the run ends for want of input, reading past the end is a fault, and it has ended at a read
  with as many reads before it as there are bytes, all of which have been consumed.
* If the run ends without a read past the end, having read `k` bytes, it ends in the same way on
  these bytes with anything behind them. -/
theorem Setup.reads_in_order {source : String} (hsource : Program.ofSource source = .ok p)
    (policy : EofPolicy) (maxSteps : Option Nat) (input : List UInt8) (cancelled : Bool)
    (trace : Option Sink) :
    (∀ n r, progress ⟨p, policy, maxSteps⟩ n input cancelled trace = .running r →
      r.machine.input = Input.after input (reads ⟨p, policy, maxSteps⟩ n input cancelled trace)) ∧
    (∀ n r j b, progress ⟨p, policy, maxSteps⟩ n input cancelled trace = .running r →
      r.Reads ⟨p, policy, maxSteps⟩ →
      reads ⟨p, policy, maxSteps⟩ n input cancelled trace = j → input[j]? = some b →
      ∃ done row, r.machine.perform p policy .get = .ok (done, row) ∧
        r.turn ⟨p, policy, maxSteps⟩ = Run.complete done r.steps r.cancelled r.trace row ∧
        done.tape = r.machine.tape.write b) ∧
    (∀ n report ip consumed,
      execute ⟨p, policy, maxSteps⟩ n input cancelled trace = some report →
      report.ending = .failed (.inputExhausted ip consumed) →
      policy = .error ∧ consumed = input.length ∧ source.toList[ip]? = some ',' ∧
        ∃ k r, progress ⟨p, policy, maxSteps⟩ k input cancelled trace = .running r ∧
          r.turn ⟨p, policy, maxSteps⟩ = .ended report ∧ r.machine.ip = ip ∧
          reads ⟨p, policy, maxSteps⟩ k input cancelled trace = input.length) ∧
    ∀ n report k, execute ⟨p, policy, maxSteps⟩ n input cancelled trace = some report →
      readsPastEnd ⟨p, policy, maxSteps⟩ n input cancelled trace = 0 →
      reads ⟨p, policy, maxSteps⟩ n input cancelled trace = k →
      k ≤ input.length ∧ ∀ more, ∃ report',
        execute ⟨p, policy, maxSteps⟩ n (input.take k ++ more) cancelled trace = some report' ∧
        report'.outcome = report.outcome ∧ report'.steps = report.steps ∧
        report'.trace = report.trace := by
  refine ⟨fun n r => input_of_progress, ?_, ?_, ?_⟩
  · intro n r j b hn hreads hj hb
    have hp := Machine.perform_get_of_byte? p (input_of_progress hn)
      (policy.byte?_of_getElem? (hj ▸ hb))
    exact ⟨_, _, hp, Run.turn_of_perform (i := .get) hreads.1 hreads.2 hp, rfl⟩
  · intro n report ip consumed hn hfailed
    obtain ⟨hpolicy, hconsumed, hchar, hread⟩ := exists_read_of_exhausted hn hfailed
    rw [Program.code_of_ofText hsource, List.getElem?_toArray] at hchar
    exact ⟨hpolicy, hconsumed, hchar, hread⟩
  · rintro n report k hn hpast rfl
    rw [readsPastEnd_eq] at hpast
    have hle := Nat.le_of_sub_eq_zero hpast
    refine ⟨hle, fun more => ?_⟩
    exact execute_withInput hn fun j hj => policy.sameRead_take hj hle more trace

/-- The loop ends at the zero byte, and what stands behind this is not read. -/
theorem Setup.reads_in_order_unread : ∃ p report, Program.ofSource ",[.,]" = .ok p ∧
    execute ⟨p, .error, none⟩ 6 [65, 0, 66] false none = some report ∧
    report.outcome = .ok #[65] ∧ readsPastEnd ⟨p, .error, none⟩ 6 [65, 0, 66] false none = 0 ∧
    reads ⟨p, .error, none⟩ 6 [65, 0, 66] false none = 2 ∧
    ∃ report', execute ⟨p, .error, none⟩ 6 [65, 0, 7, 8] false none = some report' ∧
      report'.outcome = .ok #[65] := by
  have hsource : Program.ofSource ",[.,]" =
      .ok ⟨#[',', '[', '.', ',', ']'], #[none, some 4, none, none, some 1]⟩ := rfl
  have hexecute : ∃ report, execute ⟨⟨#[',', '[', '.', ',', ']'],
      #[none, some 4, none, none, some 1]⟩, .error, none⟩ 6 [65, 0, 66] false none = some report ∧
      report.outcome = .ok #[65] := ⟨_, rfl, rfl⟩
  obtain ⟨report, hreport, houtcome⟩ := hexecute
  obtain ⟨-, hmore⟩ := (reads_in_order hsource .error none [65, 0, 66] false none).2.2.2
    6 report 2 hreport (by decide) (by decide)
  obtain ⟨report', hreport', hsame, -⟩ := hmore [7, 8]
  exact ⟨_, report, hsource, hreport, houtcome, by decide, by decide, report', hreport',
    hsame.trans houtcome⟩

end Progress

end TapeMachine
