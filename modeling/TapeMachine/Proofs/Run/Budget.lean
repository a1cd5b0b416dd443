import TapeMachine.Proofs.Run.Progress
set_option autoImplicit false

/-!
# Run: the work under a step limit

How many turns a run can take under a step limit.  Neither its steps nor its way through the program
bound them alone: a comment is no step, and a loop that is repeated leads back to its start.
`Run.budget` weighs the one against the other.  A step that is left is worth a way through the whole
program, and the rest of the program and the turn that finds its end come on top.

Every turn after which a run goes on spends some of the budget (`Run.budget_lt_of_turn`), so that a run
is over when it has taken as many turns (`Run.exists_finish_of_budget_le`).

Main statement: a run under a step limit ends, after so many steps at most and so many turns at most,
whatever the program and the trace are (`Setup.exists_execute_of_limit`).
-/

namespace TapeMachine

namespace Run

variable {setup : Setup} {limit n : Nat} {r r' : Run}

/-- A bound on the turns that a run can still take under the limit. -/
def budget (setup : Setup) (limit : Nat) (r : Run) : Nat :=
  (limit - r.steps) * setup.program.length + (setup.program.length - r.machine.ip) + 1

/-! ## One turn -/

/-- An instruction is attempted only if a step is left. -/
theorem lt_of_obstacle?_eq_none (hlimit : setup.maxSteps = some limit) {cancelled : Bool}
    {steps : Nat} (h : obstacle? setup cancelled steps = none) : steps < limit := by
  simp only [obstacle?, hlimit] at h
  split at h
  · cases h
  · split at h
    · cases h
    · next hlt => exact Nat.lt_of_not_le hlt

/-- A turn after which a run goes on spends some of its budget. -/
theorem budget_lt_of_turn (hlimit : setup.maxSteps = some limit)
    (h : r.turn setup = .running r') : budget setup limit r' < budget setup limit r := by
  rcases cases_of_turn_running h with ⟨c, hc, -, rfl⟩ | ⟨i, machine, row, hi, ho, -, hdone⟩
  · -- a comment leads one character on
    have hip : r.machine.ip < setup.program.length := (Array.getElem?_eq_some_iff.1 hc).1
    simp only [budget, Machine.skip]
    omega
  · -- an instruction may lead anywhere, but it takes a step
    have hip : r.machine.ip < setup.program.length := (Array.getElem?_eq_some_iff.1 hi).1
    have hleft : limit - r.steps = limit - r'.steps + 1 := by
      have := lt_of_obstacle?_eq_none hlimit ho
      have := (machine_of_complete hdone).2
      omega
    rw [budget, budget, hleft, Nat.succ_mul]
    omega

/-- Completing an instruction leads to the next step or ends the run before it. -/
theorem steps_complete_le (machine : Machine) (steps : Nat) (cancelled : Bool) (trace : Option Sink)
    (row : Row) : (complete machine steps cancelled trace row).steps ≤ steps + 1 := by
  cases h : complete machine steps cancelled trace row with
  | running r => exact Nat.le_of_eq (machine_of_complete h).2
  | ended report => exact Nat.le_succ_of_le (Nat.le_of_eq (fault_of_complete h).2)

/-- No turn leads over the limit. -/
theorem steps_turn_le (hlimit : setup.maxSteps = some limit) (hle : r.steps ≤ limit) :
    (r.turn setup).steps ≤ limit := by
  rcases cases_of_turn setup r with ⟨-, ht⟩ | ⟨c, -, -, ht⟩ | ⟨i, -, hattempt⟩
  · rw [ht]
    exact hle
  · rw [ht]
    exact hle
  · rcases hattempt with ⟨fault, -, ht⟩ | ⟨ho, ⟨fault, -, ht⟩ | ⟨machine, row, -, ht⟩⟩
    · rw [ht]
      exact hle
    · rw [ht]
      exact hle
    · rw [ht]
      exact Nat.le_trans (steps_complete_le ..) (lt_of_obstacle?_eq_none hlimit ho)

/-! ## Many turns -/

/-- The turns that a run has taken and the budget it then has are within the budget it had. -/
theorem add_budget_le_of_advance (hlimit : setup.maxSteps = some limit)
    (h : advance setup n r = .running r') :
    n + budget setup limit r' ≤ budget setup limit r := by
  induction n generalizing r with
  | zero =>
    cases h
    exact Nat.le_of_eq (Nat.zero_add _)
  | succ n ih =>
    cases ht : r.turn setup with
    | ended report =>
      rw [advance_succ_of_ended ht] at h
      cases h
    | running next =>
      rw [advance_succ_of_running ht] at h
      have hspent := budget_lt_of_turn hlimit ht
      have hrest := ih h
      omega

/-- A run is over when its budget is spent. -/
theorem exists_finish_of_budget_le (hlimit : setup.maxSteps = some limit)
    (h : budget setup limit r ≤ n) : ∃ report, finish setup n r = some report := by
  cases ha : advance setup n r with
  | ended report => exact ⟨report, by rw [finish, ha]⟩
  | running r' =>
    have hspent := add_budget_le_of_advance hlimit ha
    have hpos : 0 < budget setup limit r' := Nat.succ_pos _
    omega

theorem steps_advance_le (hlimit : setup.maxSteps = some limit) (hle : r.steps ≤ limit) (n : Nat) :
    (advance setup n r).steps ≤ limit := by
  induction n generalizing r with
  | zero => exact hle
  | succ n ih =>
    have hturn := steps_turn_le hlimit hle
    cases ht : r.turn setup with
    | ended report =>
      rw [advance_succ_of_ended ht]
      rwa [ht] at hturn
    | running next =>
      rw [advance_succ_of_running ht]
      rw [ht] at hturn
      exact ih hturn

/-! ## From the start -/

theorem steps_start (input : List UInt8) (cancelled : Bool) (trace : Option Sink) :
    (start input cancelled trace).steps = 0 := by
  simp only [start]
  repeat' split
  all_goals rfl

/-- A run starts with a budget that allows for one way through the program and one more for each
step. -/
theorem budget_of_start {input : List UInt8} {cancelled : Bool} {trace : Option Sink}
    (h : start input cancelled trace = .running r) :
    budget setup limit r = (limit + 1) * setup.program.length + 1 := by
  have hsteps : r.steps = 0 := by
    have hstart := steps_start input cancelled trace
    rwa [h] at hstart
  have hip : r.machine.ip = 0 := by
    rw [machine_of_start h]
    rfl
  rw [budget, hsteps, hip, Nat.sub_zero, Nat.sub_zero, Nat.succ_mul]

end Run

section

variable {p : Program} {policy : EofPolicy} {limit : Nat}

/-- At no time has a run completed more instructions than its limit allows. -/
theorem Setup.steps_progress_le (turns : Nat) (input : List UInt8) (cancelled : Bool)
    (trace : Option Sink) :
    (progress ⟨p, policy, some limit⟩ turns input cancelled trace).steps ≤ limit := by
  have hstart : (Run.start input cancelled trace).steps ≤ limit := by
    rw [Run.steps_start]
    exact Nat.zero_le limit
  unfold progress
  cases h : Run.start input cancelled trace with
  | ended report => rwa [h] at hstart
  | running r =>
    rw [h] at hstart
    exact Run.steps_advance_le rfl hstart turns

theorem Setup.exists_execute_of_budget_le {turns : Nat} (input : List UInt8) (cancelled : Bool)
    (trace : Option Sink) (h : (limit + 1) * p.length + 1 ≤ turns) :
    ∃ report, execute ⟨p, policy, some limit⟩ turns input cancelled trace = some report := by
  have hlimit : (Setup.mk p policy (some limit)).maxSteps = some limit := rfl
  unfold execute
  cases hstart : Run.start input cancelled trace with
  | ended report => exact ⟨report, rfl⟩
  | running r =>
    refine Run.exists_finish_of_budget_le hlimit ?_
    rw [Run.budget_of_start hstart]
    exact h

end

/-- A run of an accepted program under a step limit ends, whatever it reads and traces and whether it is
asked to stop or not.  In a turn it passes over a comment, attempts an instruction or finds the end of
the program, and it takes no more turns than a way through the whole program and its end for each step
and one way more.  At no time has it completed more instructions than the limit allows. -/
theorem Setup.exists_execute_of_limit {source : String} {p : Program}
    (hsource : Program.ofSource source = .ok p) (policy : EofPolicy) (limit : Nat)
    (input : List UInt8) (cancelled : Bool) (trace : Option Sink) :
    (∃ report, execute ⟨p, policy, some limit⟩ ((limit + 1) * (source.toList.length + 1)) input
        cancelled trace = some report ∧ report.steps ≤ limit) ∧
    ∀ turns, (progress ⟨p, policy, some limit⟩ turns input cancelled trace).steps ≤ limit := by
  have hlength : p.length = source.toList.length := by
    rw [Program.length, Program.code_of_ofText hsource, List.size_toArray]
  have hturns : (limit + 1) * p.length + 1 ≤ (limit + 1) * (source.toList.length + 1) := by
    rw [hlength, Nat.mul_succ]
    omega
  have hsteps (turns : Nat) :
      (progress ⟨p, policy, some limit⟩ turns input cancelled trace).steps ≤ limit :=
    steps_progress_le turns input cancelled trace
  obtain ⟨report, hreport⟩ := exists_execute_of_budget_le input cancelled trace hturns
  refine ⟨⟨report, hreport, ?_⟩, hsteps⟩
  have hlast := hsteps ((limit + 1) * (source.toList.length + 1))
  rwa [execute_eq_some_iff.1 hreport] at hlast

/-- The loop never ends, and in its body is nothing but a comment. -/
theorem Setup.exists_execute_of_limit_comment : ∃ p report, Program.ofSource "+[x]" = .ok p ∧
    execute ⟨p, .error, some 3⟩ 20 [] false (some Sink.unlimited) = some report ∧
    report.steps ≤ 3 ∧ report.ending = .failed (.stepLimit 3) := by
  have hsource : Program.ofSource "+[x]" =
      .ok ⟨#['+', '[', 'x', ']'], #[none, some 3, none, some 1]⟩ := rfl
  have hrun : ∃ sink, execute ⟨⟨#['+', '[', 'x', ']'], #[none, some 3, none, some 1]⟩, .error,
      some 3⟩ 20 [] false (some Sink.unlimited) =
        some ⟨.failed (.stepLimit 3), 3, some sink⟩ := ⟨_, rfl⟩
  obtain ⟨sink, hrun⟩ := hrun
  obtain ⟨⟨report, hreport, hsteps⟩, -⟩ :=
    exists_execute_of_limit hsource .error 3 [] false (some Sink.unlimited)
  obtain rfl := Option.some.inj (hreport.symm.trans hrun)
  exact ⟨_, _, hsource, hrun, hsteps, rfl⟩

end TapeMachine
