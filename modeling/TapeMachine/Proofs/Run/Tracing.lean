import TapeMachine.Proofs.Run.Turn
set_option autoImplicit false

/-!
# Run: with a trace and without

A trace that takes everything and asks for nothing is only looked on.  Two runs of which one has such a
trace stay in step: taking the trace away before a turn or after it comes to the same
(`untraced_turn`), and so it does for any number of turns.

Main statement: whatever the program, the input, the policy and the control, a traced run ends after
as many turns as an untraced one, or like this one not at all, and apart from the trace with the same
report (`execute_unlimited`).
-/

namespace TapeMachine

/-- The sink takes every line and never asks the run to stop. -/
structure Sink.Silent (s : Sink) : Prop where
  capacity_eq : s.capacity = none
  cancelAt_eq : s.cancelAt = none

/-- The report without the trace. -/
def Report.untraced (report : Report) : Report := { report with trace := none }

/-- The run without the trace. -/
def Run.untraced (r : Run) : Run := { r with trace := none }

/-- What a turn leads to, without the trace. -/
def Turn.untraced : Turn → Turn
  | running r => .running r.untraced
  | ended report => .ended report.untraced

theorem Sink.silent_unlimited : unlimited.Silent := ⟨rfl, rfl⟩

theorem Sink.Silent.writeLine {s : Sink} (h : s.Silent) (line : String) :
    ∃ s' : Sink, s.writeLine line = (s', true) ∧ s'.Silent := by
  refine ⟨(s.writeLine line).1, ?_, ?_⟩
  · rw [← writeLine_snd_of_unlimited h.capacity_eq line]
  · simp only [Sink.writeLine, room_unlimited h.capacity_eq, if_pos]
    exact ⟨h.capacity_eq, h.cancelAt_eq⟩

theorem Sink.Silent.asksToCancel {s : Sink} (h : s.Silent) : s.asksToCancel = false := by
  simp [Sink.asksToCancel, h.cancelAt_eq]

namespace Run

variable (setup : Setup) {r r' : Run}

/-- Completing an instruction writes its row and does nothing else that would not be done anyway. -/
theorem untraced_complete {trace : Option Sink} (h : ∀ sink ∈ trace, sink.Silent)
    (machine : Machine) (steps : Nat) (cancelled : Bool) (row : Row) :
    (complete machine steps cancelled trace row).untraced =
        complete machine steps cancelled none row ∧
      ∀ r', complete machine steps cancelled trace row = .running r' →
        ∀ sink ∈ r'.trace, sink.Silent := by
  cases trace with
  | none =>
    refine ⟨rfl, ?_⟩
    rintro r' hr sink hsink
    cases hr
    cases hsink
  | some sink =>
    obtain ⟨sink', hwrite, hsilent⟩ := (h sink rfl).writeLine (row.line steps)
    simp only [complete, hwrite, hsilent.asksToCancel, Bool.or_false]
    refine ⟨rfl, ?_⟩
    rintro r' hr sink hsink
    cases hr
    cases hsink
    exact hsilent

/-- A turn is the same with the trace and without, and the trace goes on taking everything. -/
theorem untraced_turn (h : ∀ sink ∈ r.trace, sink.Silent) :
    (r.turn setup).untraced = r.untraced.turn setup ∧
      ∀ r', r.turn setup = .running r' → ∀ sink ∈ r'.trace, sink.Silent := by
  cases hc : setup.program.code[r.machine.ip]? with
  | none =>
    rw [turn_of_end hc, turn_of_end (r := r.untraced) hc]
    exact ⟨rfl, nofun⟩
  | some c =>
    rcases ofChar?_cases c with hno | ⟨i, rfl⟩
    · rw [turn_of_comment hc hno, turn_of_comment (r := r.untraced) hc hno]
      refine ⟨rfl, ?_⟩
      rintro r' hr
      cases hr
      exact h
    · cases ho : obstacle? setup r.cancelled r.steps with
      | some fault =>
        rw [turn_of_obstacle hc ho, turn_of_obstacle (r := r.untraced) hc ho]
        exact ⟨rfl, nofun⟩
      | none =>
        cases hp : r.machine.perform setup.program setup.policy i with
        | error fault =>
          rw [turn_of_fault hc ho hp, turn_of_fault (r := r.untraced) hc ho hp]
          exact ⟨rfl, nofun⟩
        | ok result =>
          obtain ⟨machine, row⟩ := result
          rw [turn_of_perform hc ho hp, turn_of_perform (r := r.untraced) hc ho hp]
          exact untraced_complete h machine r.steps r.cancelled row

theorem untraced_advance (h : ∀ sink ∈ r.trace, sink.Silent) (n : Nat) :
    (r.advance setup n).untraced = r.untraced.advance setup n := by
  induction n generalizing r with
  | zero => rfl
  | succ n ih =>
    obtain ⟨hturn, hsilent⟩ := untraced_turn setup h
    cases ht : r.turn setup with
    | ended report =>
      rw [ht] at hturn
      rw [advance_succ_of_ended ht, advance_succ_of_ended hturn.symm]
      rfl
    | running r' =>
      rw [ht] at hturn
      rw [advance_succ_of_running ht, advance_succ_of_running hturn.symm]
      exact ih (hsilent r' ht)

/-- The head of the trace is written before the first turn. -/
theorem exists_start_unlimited (input : List UInt8) (cancelled : Bool) :
    ∃ sink : Sink, sink.Silent ∧ start input cancelled (some Sink.unlimited) =
      .running ⟨Machine.start input, 0, cancelled, some sink⟩ := by
  obtain ⟨sink, hheadings, hsilent⟩ := Sink.silent_unlimited.writeLine Row.headings
  obtain ⟨sink', hruler, hsilent'⟩ := hsilent.writeLine Row.ruler
  refine ⟨sink', hsilent', ?_⟩
  simp only [start, hheadings, hruler, hsilent'.asksToCancel, Bool.or_false]

end Run

/-- Tracing never changes the effect of a run: for each number of turns, the traced run has ended if
and only if the untraced one has, in the same way and after as many steps. -/
theorem Setup.execute_unlimited (setup : Setup) (turns : Nat) (input : List UInt8)
    (cancelled : Bool) :
    (setup.execute turns input cancelled (some Sink.unlimited)).map Report.untraced =
      setup.execute turns input cancelled none := by
  obtain ⟨sink, hsilent, hstart⟩ := Run.exists_start_unlimited input cancelled
  have hstart' : Run.start input cancelled none =
      .running ⟨Machine.start input, 0, cancelled, none⟩ := rfl
  have htrace : ∀ s ∈ some sink, s.Silent := fun s hs => Option.some.inj hs ▸ hsilent
  have hadvance : (Run.advance setup turns ⟨Machine.start input, 0, cancelled, some sink⟩).untraced =
      Run.advance setup turns ⟨Machine.start input, 0, cancelled, none⟩ :=
    Run.untraced_advance setup (r := ⟨_, 0, cancelled, some sink⟩) htrace turns
  simp only [execute, hstart, hstart', Run.finish, ← hadvance]
  cases Run.advance setup turns ⟨Machine.start input, 0, cancelled, some sink⟩ <;> rfl

end TapeMachine
