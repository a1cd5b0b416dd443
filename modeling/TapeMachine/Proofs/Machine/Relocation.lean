import TapeMachine.Run
set_option autoImplicit false

/-!
# Machine: the same at another place

A machine that executes the same instruction at another place of another program, perhaps with
something put out already, does the same there.  `f` gives the new places of the characters.  An
instruction leads behind a character, its own or the partner of its own, and so the place it leads
to moves with this character (`behind`).  The row says the same with the new places.

Main statement: `perform_relocated`, an equation that holds of every instruction and of every fault.
What a run has come to is relocated with its machine (`Run.relocated`), and then the outcome is the
same behind what was put out before (`outcome_relocated`).
-/

namespace TapeMachine

/-- The place behind a character whose old place is in front of `ip`. -/
def behind (f : Nat → Nat) (ip : Nat) : Nat := f (ip - 1) + 1

/-- The fault with the instruction at its new place. -/
def Fault.relocated (f : Nat → Nat) : Fault → Fault
  | unclosedLoop ip => unclosedLoop (f ip)
  | inputExhausted ip consumed => inputExhausted (f ip) consumed
  | traceWrite ip reason => traceWrite (f ip) reason
  | fault => fault

/-- The action with the new places that it leads to. -/
def Action.relocated (f : Nat → Nat) : Action → Action
  | skipped target => skipped (behind f target)
  | repeated index value target => repeated index value (behind f target)
  | action => action

/-- The row of the same instruction at its new place. -/
def Row.relocated (f : Nat → Nat) (row : Row) : Row :=
  { row with ip := f row.ip, action := row.action.relocated f }

/-- The same machine at its new place, with `before` put out already. -/
def Machine.relocated (f : Nat → Nat) (before : Array UInt8) (m : Machine) : Machine :=
  { m with output := before ++ m.output, ip := f m.ip }

@[simp] theorem behind_succ (f : Nat → Nat) (ip : Nat) : behind f (ip + 1) = f ip + 1 := rfl

namespace Machine

variable {p q : Program} {f : Nat → Nat} {m : Machine}

@[simp] theorem relocated_frames (f : Nat → Nat) (before : Array UInt8) (m : Machine) :
    (m.relocated f before).frames = m.frames := rfl

@[simp] theorem relocated_ip (f : Nat → Nat) (before : Array UInt8) (m : Machine) :
    (m.relocated f before).ip = f m.ip := rfl

/-- Of the program an instruction only uses the partner of its own character. -/
theorem perform_congr (policy : EofPolicy) (i : Instruction)
    (h : p.partner? m.ip = q.partner? m.ip) : m.perform p policy i = m.perform q policy i := by
  cases i with
  | enter => simp only [perform, h]
  | again => simp only [perform, h]
  | _ => rfl

/-- An instruction leads behind its own character or behind the partner of this. -/
theorem ip_of_perform {policy : EofPolicy} {i : Instruction} {done : Machine} {row : Row}
    (h : m.perform p policy i = .ok (done, row)) :
    ∃ j, done.ip = j + 1 ∧ (j = m.ip ∨ p.partner? m.ip = some j) := by
  cases i with
  | get =>
    simp only [perform] at h
    split at h <;> cases h <;> exact ⟨m.ip, rfl, .inl rfl⟩
  | enter =>
    cases hpartner : p.partner? m.ip with
    | none => simp only [perform, hpartner, reduceCtorEq] at h
    | some close =>
      simp only [perform, hpartner] at h
      split at h
      · cases h; exact ⟨close, rfl, .inr rfl⟩
      · cases h; exact ⟨m.ip, rfl, .inl rfl⟩
  | again =>
    cases hpartner : p.partner? m.ip with
    | none =>
      simp only [perform, hpartner] at h
      cases h
      exact ⟨m.ip, rfl, .inl rfl⟩
    | some opening =>
      simp only [perform, hpartner] at h
      repeat' split at h
      · cases h
      · cases h; exact ⟨m.ip, rfl, .inl rfl⟩
      · cases h; exact ⟨opening, rfl, .inr rfl⟩
  | _ => cases h; exact ⟨m.ip, rfl, .inl rfl⟩

/-- An instruction does the same at its new place, if the partner of its character has moved too. -/
theorem perform_relocated (policy : EofPolicy) (i : Instruction) (before : Array UInt8)
    (h : p.partner? (f m.ip) = (q.partner? m.ip).map f) :
    (m.relocated f before).perform p policy i =
      match m.perform q policy i with
      | .error fault => .error (fault.relocated f)
      | .ok (done, row) => .ok (done.relocated (behind f) before, row.relocated f) := by
  cases i with
  | right => rfl
  | left =>
    by_cases hzero : m.tape.pointer = 0
    · have hzero' : (m.relocated f before).tape.pointer = 0 := hzero
      simp only [perform, if_pos hzero, if_pos hzero']
      rfl
    · have hzero' : ¬(m.relocated f before).tape.pointer = 0 := hzero
      simp only [perform, if_neg hzero, if_neg hzero']
      rfl
  | increment => rfl
  | decrement => rfl
  | put =>
    simp only [perform, relocated, behind_succ, Array.append_push]
    rfl
  | get =>
    obtain ⟨tape, ⟨rest, position⟩, output, frames, ip⟩ := m
    cases rest with
    | nil => cases policy <;> rfl
    | cons b rest => rfl
  | enter =>
    cases hpartner : q.partner? m.ip with
    | none =>
      rw [hpartner, Option.map_none] at h
      simp only [perform, relocated_ip, h, hpartner]
      rfl
    | some close =>
      rw [hpartner, Option.map_some] at h
      by_cases hzero : m.tape.read = 0
      · have hzero' : (m.relocated f before).tape.read = 0 := hzero
        simp only [perform, relocated_ip, h, hpartner, if_pos hzero, if_pos hzero']
        rfl
      · have hzero' : ¬(m.relocated f before).tape.read = 0 := hzero
        simp only [perform, relocated_ip, h, hpartner, if_neg hzero, if_neg hzero']
        rfl
  | again =>
    cases hpartner : q.partner? m.ip with
    | none =>
      rw [hpartner, Option.map_none] at h
      simp only [perform, relocated_ip, h, hpartner]
      rfl
    | some opening =>
      rw [hpartner, Option.map_some] at h
      cases hframes : m.frames with
      | nil =>
        simp only [perform, relocated_ip, relocated_frames, h, hpartner, hframes]
        rfl
      | cons entry outer =>
        by_cases hzero : m.tape.cell entry = 0
        · have hzero' : (m.relocated f before).tape.cell entry = 0 := hzero
          simp only [perform, relocated_ip, relocated_frames, h, hpartner, hframes, if_pos hzero,
            if_pos hzero']
          rfl
        · have hzero' : ¬(m.relocated f before).tape.cell entry = 0 := hzero
          simp only [perform, relocated_ip, relocated_frames, h, hpartner, hframes, if_neg hzero,
            if_neg hzero']
          rfl

end Machine

/-! ## A run at its new place -/

/-- The ending of the same run at its new place, with `before` put out already. -/
def Ending.relocated (f : Nat → Nat) (before : Array UInt8) : Ending → Ending
  | finished machine => finished (machine.relocated f before)
  | failed fault => failed (fault.relocated f)

/-- The same run at its new place, with `before` put out by `steps` instructions already. -/
def Run.relocated (f : Nat → Nat) (before : Array UInt8) (steps : Nat) (r : Run) : Run :=
  { r with machine := r.machine.relocated f before, steps := steps + r.steps }

/-- The report of the same run at its new place, with `before` put out by `steps` instructions
already. -/
def Report.relocated (f : Nat → Nat) (before : Array UInt8) (steps : Nat) (report : Report) :
    Report :=
  { report with ending := report.ending.relocated f before, steps := steps + report.steps }

/-- What the same run has come to at its new place. -/
def Turn.relocated (f : Nat → Nat) (before : Array UInt8) (steps : Nat) : Turn → Turn
  | running r => running (r.relocated f before steps)
  | ended report => ended (report.relocated f before steps)

/-- An obstacle is not at a place. -/
theorem Fault.relocated_of_obstacle {setup : Setup} {cancelled : Bool} {steps : Nat} {fault : Fault}
    (h : Run.obstacle? setup cancelled steps = some fault) (f : Nat → Nat) :
    fault.relocated f = fault := by
  unfold Run.obstacle? at h
  repeat' split at h
  all_goals cases h <;> rfl

/-- A run that came to the end has put out the rest, and one that failed has failed at the new
place. -/
theorem Report.outcome_relocated (f : Nat → Nat) (before : Array UInt8) (steps : Nat)
    (report : Report) :
    (report.relocated f before steps).outcome =
      match report.outcome with
      | .ok output => .ok (before ++ output)
      | .error fault => .error (fault.relocated f) := by
  unfold outcome relocated
  cases report.ending <;> rfl

end TapeMachine
