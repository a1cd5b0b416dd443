import TapeMachine.Proofs.Machine.Input
import TapeMachine.Proofs.Program.Level
import TapeMachine.Proofs.Run.Limit
set_option autoImplicit false

/-!
# Run: the classic loop rule

The classic machine has no frames.  A closing bracket looks at the cell under the pointer, wherever
the loop was entered, and so does an opening one.  `Classic` is this machine, with a log of what it
has executed.

Where every loop is level and the pointer never meets the left end, the two rules cannot be told
apart.  The pointer is then a function of the place, so at a closing bracket it is where it was when
the loop was entered (`Framed.levelled`), and the cells that the two rules look at are the same one.

Main statement: `Setup.classic_progress`.  Turn by turn the run is in the same state as the classic
machine and has executed the same instructions, and both end with the same outcome, if at all.
-/

namespace TapeMachine

/-- The plain instruction, unless it is a bracket. -/
def Instruction.plain? : Instruction → Option Plain
  | right => some .right
  | left => some .left
  | increment => some .increment
  | decrement => some .decrement
  | put => some .put
  | get => some .get
  | enter => none
  | again => none

/-- The state of the classic machine. -/
structure Classic where
  store : Store
  /-- The index of the next character of the program. -/
  ip : Nat
  /-- The instructions that have been executed, each with its index. -/
  executed : List (Nat × Instruction)
  deriving DecidableEq, Repr, Inhabited

/-- What the classic machine has come to. -/
inductive Classic.Turn
  | running (c : Classic)
  | ended (executed : List (Nat × Instruction)) (outcome : Except Fault (Array UInt8))

namespace Classic

/-- What the instruction at `ip` does to the store; the brackets do nothing to it. -/
def effect (policy : EofPolicy) (ip : Nat) (i : Instruction) (s : Store) : Result :=
  match i.plain? with
  | some a => a.apply policy ip s
  | none => .ok s

/-- Where the classic rule goes on behind the instruction at `ip`.  Both brackets look at the cell
under the pointer. -/
def next (p : Program) (ip : Nat) (i : Instruction) (s : Store) : Nat :=
  match i, p.partner? ip with
  | .enter, some close => if s.tape.read = 0 then close + 1 else ip + 1
  | .again, some opening => if s.tape.read = 0 then ip + 1 else opening + 1
  | _, _ => ip + 1

/-- One turn: a comment is passed over, an instruction is executed. -/
def turn (p : Program) (policy : EofPolicy) (c : Classic) : Turn :=
  match p.code[c.ip]? with
  | none => .ended c.executed (.ok c.store.output)
  | some char =>
    match Instruction.ofChar? char with
    | none => .running { c with ip := c.ip + 1 }
    | some i =>
      match effect policy c.ip i c.store with
      | .exhausted ip consumed => .ended c.executed (.error (.inputExhausted ip consumed))
      | .ok store => .running ⟨store, next p c.ip i c.store, c.executed ++ [(c.ip, i)]⟩

/-- What the classic machine has come to after `turns` turns. -/
def progress (p : Program) (policy : EofPolicy) (input : List UInt8) : Nat → Turn
  | 0 => .running ⟨Store.start input, 0, []⟩
  | turns + 1 =>
    match progress p policy input turns with
    | .running c => c.turn p policy
    | .ended executed outcome => .ended executed outcome

end Classic

/-- The instructions among the first `steps` that a run completes if nothing stops it, each with its
index. -/
def Setup.executed (setup : Setup) (input : List UInt8) (steps : Nat) : List (Nat × Instruction) :=
  ((setup.course input).rows steps).map fun row => (row.ip, row.instruction)

/-- What a run has come to, without its frames. -/
def Turn.classic (setup : Setup) (input : List UInt8) : Turn → Classic.Turn
  | running r => .running ⟨r.machine.store, r.machine.ip, setup.executed input r.steps⟩
  | ended report => .ended (setup.executed input report.steps) report.outcome

/-! ## One instruction -/

namespace Machine

variable {p : Program} {policy : EofPolicy} {m done : Machine} {row : Row}

/-- If the machine stands at the closing bracket of a loop, it has entered the loop on the cell
under the pointer. -/
def Levelled (p : Program) (m : Machine) : Prop :=
  ∀ o entry outer, p.IsLoop o m.ip → m.frames = entry :: outer → entry = m.tape.pointer

/-- What an instruction does if the rules look at the same cell. -/
theorem classic_of_perform (hp : p.Paired) (hlevelled : m.Levelled p) {i : Instruction}
    (hi : p.code[m.ip]? = some i.char) (h : m.perform p policy i = .ok (done, row)) :
    Classic.effect policy m.ip i m.store = .ok done.store ∧
      Classic.next p m.ip i m.store = done.ip := by
  cases i with
  | right => cases h; exact ⟨rfl, rfl⟩
  | left => cases h; exact ⟨rfl, rfl⟩
  | increment => cases h; exact ⟨rfl, rfl⟩
  | decrement => cases h; exact ⟨rfl, rfl⟩
  | put => cases h; exact ⟨rfl, rfl⟩
  | get =>
    obtain ⟨tape, ⟨rest, position⟩, output, frames, ip⟩ := m
    cases rest with
    | nil =>
      cases policy with
      | error => cases h
      | zero => cases h; exact ⟨rfl, rfl⟩
    | cons b rest => cases h; exact ⟨rfl, rfl⟩
  | enter =>
    obtain ⟨c, hloop⟩ := hp.exists_loop hi
    simp only [perform, hloop.partner_opening] at h
    split at h
    · next hzero =>
      cases h
      refine ⟨rfl, ?_⟩
      simp only [Classic.next, hloop.partner_opening]
      exact if_pos hzero
    · next hzero =>
      cases h
      refine ⟨rfl, ?_⟩
      simp only [Classic.next, hloop.partner_opening]
      exact if_neg hzero
  | again =>
    rcases hp.stray_or_loop hi with ⟨hnone, -⟩ | ⟨o, hloop⟩
    · simp only [perform, hnone] at h
      cases h
      refine ⟨rfl, ?_⟩
      simp only [Classic.next, hnone]
    · cases hf : m.frames with
      | nil =>
        simp only [perform, hloop.partner_closing, hf, reduceCtorEq] at h
      | cons entry outer =>
        have hentry := hlevelled o entry outer hloop hf
        simp only [perform, hloop.partner_closing, hf, hentry] at h
        split at h
        · next hzero =>
          cases h
          refine ⟨rfl, ?_⟩
          simp only [Classic.next, hloop.partner_closing]
          exact if_pos hzero
        · next hzero =>
          cases h
          refine ⟨rfl, ?_⟩
          simp only [Classic.next, hloop.partner_closing]
          exact if_neg hzero

/-- A read that finds no input finds none either way. -/
theorem classic_of_exhausted {i : Instruction} {ip consumed : Nat}
    (h : m.perform p policy i = .error (.inputExhausted ip consumed)) :
    Classic.effect policy m.ip i m.store = .exhausted ip consumed := by
  obtain rfl := eq_get_of_exhausted h
  obtain ⟨tape, ⟨rest, position⟩, output, frames, ip⟩ := m
  cases rest with
  | nil =>
    cases policy with
    | error => cases h; rfl
    | zero => cases h
  | cons b rest => cases h

end Machine

/-! ## The frames of level loops -/

section Level

variable {p : Program} {policy : EofPolicy} {input : List UInt8} {n : Nat} {r r' : Run}
  {past : List Run}

/-- The pointer is where the moves in front of the place of the run lead. -/
def Run.OnDrift (p : Program) (r : Run) : Prop :=
  (r.machine.tape.pointer : Int) = p.drift r.machine.ip

/-- A turn keeps the pointer where the moves lead, if it is not moved off the left end. -/
theorem Run.OnDrift.turn (hp : p.Paired) (hlevel : p.Level) (h : r.OnDrift p)
    (hleft : p.code[r.machine.ip]? = some '<' → r.machine.tape.pointer ≠ 0)
    (ht : r.turn ⟨p, policy, none⟩ = .running r') : r'.OnDrift p := by
  rcases Run.cases_of_turn_running ht with ⟨c, hc, hno, rfl⟩ | ⟨i, done, row, hi, -, hdo, hdone⟩
  · have hright : c ≠ '>' := by rintro rfl; cases hno
    have hleft : c ≠ '<' := by rintro rfl; cases hno
    exact Eq.trans h (Program.drift_succ_other hc hright hleft).symm
  · unfold Run.OnDrift
    rw [(Run.machine_of_complete hdone).1]
    refine Machine.pointer_of_perform hp hlevel hi (fun hmove => hleft ?_) hdo h
    subst hmove
    exact hi

/-- Every turn of a run that never meets the left end was taken with the pointer where the moves
lead. -/
theorem Setup.exists_reached_onDrift (hp : p.Paired) (hlevel : p.Level)
    (hleft : ∀ n r, progress ⟨p, policy, none⟩ n input false none = .running r →
      p.code[r.machine.ip]? = some '<' → r.machine.tape.pointer ≠ 0)
    (h : progress ⟨p, policy, none⟩ n input false none = .running r) :
    ∃ past, Run.Reached ⟨p, policy, none⟩ ⟨Machine.start input, 0, false, none⟩ past r ∧
      ∀ run ∈ r :: past, run.OnDrift p := by
  induction n generalizing r with
  | zero =>
    cases h
    refine ⟨[], .start, fun run hrun => ?_⟩
    rw [List.mem_singleton.1 hrun]
    exact (Program.drift_zero p).symm
  | succ n ih =>
    obtain ⟨last, hlast, hturn⟩ := exists_turn_of_progress_succ h
    obtain ⟨past, hreached, hdrift⟩ := ih hlast
    refine ⟨last :: past, hreached.turn hturn, fun run hrun => ?_⟩
    rcases List.mem_cons.1 hrun with rfl | hmem
    · exact (hdrift last List.mem_cons_self).turn hp hlevel (hleft n last hlast) hturn
    · exact hdrift run hmem

/-- The frame of a level loop is the cell under the pointer whenever the run is at its closing
bracket. -/
theorem Run.Framed.levelled (hlevel : p.Level) (h : Run.Framed p input past r.machine)
    (hdrift : ∀ run ∈ r :: past, run.OnDrift p) : r.machine.Levelled p := by
  intro o entry outer hloop hf
  have hframes := h.frames_eq
  rw [hf, hloop.openAt_closing, List.map_cons, List.map_cons, List.cons.injEq] at hframes
  -- the latest entry of the loop is among the past turns
  obtain ⟨run, hfind, hentry⟩ := Option.map_eq_some_iff.1 hframes.1.symm
  have hip : run.machine.ip = o := by simpa using List.find?_some hfind
  have hthen := hdrift run (List.mem_cons_of_mem r (List.mem_of_find?_eq_some hfind))
  have hnow := hdrift r List.mem_cons_self
  unfold Run.OnDrift at hthen hnow
  rw [hip, hentry] at hthen
  rw [hlevel.drift_closing hloop] at hnow
  omega

end Level

/-! ## Turn by turn -/

section Progress

variable {p : Program} {policy : EofPolicy} {input : List UInt8} {n : Nat} {r : Run}
  {past : List Run}

/-- What has been executed after one more instruction. -/
theorem Setup.executed_succ {setup : Setup} {i : Instruction} {done : Machine} {row : Row}
    (hr : r.OnCourse setup input false none) (hi : setup.program.code[r.machine.ip]? = some i.char)
    (h : r.machine.perform setup.program setup.policy i = .ok (done, row)) :
    setup.executed input (r.steps + 1) = setup.executed input r.steps ++ [(r.machine.ip, i)] := by
  have hmachine := hr.machine_eq
  rw [Machine.settle_of_instruction hi] at hmachine
  have hstep : (setup.course input).step? r.machine = some (done, row) :=
    Course.step?_eq_some_iff.2 ⟨i, Program.instruction?_eq_some_iff.2 hi, h⟩
  obtain ⟨hip, -, -, hinstruction⟩ := Machine.row_of_perform h
  rw [executed, Course.rows_succ_of_step? hmachine hstep, List.map_append, List.map_singleton, hip,
    hinstruction]
  rfl

/-- A turn of the run is a turn of the classic machine. -/
theorem Run.classic_turn (hp : p.Paired) (hr : r.OnCourse ⟨p, policy, none⟩ input false none)
    (hframed : Run.Framed p input past r.machine) (hlevelled : r.machine.Levelled p) :
    Classic.turn p policy ⟨r.machine.store, r.machine.ip,
        Setup.executed ⟨p, policy, none⟩ input r.steps⟩ =
      (r.turn ⟨p, policy, none⟩).classic ⟨p, policy, none⟩ input := by
  unfold Classic.turn
  cases hc : p.code[r.machine.ip]? with
  | none =>
    rw [turn_of_end hc]
    rfl
  | some c =>
    rcases ofChar?_cases c with hno | ⟨i, rfl⟩
    · rw [turn_of_comment hc hno]
      simp only [hno]
      rfl
    · have hcancelled : r.cancelled = false := hr.cancelled_eq
      have ho : obstacle? ⟨p, policy, none⟩ r.cancelled r.steps = none := by
        rw [hcancelled]
        rfl
      simp only [Instruction.ofChar?_char]
      rcases hframed.perform policy hp hc with ⟨done, row, hdo, -⟩ | ⟨ip, consumed, hread⟩
      · obtain ⟨heffect, hnext⟩ := Machine.classic_of_perform hp hlevelled hc hdo
        have htrace : r.trace = none := hr.trace_eq
        rw [turn_of_perform hc ho hdo, htrace]
        simp only [heffect, hnext, complete, Turn.classic, Setup.executed_succ hr hc hdo]
      · rw [turn_of_fault hc ho hread]
        simp only [Machine.classic_of_exhausted hread]
        rfl

/-- Turn by turn the run does what the classic machine does. -/
theorem Setup.classic_progress_eq (hp : p.Paired) (hlevel : p.Level)
    (hleft : ∀ n r, progress ⟨p, policy, none⟩ n input false none = .running r →
      p.code[r.machine.ip]? = some '<' → r.machine.tape.pointer ≠ 0) (n : Nat) :
    Classic.progress p policy input n =
      (progress ⟨p, policy, none⟩ n input false none).classic ⟨p, policy, none⟩ input := by
  induction n with
  | zero => rfl
  | succ n ih =>
    unfold Classic.progress
    rw [ih]
    cases hn : progress ⟨p, policy, none⟩ n input false none with
    | ended report =>
      rw [progress_of_ended hn (Nat.le_succ n)]
      rfl
    | running r =>
      have hcourse := Run.onCourse_progress Run.capacity_none ⟨p, policy, none⟩ n input false
      rw [hn] at hcourse
      obtain ⟨past, hreached, hdrift⟩ := exists_reached_onDrift hp hlevel hleft hn
      have hstart : Run.start input false none = .running ⟨Machine.start input, 0, false, none⟩ :=
        rfl
      have hframed := Run.framed_of_reached hp hstart hreached
      rw [progress_succ hn]
      exact Run.classic_turn hp hcourse hframed (hframed.levelled hlevel hdrift)

/-- The loop rule with frames is conservative.  On an accepted source whose loops are level, a run
that nothing limits and that never moves left at the left end is, turn by turn, in the state of the
classic machine with the same instructions executed.  So one of the two ends if and only if the
other ends, and with the same outcome. -/
theorem Setup.classic_progress {source : String} (hsource : Program.ofSource source = .ok p)
    (hlevel : p.Level) (policy : EofPolicy) (input : List UInt8)
    (hleft : ∀ n r, progress ⟨p, policy, none⟩ n input false none = .running r →
      p.code[r.machine.ip]? = some '<' → r.machine.tape.pointer ≠ 0) :
    (∀ n, Classic.progress p policy input n =
      (progress ⟨p, policy, none⟩ n input false none).classic ⟨p, policy, none⟩ input) ∧
    ∀ instructions outcome, (∃ n, Classic.progress p policy input n = .ended instructions outcome) ↔
      ∃ report, Ends ⟨p, policy, none⟩ input false none report ∧ report.outcome = outcome ∧
        executed ⟨p, policy, none⟩ input report.steps = instructions := by
  have hsame := classic_progress_eq (Program.paired_of_ofText hsource) hlevel hleft
  refine ⟨hsame, fun instructions outcome => ⟨?_, ?_⟩⟩
  · rintro ⟨n, hn⟩
    rw [hsame] at hn
    cases hrun : progress ⟨p, policy, none⟩ n input false none with
    | running r =>
      rw [hrun] at hn
      cases hn
    | ended report =>
      rw [hrun] at hn
      cases hn
      exact ⟨report, ⟨n, execute_eq_some_iff.2 hrun⟩, rfl, rfl⟩
  · rintro ⟨report, ⟨n, hn⟩, rfl, rfl⟩
    refine ⟨n, ?_⟩
    rw [hsame, execute_eq_some_iff.1 hn]
    rfl

/-- A loop that leaves the cell it was entered on and comes back to it. -/
theorem Setup.classic_progress_back :
    ∃ p instructions, Program.ofSource "+[>+<-]" = .ok p ∧ p.Level ∧
      (∀ n r, progress ⟨p, .error, none⟩ n [] false none = .running r →
        p.code[r.machine.ip]? = some '<' → r.machine.tape.pointer ≠ 0) ∧
      Classic.progress p .error [] 8 = .ended instructions (.ok #[]) ∧
      instructions.map Prod.fst = [0, 1, 2, 3, 4, 5, 6] := by
  have hsource : Program.ofSource "+[>+<-]" = .ok ⟨#['+', '[', '>', '+', '<', '-', ']'],
    #[none, some 6, none, none, none, none, some 1]⟩ := rfl
  have hlevel : Program.Level ⟨#['+', '[', '>', '+', '<', '-', ']'],
    #[none, some 6, none, none, none, none, some 1]⟩ := by decide
  have hended : progress ⟨⟨#['+', '[', '>', '+', '<', '-', ']'],
    #[none, some 6, none, none, none, none, some 1]⟩, .error, none⟩ 8 [] false none =
      .ended _ := rfl
  have hleft : ∀ n r, progress ⟨⟨#['+', '[', '>', '+', '<', '-', ']'],
      #[none, some 6, none, none, none, none, some 1]⟩, .error, none⟩ n [] false none =
        .running r →
      (#['+', '[', '>', '+', '<', '-', ']'] : Array Char)[r.machine.ip]? = some '<' →
      r.machine.tape.pointer ≠ 0 := by
    intro n r hr hc
    have hlt : n < 8 := by
      refine Nat.lt_of_not_le fun hle => ?_
      cases hr.symm.trans (progress_of_ended hended hle)
    rcases n with _ | _ | _ | _ | _ | _ | _ | _ | n
    all_goals first | omega | (cases hr; revert hc; decide)
  have hsame := (classic_progress hsource hlevel .error [] hleft).1 8
  rw [hended] at hsame
  exact ⟨_, _, hsource, hlevel, hleft, hsame, rfl⟩

end Progress

end TapeMachine
