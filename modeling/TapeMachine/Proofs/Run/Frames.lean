import TapeMachine.Proofs.Machine.Effect
import TapeMachine.Proofs.Run.Turn
set_option autoImplicit false

/-!
# Run: the frames of the loops being executed

What is true of every run between two turns.  The frames of the machine are tied to the place it has
reached in its program: there is one for each loop around this place, and it is the pointer of the
latest time the loop was entered.  `Framed` is the invariant.  It speaks of the loops through the
stack of the bracket pass, since each step of the machine changes that stack as it changes the frames
(`Framed.perform`).

Main statement: the invariant in the words of the table of partners, and what follows from it.  No
access is out of range, no loop is found unclosed while the program runs, the frames are never more
than the loops are deep, and none is left at the end (`frames_of_reached`).
-/

namespace TapeMachine.Run

/-- From `first` the run gets to `r`, and `past` are the runs whose turns were taken on the way,
latest first.  A request to stop may come between any two turns. -/
inductive Reached (setup : Setup) (first : Run) : List Run → Run → Prop
  | start : Reached setup first [] first
  | turn {past : List Run} {r r' : Run} (h : Reached setup first past r)
      (ht : r.turn setup = .running r') : Reached setup first (r :: past) r'
  | cancel {past : List Run} {r : Run} (h : Reached setup first past r) :
      Reached setup first past { r with cancelled := true }

/-- Where the pointer was when the character at `o` was executed for the last time. -/
def lastPointer (past : List Run) (o : Nat) : Option Nat :=
  (past.find? fun r => r.machine.ip = o).map fun r => r.machine.tape.pointer

theorem lastPointer_cons_self (r : Run) (past : List Run) :
    lastPointer (r :: past) r.machine.ip = some r.machine.tape.pointer := by
  simp [lastPointer]

theorem lastPointer_cons_of_ne {r : Run} {o : Nat} (h : o ≠ r.machine.ip) (past : List Run) :
    lastPointer (r :: past) o = lastPointer past o := by
  simp [lastPointer, Ne.symm h]

/-- The invariant of a machine that has got to its place by the turns of `past`. -/
structure Framed (p : Program) (bytes : List UInt8) (past : List Run) (m : Machine) : Prop where
  ip_le : m.ip ≤ p.length
  wellFormed : m.tape.WellFormed
  position_add : m.input.position + m.input.rest.length = bytes.length
  frames_eq : m.frames.map some = (p.openAt m.ip).map (lastPointer past)
  frames_lt : ∀ cell ∈ m.frames, cell < m.tape.size

section Step

variable {p : Program} {policy : EofPolicy} {bytes : List UInt8} {past : List Run} {r : Run}

/-- A turn at a place does not touch the entries of the loops around it. -/
theorem map_lastPointer_openAt (past : List Run) (h : r.machine.ip ≤ p.length) :
    (p.openAt r.machine.ip).map (lastPointer (r :: past)) =
      (p.openAt r.machine.ip).map (lastPointer past) :=
  List.map_congr_left fun _ ho =>
    lastPointer_cons_of_ne (Nat.ne_of_lt (Program.lt_of_mem_openAt h ho)) past

/-- Going on to a place with the same loops around it. -/
theorem Framed.goto (h : Framed p bytes past r.machine) {ip : Nat} (hip : ip ≤ p.length)
    (hopen : p.openAt ip = p.openAt r.machine.ip) :
    Framed p bytes (r :: past) { r.machine with ip := ip } where
  ip_le := hip
  wellFormed := h.wellFormed
  position_add := h.position_add
  frames_eq := by rw [hopen, map_lastPointer_openAt past h.ip_le, h.frames_eq]
  frames_lt := h.frames_lt

theorem Framed.skip (h : Framed p bytes past r.machine) {c : Char}
    (hc : p.code[r.machine.ip]? = some c) (hno : Instruction.ofChar? c = none) :
    Framed p bytes (r :: past) r.machine.skip := by
  refine h.goto (Array.getElem?_eq_some_iff.1 hc).1 (Program.openAt_succ_other hc ?_ ?_)
  · rintro rfl; cases hno
  · rintro rfl; cases hno

theorem Framed.perform_enter (policy : EofPolicy) (hp : p.Paired) (h : Framed p bytes past r.machine)
    (hi : p.code[r.machine.ip]? = some '[') :
    ∃ machine row, r.machine.perform p policy .enter = .ok (machine, row) ∧
      Framed p bytes (r :: past) machine := by
  obtain ⟨c, hloop⟩ := hp.exists_loop hi
  by_cases hz : r.machine.tape.read = 0
  · obtain ⟨row, hrow⟩ := Machine.perform_enter_of_zero policy hloop.partner_opening hz
    exact ⟨_, row, hrow, h.goto hloop.closing_lt hloop.openAt_behind⟩
  · obtain ⟨row, hrow⟩ := Machine.perform_enter_of_ne_zero policy hloop.partner_opening hz
    refine ⟨_, row, hrow, (Array.getElem?_eq_some_iff.1 hi).1, h.wellFormed, h.position_add, ?_, ?_⟩
    · simp only [hloop.openAt_body, List.map_cons, lastPointer_cons_self,
        map_lastPointer_openAt past h.ip_le, h.frames_eq]
    · exact List.forall_mem_cons.2 ⟨h.wellFormed, h.frames_lt⟩

theorem Framed.perform_again (policy : EofPolicy) (hp : p.Paired) (h : Framed p bytes past r.machine)
    (hi : p.code[r.machine.ip]? = some ']') :
    ∃ machine row, r.machine.perform p policy .again = .ok (machine, row) ∧
      Framed p bytes (r :: past) machine := by
  have hnext : r.machine.ip + 1 ≤ p.length := (Array.getElem?_eq_some_iff.1 hi).1
  rcases hp.stray_or_loop hi with ⟨hnone, hopen⟩ | ⟨o, hloop⟩
  · obtain ⟨row, hrow⟩ := Machine.perform_again_of_stray policy hnone
    exact ⟨_, row, hrow, h.goto hnext ((Program.openAt_succ_stray hi hopen).trans hopen.symm)⟩
  · have hframes := h.frames_eq
    rw [hloop.openAt_closing, List.map_cons] at hframes
    cases hf : r.machine.frames with
    | nil => rw [hf] at hframes; cases hframes
    | cons entry outer =>
      rw [hf, List.map_cons, List.cons.injEq] at hframes
      by_cases hz : r.machine.tape.cell entry = 0
      · obtain ⟨row, hrow⟩ := Machine.perform_again_of_zero policy hloop.partner_closing hf hz
        refine ⟨_, row, hrow, hnext, h.wellFormed, h.position_add, ?_, fun cell hcell => ?_⟩
        · have hkept := map_lastPointer_openAt past h.ip_le
          rw [hloop.openAt_closing, List.map_cons, List.map_cons, List.cons.injEq] at hkept
          simp only [hloop.openAt_behind, hkept.2, hframes.2]
        · exact h.frames_lt cell (by rw [hf]; exact List.mem_cons_of_mem entry hcell)
      · obtain ⟨row, hrow⟩ := Machine.perform_again_of_ne_zero policy hloop.partner_closing hf hz
        refine ⟨_, row, hrow, h.goto (Nat.lt_trans hloop.lt hloop.closing_lt) ?_⟩
        rw [hloop.openAt_body, hloop.openAt_closing]

theorem Framed.perform_plain (h : Framed p bytes past r.machine) {a : Plain}
    (hi : p.code[r.machine.ip]? = some a.instruction.char) {s : Store}
    (ha : a.apply policy r.machine.ip r.machine.store = .ok s) :
    Framed p bytes (r :: past) (s.machine r.machine.frames (r.machine.ip + 1)) where
  ip_le := (Array.getElem?_eq_some_iff.1 hi).1
  wellFormed := Machine.wellFormed_of_apply h.wellFormed ha
  position_add := (Machine.position_add_of_apply ha).trans h.position_add
  frames_eq := by
    have hopen := Program.openAt_succ_other hi a.char_ne_open a.char_ne_close
    simp only [Store.machine, hopen, map_lastPointer_openAt past h.ip_le, h.frames_eq]
  frames_lt cell hcell :=
    Nat.lt_of_lt_of_le (h.frames_lt cell hcell) (Machine.size_le_of_apply h.wellFormed ha)

/-- An instruction either leads to a machine for which the invariant holds again, or it is a read
that finds no input. -/
theorem Framed.perform (policy : EofPolicy) (hp : p.Paired) (h : Framed p bytes past r.machine)
    {i : Instruction} (hi : p.code[r.machine.ip]? = some i.char) :
    (∃ machine row, r.machine.perform p policy i = .ok (machine, row) ∧
      Framed p bytes (r :: past) machine) ∨
    ∃ ip consumed, r.machine.perform p policy i = .error (.inputExhausted ip consumed) := by
  rcases i.bracket_or_plain with rfl | rfl | ⟨a, rfl⟩
  · exact .inl (h.perform_enter policy hp hi)
  · exact .inl (h.perform_again policy hp hi)
  · cases ha : a.apply policy r.machine.ip r.machine.store with
    | exhausted ip consumed =>
      exact .inr ⟨ip, consumed, Machine.perform_plain_exhausted p r.machine.frames ha⟩
    | ok s =>
      obtain ⟨row, hrow⟩ := Machine.perform_plain_ok p r.machine.frames ha
      exact .inl ⟨_, row, hrow, h.perform_plain hi ha⟩

end Step

section Reached

variable {p : Program} {policy : EofPolicy} {maxSteps : Option Nat} {input : List UInt8}
  {cancelled : Bool} {trace : Option Sink} {first r r' : Run} {past : List Run} {report : Report}

theorem framed_start (p : Program) (input : List UInt8) : Framed p input [] (Machine.start input) where
  ip_le := Nat.zero_le _
  wellFormed := Tape.wellFormed_fresh
  position_add := Nat.zero_add _
  frames_eq := by rw [show (Machine.start input).ip = 0 from rfl, Program.openAt_zero]; rfl
  frames_lt := by simp [Machine.start]

/-- A turn keeps the invariant. -/
theorem Framed.turn (hp : p.Paired) (h : Framed p input past r.machine)
    (ht : r.turn ⟨p, policy, maxSteps⟩ = .running r') : Framed p input (r :: past) r'.machine := by
  rcases cases_of_turn_running ht with ⟨c, hc, hno, rfl⟩ | ⟨i, machine, row, hi, -, hrow, hdone⟩
  · exact h.skip hc hno
  · rw [(machine_of_complete hdone).1]
    rcases h.perform policy hp hi with ⟨machine', row', hrow', hframed⟩ | ⟨ip, n, herr⟩
    · cases hrow.symm.trans hrow'
      exact hframed
    · cases hrow.symm.trans herr

/-- Every run that is reached from a start satisfies the invariant. -/
theorem framed_of_reached (hp : p.Paired)
    (hstart : Run.start input cancelled trace = .running first)
    (h : Reached ⟨p, policy, maxSteps⟩ first past r) : Framed p input past r.machine := by
  induction h with
  | start => rw [machine_of_start hstart]; exact framed_start p input
  | turn _ ht ih => exact ih.turn hp ht
  | cancel _ ih => exact ih

/-! ## What follows from the invariant -/

/-- One frame for each loop around the place, outermost first: the pointer of its latest entry. -/
theorem Framed.frames_enclosing (hp : p.Paired) {m : Machine} (h : Framed p input past m) :
    m.frames.reverse.map some = (p.enclosing m.ip).map (lastPointer past) := by
  rw [hp.enclosing_eq h.ip_le, List.map_reverse, List.map_reverse, h.frames_eq]

theorem Framed.length_frames {m : Machine} (h : Framed p input past m) :
    m.frames.length = (p.openAt m.ip).length := by
  have := congrArg List.length h.frames_eq
  rwa [List.length_map, List.length_map] at this

/-- A turn never finds a loop that is not closed. -/
theorem Framed.ending_ne (hp : p.Paired) (h : Framed p input past r.machine)
    (ht : r.turn ⟨p, policy, maxSteps⟩ = .ended report) (ip : Nat) :
    report.ending ≠ .failed (.unclosedLoop ip) := by
  rcases cases_of_turn_ended ht with ⟨-, rfl⟩ | ⟨i, hi, hend⟩
  · nofun
  · rcases hend with ⟨fault, ho, rfl⟩ | ⟨-, ⟨fault, herr, rfl⟩ | ⟨machine, row, -, hdone⟩⟩
    · simp only [obstacle?] at ho
      repeat' split at ho
      all_goals cases ho <;> nofun
    · rcases h.perform policy hp hi with ⟨machine, row, hrow, -⟩ | ⟨ip, consumed, hread⟩
      · cases herr.symm.trans hrow
      · cases herr.symm.trans hread
        nofun
    · rw [(fault_of_complete hdone).1]
      nofun

/-- A run that is through with its program is in no loop. -/
theorem Framed.frames_eq_nil (hp : p.Paired) (h : Framed p input past r.machine)
    (ht : r.turn ⟨p, policy, maxSteps⟩ = .ended report) {m : Machine}
    (hm : report.ending = .finished m) : m.frames = [] := by
  obtain ⟨hnone, rfl⟩ := end_of_turn_finished ht hm
  cases hm
  have hip : r.machine.ip = p.length :=
    Nat.le_antisymm h.ip_le (Array.getElem?_eq_none_iff.1 hnone)
  have hlength := h.length_frames
  rw [hip, hp.openAt_length] at hlength
  exact List.eq_nil_of_length_eq_zero hlength

/-- Between two turns of a run, whatever its program, its input, its policy and its control:

* the place, the pointer and the position in the input are in range;
* there is a frame for each loop around the place, and the `k`-th one from outside is the pointer of
  the latest execution of the opening bracket of the `k`-th loop, a cell of the tape;
* the next turn does not find a loop unclosed;
* the frames are not more than the loops of the source are deep;
* if the next turn ends the run with success, no frame is left. -/
theorem frames_of_reached {source : String} (hsource : Program.ofSource source = .ok p)
    (hstart : Run.start input cancelled trace = .running first)
    (h : Reached ⟨p, policy, maxSteps⟩ first past r) :
    r.machine.ip ≤ p.length ∧
    r.machine.tape.pointer < r.machine.tape.size ∧
    r.machine.input.position ≤ input.length ∧
    r.machine.frames.length = (p.enclosing r.machine.ip).length ∧
    (∀ k o : Nat, (p.enclosing r.machine.ip)[k]? = some o →
      ∃ cell : Nat, r.machine.frames.reverse[k]? = some cell ∧ lastPointer past o = some cell ∧
        cell < r.machine.tape.size) ∧
    (∀ report ip, r.turn ⟨p, policy, maxSteps⟩ = .ended report →
      report.ending ≠ .failed (.unclosedLoop ip)) ∧
    r.machine.frames.length ≤ Bracket.nesting source.toList ∧
    ∀ report m, r.turn ⟨p, policy, maxSteps⟩ = .ended report → report.ending = .finished m →
      m.frames = [] := by
  have hp := Program.paired_of_ofText hsource
  have hinv := framed_of_reached hp hstart h
  have hframes := hinv.frames_enclosing hp
  refine ⟨hinv.ip_le, hinv.wellFormed, ?_, ?_, fun k o ho => ?_, fun report ip ht => ?_, ?_,
    fun report m ht => hinv.frames_eq_nil hp ht⟩
  · exact hinv.position_add ▸ Nat.le_add_right _ _
  · rw [hinv.length_frames, hp.enclosing_eq hinv.ip_le, List.length_reverse]
  · have hk := congrArg (·[k]?) hframes
    simp only [List.getElem?_map, ho, Option.map_some] at hk
    obtain ⟨cell, hcell, hentry⟩ := Option.map_eq_some_iff.1 hk
    refine ⟨cell, hcell, hentry.symm, hinv.frames_lt cell ?_⟩
    exact List.mem_reverse.1 (List.mem_of_getElem? hcell)
  · exact hinv.ending_ne hp ht ip
  · rw [hinv.length_frames, ← Program.toList_code_of_ofText hsource]
    exact Program.length_openAt_le p _

/-- Inside a loop that was entered on cell 0, with the pointer on cell 1. -/
theorem frames_of_reached_inside :
    ∃ (p : Program) (first r : Run) (past : List Run),
      Program.ofSource "+[>]-" = .ok p ∧ Run.start [] false none = .running first ∧
      Reached ⟨p, .error, none⟩ first past r ∧ r.machine.tape.pointer = 1 ∧
      p.enclosing r.machine.ip = [1] ∧ lastPointer past 1 = some 0 ∧
      ∃ cell : Nat, r.machine.frames.reverse[0]? = some cell ∧ lastPointer past 1 = some cell ∧
        cell < r.machine.tape.size := by
  have hsource : Program.ofSource "+[>]-" =
      .ok ⟨#['+', '[', '>', ']', '-'], #[none, some 3, none, some 1, none]⟩ := rfl
  have hstart : Run.start [] false none = .running ⟨Machine.start [], 0, false, none⟩ := rfl
  have hreached : Reached
      ⟨⟨#['+', '[', '>', ']', '-'], #[none, some 3, none, some 1, none]⟩, .error, none⟩
      ⟨Machine.start [], 0, false, none⟩ _ _ :=
    .turn (.turn (.turn .start rfl) rfl) rfl
  have hframes := frames_of_reached hsource hstart hreached
  exact ⟨_, _, _, _, hsource, hstart, hreached, rfl, by decide, by decide,
    hframes.2.2.2.2.1 0 1 (by decide)⟩

end Reached

end TapeMachine.Run
