import TapeMachine.Proofs.Block.Place
set_option autoImplicit false

/-!
# Machine: its course

What a machine does when nothing stops it but its program, counted by instructions.  Comments are
passed over on the way: a machine is *settled* when it stands at an instruction or at the end.

`Course.machine?` gives the settled machine in front of each instruction, `Course.row?` the row of
this instruction and `Course.rows` the rows of the first `k` instructions.  A run under a step limit,
with a request to stop or with a trace is a part of this course, so the course is what two such runs
are compared by.

Main statements: the first `k` rows are a prefix of more rows (`rows_prefix`), and the output is what
the rows of the output instructions say (`output_of_machine?`).
-/

namespace TapeMachine

/-- The instruction at `ip`; nothing for a comment and beyond the end. -/
def Program.instruction? (p : Program) (ip : Nat) : Option Instruction :=
  (p.code[ip]?).bind Instruction.ofChar?

/-- The index of the first instruction at `ip` or behind it, and the end if there is none. -/
def Program.place (p : Program) (ip : Nat) : Nat :=
  ip + ((p.code.toList.drop ip).takeWhile fun c => (Instruction.ofChar? c).isNone).length

/-- The machine past the comments in front of it. -/
def Machine.settle (p : Program) (m : Machine) : Machine := { m with ip := p.place m.ip }

/-- A machine that is left to itself. -/
structure Course where
  program : Program
  policy : EofPolicy
  start : Machine
  deriving DecidableEq, Repr, Inhabited

namespace Course

/-- What the instruction at which the machine stands leads to, and its row; nothing if it fails and
where there is none. -/
def step? (c : Course) (m : Machine) : Option (Machine × Row) :=
  (c.program.instruction? m.ip).bind fun i => (m.perform c.program c.policy i).toOption

/-- The settled machine that has completed `k` instructions; nothing if it does not get that far. -/
def machine? (c : Course) : Nat → Option Machine
  | 0 => some (c.start.settle c.program)
  | k + 1 => (c.machine? k).bind fun m => (c.step? m).map fun done => done.1.settle c.program

/-- The row of instruction number `k`, counted from 0, if it is completed. -/
def row? (c : Course) (k : Nat) : Option Row :=
  (c.machine? k).bind fun m => (c.step? m).map Prod.snd

/-- The rows of the first `k` instructions; all of them if fewer are completed. -/
def rows (c : Course) (k : Nat) : List Row := (List.range k).filterMap c.row?

end Course

/-- The bytes that were put out according to these rows. -/
def Row.emitted (rows : List Row) : List UInt8 :=
  (rows.filter fun row => row.instruction = .put).map cell

/-! ## Past the comments -/

section Place

variable {p : Program} {ip : Nat}

theorem Program.instruction?_eq_some_iff {i : Instruction} :
    p.instruction? ip = some i ↔ p.code[ip]? = some i.char := by
  simp only [instruction?, Option.bind_eq_some_iff, Instruction.ofChar?_eq_some_iff,
    exists_eq_right]

theorem Program.place_of_comment {c : Char} (hc : p.code[ip]? = some c)
    (hno : Instruction.ofChar? c = none) : p.place ip = p.place (ip + 1) := by
  obtain ⟨hip, rfl⟩ := Array.getElem?_eq_some_iff.1 hc
  rw [place, place, List.drop_eq_getElem_cons (by simpa using hip), List.takeWhile_cons_of_pos]
  · simp only [List.length_cons]
    omega
  · simpa using hno

theorem Program.place_of_instruction {i : Instruction} (hi : p.code[ip]? = some i.char) :
    p.place ip = ip := by
  obtain ⟨hip, hchar⟩ := Array.getElem?_eq_some_iff.1 hi
  rw [place, List.drop_eq_getElem_cons (by simpa using hip), List.takeWhile_cons_of_neg]
  · rfl
  · simp [hchar]

theorem Program.place_of_end (h : p.code[ip]? = none) : p.place ip = ip := by
  have hle : p.code.toList.length ≤ ip := by simpa using h
  rw [place, List.drop_eq_nil_of_le hle]
  rfl

/-- Between a place and its instruction there are comments only, and there is one or the end. -/
theorem Program.comments_place (p : Program) (ip : Nat) :
    p.Comments ip (p.place ip) ∧
      (p.code[p.place ip]? = none ∨ ∃ i, p.code[p.place ip]? = some (Instruction.char i)) := by
  -- each comment is one character less to the end
  induction hleft : p.code.size - ip generalizing ip with
  | zero =>
    have hend : p.code[ip]? = none := Array.getElem?_eq_none (by omega)
    rw [place_of_end hend]
    exact ⟨.refl ip, .inl hend⟩
  | succ left ih =>
    have hc : p.code[ip]? = some p.code[ip] := Array.getElem?_eq_getElem (by omega)
    rcases Run.ofChar?_cases p.code[ip] with hno | ⟨i, hi⟩
    · rw [place_of_comment hc hno]
      obtain ⟨hcomments, hstop⟩ := ih (ip + 1) (by omega)
      exact ⟨.step hc hno hcomments, hstop⟩
    · rw [hi] at hc
      rw [place_of_instruction hc]
      exact ⟨.refl ip, .inr ⟨i, hc⟩⟩

theorem Machine.settle_skip {m : Machine} {c : Char} (hc : p.code[m.ip]? = some c)
    (hno : Instruction.ofChar? c = none) : m.skip.settle p = m.settle p := by
  simp only [settle, skip, Program.place_of_comment hc hno]

theorem Machine.settle_of_instruction {m : Machine} {i : Instruction}
    (hi : p.code[m.ip]? = some i.char) : m.settle p = m := by
  simp only [settle, Program.place_of_instruction hi]

theorem Machine.settle_of_end {m : Machine} (h : p.code[m.ip]? = none) : m.settle p = m := by
  simp only [settle, Program.place_of_end h]

end Place

/-! ## The course by instructions -/

namespace Course

variable {c : Course} {k j : Nat} {m m' : Machine} {row : Row}

theorem step?_eq_some_iff : c.step? m = some (m', row) ↔
    ∃ i, c.program.instruction? m.ip = some i ∧
      m.perform c.program c.policy i = .ok (m', row) := by
  simp only [step?, Option.bind_eq_some_iff]
  refine exists_congr fun i => and_congr_right fun _ => ?_
  cases m.perform c.program c.policy i <;> simp [Except.toOption]

theorem machine?_succ_of_step? (h : c.machine? k = some m) (hstep : c.step? m = some (m', row)) :
    c.machine? (k + 1) = some (m'.settle c.program) := by
  simp [machine?, h, hstep]

theorem row?_of_step? (h : c.machine? k = some m) (hstep : c.step? m = some (m', row)) :
    c.row? k = some row := by
  simp [row?, h, hstep]

/-- A machine that gets on has completed the instruction it stood at. -/
theorem exists_step?_of_machine?_succ (h : c.machine? (k + 1) = some m') :
    ∃ m done row, c.machine? k = some m ∧ c.step? m = some (done, row) ∧
      m' = done.settle c.program := by
  simp only [machine?, Option.bind_eq_some_iff, Option.map_eq_some_iff] at h
  obtain ⟨m, hm, ⟨done, row⟩, hstep, rfl⟩ := h
  exact ⟨m, done, row, hm, hstep, rfl⟩

/-- A machine that gets on has stood at an instruction. -/
theorem exists_instruction_of_machine?_succ (h : c.machine? (k + 1) = some m') :
    ∃ m i, c.machine? k = some m ∧ c.program.instruction? m.ip = some i := by
  obtain ⟨m, done, row, hm, hstep, -⟩ := exists_step?_of_machine?_succ h
  obtain ⟨i, hi, -⟩ := step?_eq_some_iff.1 hstep
  exact ⟨m, i, hm, hi⟩

/-- The machines of a course are settled. -/
theorem place_of_machine? (h : c.machine? k = some m) : c.program.code[m.ip]? = none ∨
    ∃ i, c.program.code[m.ip]? = some (Instruction.char i) := by
  cases k with
  | zero =>
    cases h
    exact (c.program.comments_place c.start.ip).2
  | succ k =>
    obtain ⟨_, done, _, -, -, rfl⟩ := exists_step?_of_machine?_succ h
    exact (c.program.comments_place done.ip).2

/-- What is completed has been completed in order. -/
theorem exists_machine?_of_le (h : c.machine? k = some m) (hj : j ≤ k) :
    ∃ m', c.machine? j = some m' := by
  induction k generalizing m with
  | zero => exact ⟨m, Nat.le_zero.1 hj ▸ h⟩
  | succ k ih =>
    rcases Nat.lt_or_eq_of_le hj with hlt | rfl
    · obtain ⟨m', _, _, hm', -⟩ := exists_step?_of_machine?_succ h
      exact ih hm' (Nat.le_of_lt_succ hlt)
    · exact ⟨m, h⟩

/-! ## The rows -/

@[simp] theorem rows_zero (c : Course) : c.rows 0 = [] := rfl

theorem rows_succ (c : Course) (k : Nat) : c.rows (k + 1) = c.rows k ++ (c.row? k).toList := by
  rw [rows, List.range_succ, List.filterMap_append]
  cases h : c.row? k <;> simp [rows, h]

theorem rows_succ_of_step? (h : c.machine? k = some m) (hstep : c.step? m = some (m', row)) :
    c.rows (k + 1) = c.rows k ++ [row] := by
  rw [rows_succ, row?_of_step? h hstep]
  rfl

/-- The rows of fewer instructions come first. -/
theorem rows_prefix (c : Course) (h : j ≤ k) : c.rows j <+: c.rows k := by
  induction h with
  | refl => exact List.prefix_refl _
  | step _ ih => exact ih.trans ⟨_, (rows_succ c _).symm⟩

/-- Each completed instruction has a row. -/
theorem length_rows (h : c.machine? k = some m) : (c.rows k).length = k := by
  induction k generalizing m with
  | zero => rfl
  | succ k ih =>
    obtain ⟨m', _, row, hm', hstep, -⟩ := exists_step?_of_machine?_succ h
    rw [rows_succ_of_step? hm' hstep, List.length_append, ih hm']
    rfl

/-- The row of each completed instruction stands at its number. -/
theorem exists_getElem?_rows (h : c.machine? k = some m) (hj : j < k) :
    ∃ m' done row, c.machine? j = some m' ∧ c.step? m' = some (done, row) ∧
      (c.rows k)[j]? = some row := by
  obtain ⟨_, hnext⟩ := exists_machine?_of_le h (Nat.succ_le_of_lt hj)
  obtain ⟨m', done, row, hm', hstep, -⟩ := exists_step?_of_machine?_succ hnext
  obtain ⟨more, hmore⟩ := c.rows_prefix (Nat.succ_le_of_lt hj)
  have hlength : (c.rows j).length = j := length_rows hm'
  refine ⟨m', done, row, hm', hstep, ?_⟩
  rw [← hmore, rows_succ_of_step? hm' hstep, List.append_assoc,
    List.getElem?_append_right (Nat.le_of_eq hlength), hlength, Nat.sub_self]
  rfl

/-! ## The output -/

/-- An instruction puts out what its row says. -/
theorem output_of_step? (hstep : c.step? m = some (m', row)) :
    m'.output.toList = m.output.toList ++ Row.emitted [row] := by
  obtain ⟨i, -, hp⟩ := step?_eq_some_iff.1 hstep
  obtain ⟨-, -, hcell, rfl⟩ := Machine.row_of_perform hp
  rw [Machine.output_of_perform hp, ← hcell]
  by_cases hput : row.instruction = .put <;> simp [Row.emitted, hput]

/-- The output of a machine is what the rows of its output instructions say, in order. -/
theorem output_of_machine? (h : c.machine? k = some m) :
    m.output.toList = c.start.output.toList ++ Row.emitted (c.rows k) := by
  induction k generalizing m with
  | zero =>
    cases h
    simp [Row.emitted, Machine.settle]
  | succ k ih =>
    obtain ⟨m', done, row, hm', hstep, rfl⟩ := exists_step?_of_machine?_succ h
    have hdone : (done.settle c.program).output = done.output := rfl
    rw [hdone, output_of_step? hstep, ih hm', rows_succ_of_step? hm' hstep, List.append_assoc]
    simp only [Row.emitted, List.filter_append, List.map_append]

end Course

end TapeMachine
