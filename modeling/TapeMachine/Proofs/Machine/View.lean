import TapeMachine.Proofs.Machine.Effect
set_option autoImplicit false

/-!
# Machine: what can be seen of its tape

How far the row of cells reaches cannot be seen.  Two tapes have the same view if their pointers stand
on the same index and every cell has the same value, zero where a row does not reach.  Each operation
keeps this, and so an instruction leads from machines that differ in the row only to such machines,
with the same row of the trace or with the same fault (`Machine.perform_sameView`).

Some instructions take back what another one has done, up to the length of the row
(`Plain.UndoneBy.exists_apply`).
-/

namespace TapeMachine

namespace Tape

/-- The tapes differ at most in how far their rows of cells reach. -/
structure SameView (t t' : Tape) : Prop where
  wellFormed : t.WellFormed
  wellFormed' : t'.WellFormed
  pointer_eq : t'.pointer = t.pointer
  cell_eq : ∀ i, t'.cell i = t.cell i

section

variable {t t' t'' : Tape}

theorem read_write (h : t.WellFormed) (v : UInt8) : (t.write v).read = v := by
  rw [read, cell_write h, pointer_write, if_pos rfl]

namespace SameView

theorem trans (h : t.SameView t') (h' : t'.SameView t'') : t.SameView t'' :=
  ⟨h.wellFormed, h'.wellFormed', h'.pointer_eq.trans h.pointer_eq,
    fun i => (h'.cell_eq i).trans (h.cell_eq i)⟩

theorem read_eq (h : t.SameView t') : t'.read = t.read := by
  rw [read, read, h.pointer_eq, h.cell_eq]

theorem write (h : t.SameView t') (v : UInt8) : (t.write v).SameView (t'.write v) :=
  ⟨h.wellFormed.write v, h.wellFormed'.write v, h.pointer_eq, fun i => by
    rw [cell_write h.wellFormed', cell_write h.wellFormed, h.pointer_eq, h.cell_eq]⟩

theorem increment (h : t.SameView t') : t.increment.SameView t'.increment := by
  unfold Tape.increment
  rw [h.read_eq]
  exact h.write _

theorem decrement (h : t.SameView t') : t.decrement.SameView t'.decrement := by
  unfold Tape.decrement
  rw [h.read_eq]
  exact h.write _

theorem advance (h : t.SameView t') : t.advance.SameView t'.advance :=
  ⟨h.wellFormed.advance, h.wellFormed'.advance,
    by rw [pointer_advance, pointer_advance, h.pointer_eq],
    fun i => by rw [cell_advance, cell_advance, h.cell_eq]⟩

theorem retreat (h : t.SameView t') : t.retreat.SameView t'.retreat :=
  ⟨h.wellFormed.retreat, h.wellFormed'.retreat,
    by rw [pointer_retreat, pointer_retreat, h.pointer_eq], h.cell_eq⟩

end SameView

/-! ## There and back -/

/-- On the way to the right the row may grow, which cannot be seen after the way back. -/
theorem sameView_advance_retreat (h : t.WellFormed) : t.SameView t.advance.retreat :=
  ⟨h, h.advance.retreat, by rw [pointer_retreat, pointer_advance, Nat.add_sub_cancel],
    fun i => by rw [cell_retreat, cell_advance]⟩

/-- The old value can be put back. -/
theorem sameView_write_write (h : t.WellFormed) (v : UInt8) :
    t.SameView ((t.write v).write t.read) :=
  ⟨h, (h.write v).write t.read, rfl, fun i => by
    rw [cell_write (h.write v), cell_write h, pointer_write]
    split
    · next hi => rw [hi, read]
    · rfl⟩

theorem sameView_increment_decrement (h : t.WellFormed) : t.SameView t.increment.decrement := by
  have hvalue : t.increment.read - 1 = t.read := by
    rw [increment, read_write h, UInt8.add_sub_cancel]
  rw [decrement, hvalue]
  exact sameView_write_write h _

theorem sameView_decrement_increment (h : t.WellFormed) : t.SameView t.decrement.increment := by
  have hvalue : t.decrement.read + 1 = t.read := by
    rw [decrement, read_write h, UInt8.sub_add_cancel]
  rw [increment, hvalue]
  exact sameView_write_write h _

end

end Tape

/-- The second instruction takes back what the first one does, up to the length of the row. -/
inductive Plain.UndoneBy : Plain → Plain → Prop
  | right : UndoneBy .right .left
  | increment : UndoneBy .increment .decrement
  | decrement : UndoneBy .decrement .increment

/-- After both instructions only the row may be longer. -/
theorem Plain.UndoneBy.exists_apply {a a' : Plain} (h : a.UndoneBy a') (policy : EofPolicy) (ip : Nat)
    {s : Store} (hw : s.tape.WellFormed) :
    ∃ s₁ t, a.apply policy ip s = .ok s₁ ∧ a'.apply policy (ip + 1) s₁ = .ok { s with tape := t } ∧
      s.tape.SameView t := by
  cases h with
  | right => exact ⟨_, _, rfl, rfl, Tape.sameView_advance_retreat hw⟩
  | increment => exact ⟨_, _, rfl, rfl, Tape.sameView_increment_decrement hw⟩
  | decrement => exact ⟨_, _, rfl, rfl, Tape.sameView_decrement_increment hw⟩

namespace Machine

/-- The machines differ at most in how far their rows of cells reach. -/
structure SameView (m m' : Machine) : Prop where
  tape : m.tape.SameView m'.tape
  eq : m' = { m with tape := m'.tape }

variable {m m' : Machine}

/-- A machine that differs in the row only, by its tape. -/
theorem SameView.of_tape {t : Tape} (h : m.tape.SameView t) : m.SameView { m with tape := t } :=
  ⟨h, rfl⟩

theorem SameView.trans {m'' : Machine} (h : m.SameView m') (h' : m'.SameView m'') :
    m.SameView m'' :=
  ⟨h.tape.trans h'.tape, by rw [h'.eq, h.eq]⟩

theorem SameView.goto (h : m.SameView m') (ip : Nat) :
    SameView { m with ip := ip } { m' with ip := ip } :=
  ⟨h.tape, by rw [h.eq]⟩

/-- An instruction does the same and says the same, whatever the length of the row. -/
theorem perform_sameView (p : Program) (policy : EofPolicy) (i : Instruction) (h : m.SameView m') :
    match m.perform p policy i with
    | .error fault => m'.perform p policy i = .error fault
    | .ok (done, row) =>
      ∃ done', m'.perform p policy i = .ok (done', row) ∧ done.SameView done' := by
  obtain ⟨tape, ⟨rest, position⟩, output, frames, ip⟩ := m
  obtain ⟨htape, heq⟩ := h
  rw [heq]
  generalize m'.tape = tape' at htape
  have hpointer : tape'.pointer = tape.pointer := htape.pointer_eq
  have hread : tape'.read = tape.read := htape.read_eq
  cases i with
  | right =>
    simp only [perform, hpointer, hread]
    exact ⟨_, rfl, .of_tape htape.advance⟩
  | left =>
    simp only [perform, hpointer, hread]
    exact ⟨_, rfl, .of_tape htape.retreat⟩
  | increment =>
    simp only [perform, hpointer, hread]
    exact ⟨_, rfl, .of_tape htape.increment⟩
  | decrement =>
    simp only [perform, hpointer, hread]
    exact ⟨_, rfl, .of_tape htape.decrement⟩
  | put =>
    simp only [perform, hpointer, hread]
    exact ⟨_, rfl, .of_tape htape⟩
  | get =>
    simp only [perform, hpointer, hread]
    cases rest with
    | cons b rest => exact ⟨_, rfl, .of_tape (htape.write b)⟩
    | nil =>
      cases policy with
      | error => rfl
      | zero => exact ⟨_, rfl, .of_tape (htape.write 0)⟩
  | enter =>
    simp only [perform, hpointer, hread]
    cases p.partner? ip with
    | none => rfl
    | some close =>
      by_cases hzero : tape.read = 0
      · simp only [if_pos hzero]
        exact ⟨_, rfl, .of_tape htape⟩
      · simp only [if_neg hzero]
        exact ⟨_, rfl, .of_tape htape⟩
  | again =>
    simp only [perform, hpointer, hread, htape.cell_eq]
    cases p.partner? ip with
    | none => exact ⟨_, rfl, .of_tape htape⟩
    | some opening =>
      cases frames with
      | nil => rfl
      | cons entry outer =>
        by_cases hzero : tape.cell entry = 0
        · simp only [if_pos hzero]
          exact ⟨_, rfl, .of_tape htape⟩
        · simp only [if_neg hzero]
          exact ⟨_, rfl, .of_tape htape⟩

end Machine

end TapeMachine
