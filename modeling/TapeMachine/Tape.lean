set_option autoImplicit false

/-!
# Tape

The memory of the machine: a row of byte cells and a pointer into it.  A fresh tape is one zero cell
with the pointer on it.  The row grows by one zero cell whenever the pointer walks off its right end,
and the pointer stays where it is when asked to walk off the left end.

A `Tape` is plain data.  `Tape.WellFormed` says that the pointer stands on a cell; the fresh tape has
this property and every operation keeps it, so no read or write ever misses.  The only view an
observer needs is `Tape.cell`, which gives the value at any index and zero where the row has not been
yet; one lemma per operation says what it does to that view.
-/

namespace TapeMachine

/-- A row of byte cells with a pointer. -/
structure Tape where
  cells : Array UInt8
  pointer : Nat
  deriving DecidableEq, Repr, Inhabited

namespace Tape

/-- One zero cell, with the pointer on it. -/
def fresh : Tape := ⟨#[0], 0⟩

/-- The number of cells in the row. -/
def size (t : Tape) : Nat := t.cells.size

/-- A row without any cell.  No tape built from `Tape.fresh` is empty. -/
def isEmpty (t : Tape) : Bool := t.cells.isEmpty

/-- The value at `index`, zero beyond the end of the row. -/
def cell (t : Tape) (index : Nat) : UInt8 := t.cells.getD index 0

/-- The value under the pointer. -/
def read (t : Tape) : UInt8 := t.cell t.pointer

/-- Replaces the value under the pointer. -/
def write (t : Tape) (value : UInt8) : Tape :=
  { t with cells := t.cells.setIfInBounds t.pointer value }

/-- Adds one to the value under the pointer; 255 is followed by 0. -/
def increment (t : Tape) : Tape := t.write (t.read + 1)

/-- Takes one from the value under the pointer; 0 is preceded by 255. -/
def decrement (t : Tape) : Tape := t.write (t.read - 1)

/-- Moves the pointer one cell to the right, onto a new zero cell at the end of the row. -/
def advance (t : Tape) : Tape :=
  let pointer := t.pointer + 1
  if pointer = t.cells.size then ⟨t.cells.push 0, pointer⟩ else ⟨t.cells, pointer⟩

/-- Moves the pointer one cell to the left; at index 0 it stays. -/
def retreat (t : Tape) : Tape := { t with pointer := t.pointer - 1 }

/-- The pointer stands on a cell of the row. -/
def WellFormed (t : Tape) : Prop := t.pointer < t.size

instance (t : Tape) : Decidable t.WellFormed :=
  inferInstanceAs (Decidable (_ < _))

/-! ## The pointer stays on the row -/

theorem wellFormed_fresh : fresh.WellFormed := by decide

theorem WellFormed.write {t : Tape} (h : t.WellFormed) (v : UInt8) : (t.write v).WellFormed := by
  simpa [WellFormed, size, Tape.write] using h

theorem WellFormed.increment {t : Tape} (h : t.WellFormed) : t.increment.WellFormed := h.write _

theorem WellFormed.decrement {t : Tape} (h : t.WellFormed) : t.decrement.WellFormed := h.write _

theorem WellFormed.advance {t : Tape} (h : t.WellFormed) : t.advance.WellFormed := by
  simp only [WellFormed, size, Tape.advance] at *
  split
  · simp; omega
  · simp only; omega

theorem WellFormed.retreat {t : Tape} (h : t.WellFormed) : t.retreat.WellFormed := by
  simp only [WellFormed, size, Tape.retreat] at *
  omega

/-! ## What each operation does to the view -/

@[simp] theorem pointer_fresh : fresh.pointer = 0 := rfl

@[simp] theorem pointer_write (t : Tape) (v : UInt8) : (t.write v).pointer = t.pointer := rfl

@[simp] theorem pointer_advance (t : Tape) : t.advance.pointer = t.pointer + 1 := by
  simp only [advance]; split <;> rfl

@[simp] theorem pointer_retreat (t : Tape) : t.retreat.pointer = t.pointer - 1 := rfl

@[simp] theorem cell_fresh (i : Nat) : fresh.cell i = 0 := by
  cases i <;> simp [fresh, cell, Array.getD]

theorem cell_write {t : Tape} (h : t.WellFormed) (v : UInt8) (i : Nat) :
    (t.write v).cell i = if i = t.pointer then v else t.cell i := by
  simp only [WellFormed, size] at h
  by_cases hi : i = t.pointer
  · subst hi
    simp [cell, Tape.write, h]
  · simp [cell, Tape.write, hi, Ne.symm hi]

@[simp] theorem cell_advance (t : Tape) (i : Nat) : t.advance.cell i = t.cell i := by
  simp only [advance]
  split
  · simp only [cell, Array.getD_eq_getD_getElem?, Array.getElem?_push]
    split
    · next h => simp [h]
    · rfl
  · rfl

@[simp] theorem cell_retreat (t : Tape) (i : Nat) : t.retreat.cell i = t.cell i := rfl

theorem size_write (t : Tape) (v : UInt8) : (t.write v).size = t.size := by
  simp [size, Tape.write]

theorem size_advance {t : Tape} (h : t.WellFormed) :
    t.advance.size = max t.size (t.pointer + 2) := by
  simp only [WellFormed, size, advance] at *
  split
  · simp; omega
  · simp only; omega

theorem size_retreat (t : Tape) : t.retreat.size = t.size := rfl

end Tape

end TapeMachine
