import Mathlib.Data.List.Induction
import TapeMachine.Tape
set_option autoImplicit false

/-!
# Tape: the endless tape behind it

A row of bytes that grows on demand stands for a tape that has been there all along: a cell for every
integer, all zero, and a place on it that never goes below 0.  `Endless` is this tape, with integers
for its values, so that the wrapping of a byte is a remainder by 256 and the stop at the left end is a
maximum.

`Follows` says what a tape has to be after a sequence of operations.  Its row reaches exactly as far
as the walk has been.  One operation more keeps this (`Follows.apply`), and so it holds after every
sequence.  That no access misses is said by `Operation.attempt?`, which performs an operation on the
row with no result where an index is outside of it.

Main statement: `follows_after`.
-/

namespace TapeMachine.Tape

/-- One thing that is done to a tape. -/
inductive Operation
  | read
  | write (value : UInt8)
  | increment
  | decrement
  | advance
  | retreat
  deriving DecidableEq, Repr, Inhabited

/-- A tape with a cell for every integer, and a place on it. -/
structure Endless where
  value : Int → Int
  place : Int

namespace Operation

/-- The tape after the operation. -/
def apply (t : Tape) : Operation → Tape
  | read => t
  | write v => t.write v
  | increment => t.increment
  | decrement => t.decrement
  | advance => t.advance
  | retreat => t.retreat

/-- The value that the operation gives, if it gives one. -/
def answer? (t : Tape) : Operation → Option UInt8
  | read => some t.read
  | increment => some (t.read + 1)
  | decrement => some (t.read - 1)
  | _ => none

end Operation

namespace Endless

/-- Zeros everywhere, and the place at 0. -/
def start : Endless := ⟨fun _ => 0, 0⟩

/-- The value at the place. -/
def here (e : Endless) : Int := e.value e.place

/-- Puts a value at the place. -/
def put (e : Endless) (v : Int) : Endless :=
  { e with value := fun i => if i = e.place then v else e.value i }

/-- The endless tape after the operation. -/
def apply (e : Endless) : Operation → Endless
  | .read => e
  | .write v => e.put v.toNat
  | .increment => e.put ((e.here + 1) % 256)
  | .decrement => e.put ((e.here - 1) % 256)
  | .advance => { e with place := e.place + 1 }
  | .retreat => { e with place := max 0 (e.place - 1) }

/-- The value that the operation gives on the endless tape, if it gives one. -/
def answer? (e : Endless) : Operation → Option Int
  | .read => some e.here
  | .increment => some ((e.here + 1) % 256)
  | .decrement => some ((e.here - 1) % 256)
  | _ => none

/-- The endless tape after these operations. -/
def after (ops : List Operation) : Endless := ops.foldl apply start

/-- Among the places before, between and behind these operations is this one. -/
def Visits (ops : List Operation) (place : Int) : Prop :=
  ∃ done, done <+: ops ∧ (after done).place = place

theorem after_concat (ops : List Operation) (op : Operation) :
    after (ops ++ [op]) = (after ops).apply op := by
  simp only [after, List.foldl_append, List.foldl_cons, List.foldl_nil]

theorem visits_nil {place : Int} : Visits [] place ↔ place = 0 := by
  simp [Visits, List.prefix_nil, after, start, eq_comm]

/-- One operation more leads to one place more. -/
theorem visits_concat {ops : List Operation} {op : Operation} {place : Int} :
    Visits (ops ++ [op]) place ↔ Visits ops place ∨ place = ((after ops).apply op).place := by
  simp only [Visits, List.prefix_concat_iff, or_and_right, exists_or, exists_eq_left, after_concat,
    eq_comm, or_comm]

end Endless

/-! ## Every access is to a cell of the row -/

/-- The value under the pointer, which has to be on the row. -/
def load? (t : Tape) : Option UInt8 := t.cells[t.pointer]?

/-- Puts a value under the pointer, which has to be on the row. -/
def store? (t : Tape) (v : UInt8) : Option Tape :=
  if h : t.pointer < t.cells.size then some { t with cells := t.cells.set t.pointer v h } else none

/-- The tape after the operation and the value that it gives; nothing if the pointer is off the row when
a cell is asked for. -/
def Operation.attempt? (t : Tape) : Operation → Option (Tape × Option UInt8)
  | read => t.load?.map fun v => (t, some v)
  | write v => (t.store? v).map fun t' => (t', none)
  | increment => t.load?.bind fun v => (t.store? (v + 1)).map fun t' => (t', some (v + 1))
  | decrement => t.load?.bind fun v => (t.store? (v - 1)).map fun t' => (t', some (v - 1))
  | advance => some (t.advance, none)
  | retreat => some (t.retreat, none)

section

variable {t : Tape}

theorem WellFormed.load?_eq (h : t.WellFormed) : t.load? = some t.read := by
  have hin : t.pointer < t.cells.size := h
  simp [load?, read, cell, Array.getD, hin]

theorem WellFormed.store?_eq (h : t.WellFormed) (v : UInt8) : t.store? v = some (t.write v) := by
  have hin : t.pointer < t.cells.size := h
  rw [store?, dif_pos hin, Tape.write, Array.setIfInBounds, dif_pos hin]

/-- On a well-formed tape no access misses. -/
theorem WellFormed.attempt?_eq (h : t.WellFormed) (op : Operation) :
    op.attempt? t = some (op.apply t, op.answer? t) := by
  cases op with
  | read => rw [Operation.attempt?, h.load?_eq]; rfl
  | write v => rw [Operation.attempt?, h.store?_eq]; rfl
  | increment => rw [Operation.attempt?, h.load?_eq, Option.bind_some, h.store?_eq]; rfl
  | decrement => rw [Operation.attempt?, h.load?_eq, Option.bind_some, h.store?_eq]; rfl
  | advance => rfl
  | retreat => rfl

theorem WellFormed.apply (h : t.WellFormed) (op : Operation) : (op.apply t).WellFormed := by
  cases op with
  | read => exact h
  | write v => exact h.write v
  | increment => exact h.increment
  | decrement => exact h.decrement
  | advance => exact h.advance
  | retreat => exact h.retreat

end

/-! ## The same values at the same places -/

/-- The tape shows the endless one: the pointer is at its place, and the cells have its values. -/
structure Shows (t : Tape) (e : Endless) : Prop where
  wellFormed : t.WellFormed
  pointer_eq : (t.pointer : Int) = e.place
  cell_eq : ∀ i : Nat, ((t.cell i).toNat : Int) = e.value i

namespace Shows

variable {t : Tape} {e : Endless}

theorem fresh : Tape.fresh.Shows Endless.start :=
  ⟨wellFormed_fresh, rfl, fun i => by rw [cell_fresh]; rfl⟩

theorem read_eq (h : t.Shows e) : (t.read.toNat : Int) = e.here := by
  rw [Tape.read, h.cell_eq, h.pointer_eq, Endless.here]

theorem write (h : t.Shows e) {v : UInt8} {x : Int} (hv : (v.toNat : Int) = x) :
    (t.write v).Shows (e.put x) := by
  refine ⟨h.wellFormed.write v, h.pointer_eq, fun i => ?_⟩
  have hplace : (i : Int) = e.place ↔ i = t.pointer := by rw [← h.pointer_eq, Int.ofNat_inj]
  rw [cell_write h.wellFormed]
  simp only [Endless.put, hplace]
  split
  · exact hv
  · exact h.cell_eq i

/-- A byte above 255 is a remainder. -/
theorem read_add_one (h : t.Shows e) : ((t.read + 1).toNat : Int) = (e.here + 1) % 256 := by
  rw [← h.read_eq, UInt8.toNat_add]
  rfl

/-- So is a byte below 0. -/
theorem read_sub_one (h : t.Shows e) : ((t.read - 1).toNat : Int) = (e.here - 1) % 256 := by
  have hsub : (t.read - 1).toNat = (2 ^ 8 - 1 + t.read.toNat) % 2 ^ 8 := UInt8.toNat_sub _ _
  rw [← h.read_eq, hsub]
  omega

theorem apply (h : t.Shows e) (op : Operation) : (op.apply t).Shows (e.apply op) := by
  cases op with
  | read => exact h
  | write v => exact h.write rfl
  | increment => exact h.write h.read_add_one
  | decrement => exact h.write h.read_sub_one
  | advance =>
    refine ⟨h.wellFormed.advance, ?_, fun i => ?_⟩
    · rw [Operation.apply, pointer_advance, Int.natCast_add, h.pointer_eq]
      rfl
    · rw [Operation.apply, cell_advance]
      exact h.cell_eq i
  | retreat =>
    refine ⟨h.wellFormed.retreat, ?_, h.cell_eq⟩
    have hplace := h.pointer_eq
    simp only [Operation.apply, pointer_retreat, Endless.apply]
    omega

theorem answer_eq (h : t.Shows e) (op : Operation) :
    (op.answer? t).map (fun v => (v.toNat : Int)) = e.answer? op := by
  cases op with
  | read => exact congrArg some h.read_eq
  | increment => exact congrArg some h.read_add_one
  | decrement => exact congrArg some h.read_sub_one
  | write v => rfl
  | advance => rfl
  | retreat => rfl

end Shows

/-! ## As far as the walk has been -/

/-- The tape after these operations on a fresh one. -/
def after (ops : List Operation) : Tape := ops.foldl (fun t op => op.apply t) fresh

theorem after_concat (ops : List Operation) (op : Operation) :
    after (ops ++ [op]) = op.apply (after ops) := by
  simp only [after, List.foldl_append, List.foldl_cons, List.foldl_nil]

/-- A tape after these operations: the values and the place are those of the endless tape, and the row
ends at the highest place so far. -/
structure Follows (t : Tape) (ops : List Operation) : Prop where
  shows : t.Shows (Endless.after ops)
  visits_last : Endless.Visits ops (t.size - 1)
  le_last : ∀ place, Endless.Visits ops place → place ≤ t.size - 1

theorem Endless.value_apply_of_ne {e : Endless} {i : Int} (h : i ≠ e.place) (op : Operation) :
    (e.apply op).value i = e.value i := by
  cases op <;> simp only [Endless.apply, put, if_neg h]

/-- Where the walk has not been is a zero. -/
theorem Endless.value_after_of_not_visits {ops : List Operation} {i : Int} (h : ¬Visits ops i) :
    (after ops).value i = 0 := by
  induction ops using List.reverseRecOn with
  | nil => rfl
  | append_singleton ops op ih =>
    obtain ⟨hbefore, -⟩ := not_or.1 (mt visits_concat.2 h)
    have hplace : i ≠ (after ops).place := fun heq => hbefore ⟨ops, List.prefix_rfl, heq.symm⟩
    rw [after_concat, value_apply_of_ne hplace, ih hbefore]

/-- The row grows by what the pointer needs. -/
theorem size_apply {t : Tape} (h : t.WellFormed) (op : Operation) :
    (op.apply t).size = max t.size ((op.apply t).pointer + 1) := by
  have hin : t.pointer < t.size := h
  cases op with
  | advance => rw [Operation.apply, size_advance h, pointer_advance]
  | retreat =>
    rw [Operation.apply, size_retreat, pointer_retreat]
    omega
  | read => exact (Nat.max_eq_left hin).symm
  | write v => exact (size_write t v).trans (Nat.max_eq_left hin).symm
  | increment => exact (size_write t _).trans (Nat.max_eq_left hin).symm
  | decrement => exact (size_write t _).trans (Nat.max_eq_left hin).symm

/-- The row grows only at its end, and only by a zero. -/
theorem size_apply_eq_or (t : Tape) (op : Operation) :
    (op.apply t).size = t.size ∨ op = .advance ∧ (op.apply t).cells = t.cells.push 0 := by
  cases op with
  | advance =>
    rw [Operation.apply, Tape.advance]
    split
    · exact .inr ⟨rfl, rfl⟩
    · exact .inl rfl
  | read => exact .inl rfl
  | write v => exact .inl (size_write t v)
  | increment => exact .inl (size_write t _)
  | decrement => exact .inl (size_write t _)
  | retreat => exact .inl rfl

namespace Follows

theorem fresh : Tape.fresh.Follows [] :=
  ⟨.fresh, Endless.visits_nil.2 rfl, fun _ h => Int.le_of_eq (Endless.visits_nil.1 h)⟩

theorem apply {t : Tape} {ops : List Operation} (h : t.Follows ops) (op : Operation) :
    (op.apply t).Follows (ops ++ [op]) := by
  have hshows := h.shows.apply op
  have hplace := hshows.pointer_eq
  have hsize := size_apply h.shows.wellFormed op
  refine ⟨by rwa [Endless.after_concat], Endless.visits_concat.2 ?_, fun place hvisits => ?_⟩
  · -- the row ends where it did, or at the new place
    rcases Nat.le_total ((op.apply t).pointer + 1) t.size with hle | hle
    · rw [hsize, Nat.max_eq_left hle]
      exact .inl h.visits_last
    · rw [hsize, Nat.max_eq_right hle]
      exact .inr (by omega)
  · rcases Endless.visits_concat.1 hvisits with hbefore | rfl
    · have := h.le_last place hbefore
      omega
    · omega

end Follows

/-- A fresh tape that is operated on stands for an endless one.

* Its pointer is at the place of the endless tape, every cell has the value there, and the last cell
  is at the highest place so far.
* A cell that was never visited is a zero.
* The next operation finds every cell it asks for, whatever it is, and gives the value that it gives
  on the endless tape; the row stays as long as it is, or it is an advance that puts a zero at its
  end. -/
theorem follows_after (ops : List Operation) :
    (after ops).Follows ops ∧
    (∀ i : Nat, ¬Endless.Visits ops i → (after ops).cell i = 0) ∧
    ∀ op : Operation,
      op.attempt? (after ops) = some (after (ops ++ [op]), op.answer? (after ops)) ∧
      (op.answer? (after ops)).map (fun v => (v.toNat : Int)) =
        (Endless.after ops).answer? op ∧
      ((after (ops ++ [op])).size = (after ops).size ∨
        op = .advance ∧ (after (ops ++ [op])).cells = (after ops).cells.push 0) := by
  have hfollows : (after ops).Follows ops := by
    induction ops using List.reverseRecOn with
    | nil => exact .fresh
    | append_singleton ops op ih => exact after_concat ops op ▸ ih.apply op
  have hshows := hfollows.shows
  refine ⟨hfollows, fun i hi => ?_, fun op => ⟨?_, hshows.answer_eq op, ?_⟩⟩
  · have hzero := hshows.cell_eq i
    rw [Endless.value_after_of_not_visits hi] at hzero
    exact UInt8.toNat_inj.1 (Int.ofNat_inj.1 hzero)
  · rw [after_concat]
    exact hshows.wellFormed.attempt?_eq op
  · rw [after_concat]
    exact size_apply_eq_or (after ops) op

example : after [.retreat, .decrement, .advance, .advance, .retreat] = ⟨#[255, 0, 0], 1⟩ := by
  decide

end TapeMachine.Tape
