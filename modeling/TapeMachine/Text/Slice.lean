set_option autoImplicit false

/-!
# Text: slices by byte

Positions in a text count characters, while a slice of its UTF-8 form is taken between byte offsets.
`byteOffset` leads from the first to the second, and `slice?` takes the slice; it refuses offsets that
are out of order, beyond the end or inside a character.  `slice?_byteOffset` says that between the
offsets of two positions the slice is always there and holds the characters between the positions.
-/

namespace TapeMachine.Text

/-- The length of the text in UTF-8. -/
def byteLength : List Char → Nat
  | [] => 0
  | c :: text => c.utf8Size + byteLength text

/-- The byte offset at which the character number `index` starts; the end of the text for every
larger index. -/
def byteOffset (text : List Char) (index : Nat) : Nat := byteLength (text.take index)

/-- Splits the text at a byte offset, unless the offset is inside a character or beyond the end. -/
def splitAtByte? : Nat → List Char → Option (List Char × List Char)
  | 0, text => some ([], text)
  | _ + 1, [] => none
  | offset + 1, c :: text =>
    if c.utf8Size ≤ offset + 1 then
      (splitAtByte? (offset + 1 - c.utf8Size) text).map fun cut => (c :: cut.1, cut.2)
    else none

/-- The part of the text between two byte offsets. -/
def slice? (text : List Char) (start stop : Nat) : Option (List Char) :=
  if start ≤ stop then
    (splitAtByte? start text).bind fun cut =>
      (splitAtByte? (stop - start) cut.2).map fun part => part.1
  else none

@[simp] theorem byteLength_nil : byteLength [] = 0 := rfl

@[simp] theorem byteLength_cons (c : Char) (text : List Char) :
    byteLength (c :: text) = c.utf8Size + byteLength text := rfl

@[simp] theorem byteLength_append (a b : List Char) :
    byteLength (a ++ b) = byteLength a + byteLength b := by
  induction a with
  | nil => simp
  | cons c a ih => simp [ih, Nat.add_assoc]

theorem splitAtByte?_append (a b : List Char) :
    splitAtByte? (byteLength a) (a ++ b) = some (a, b) := by
  induction a with
  | nil => simp [splitAtByte?]
  | cons c a ih =>
    have hpos : 0 < c.utf8Size := Char.utf8Size_pos c
    obtain ⟨n, hn⟩ : ∃ n, c.utf8Size + byteLength a = n + 1 := ⟨_, (Nat.sub_add_cancel (by omega)).symm⟩
    rw [byteLength_cons, hn, List.cons_append, splitAtByte?, if_pos (by omega)]
    rw [show n + 1 - c.utf8Size = byteLength a by omega, ih]
    rfl

/-- Between the byte offsets of two positions stand the characters between the positions. -/
theorem slice?_byteOffset (text : List Char) {start stop : Nat} (h : start ≤ stop) :
    slice? text (byteOffset text start) (byteOffset text stop)
      = some ((text.drop start).take (stop - start)) := by
  have hstop : text.take stop = text.take start ++ (text.drop start).take (stop - start) := by
    rw [← List.take_add, Nat.add_sub_cancel' h]
  have hle : byteOffset text start ≤ byteOffset text stop := by
    simp [byteOffset, hstop]
  have hsub : byteOffset text stop - byteOffset text start
      = byteLength ((text.drop start).take (stop - start)) := by
    simp [byteOffset, hstop]
  have hfirst : splitAtByte? (byteOffset text start) text
      = some (text.take start, text.drop start) := by
    have := splitAtByte?_append (text.take start) (text.drop start)
    rwa [List.take_append_drop] at this
  have hsecond := splitAtByte?_append ((text.drop start).take (stop - start))
    ((text.drop start).drop (stop - start))
  rw [List.take_append_drop] at hsecond
  simp [slice?, hle, hfirst, hsub, hsecond]

end TapeMachine.Text
