import TapeMachine.Proofs.Settings.Declared
import TapeMachine.Text.Slice
set_option autoImplicit false

/-!
# Settings: reading by slices

A line can be read by slices of its UTF-8 form: the name of a section is what stands between the first
byte and the last one, the key is what stands before the byte of the equals sign, and so on.  A slice
of a text need not exist: its ends may be out of order, beyond the text or inside a character.
`Reading.sliceLine?` reads a line in this way and has no result where a slice does not exist.

Main statement: every line has a result, the one of `Reading.takeLine` (`sliceLine?_eq_some`), and
therefore so has every text (`sliceText?_eq_some`).
-/

namespace TapeMachine

/-- What stands between two parts of a text is a slice. -/
theorem Text.slice?_append (a b c : List Char) :
    slice? (a ++ (b ++ c)) (byteLength a) (byteLength a + byteLength b) = some b := by
  rw [slice?, if_pos (Nat.le_add_right _ _), splitAtByte?_append, Option.bind_some,
    Nat.add_sub_cancel_left, splitAtByte?_append]
  rfl

/-- A text of two characters or more without the first and the last one, each of which is one byte. -/
theorem Text.slice?_between {c d : Char} (hc : c.utf8Size = 1) (hd : d.utf8Size = 1)
    (inner : List Char) :
    slice? (c :: inner ++ [d]) 1 (byteLength (c :: inner ++ [d]) - 1) = some inner := by
  have hstart : byteLength [c] = 1 := by simp [hc]
  have hstop : byteLength (c :: inner ++ [d]) - 1 = byteLength [c] + byteLength inner := by
    simp only [byteLength_append, byteLength_cons, byteLength_nil, hc, hd]
    omega
  rw [hstop]
  exact (congrArg (slice? _ · _) hstart.symm).trans (slice?_append [c] inner [d])

namespace Settings

/-- The byte offset of the first equals sign; nothing if there is none. -/
def equalsOffset? (line : List Char) : Option Nat :=
  (line.findIdx? (· = '=')).map (Text.byteOffset line)

/-- The value without the pair of double quotes around it, if there is one. -/
def sliceUnquoted? (value : List Char) : Option (List Char) :=
  if value.head? = some '"' ∧ value.getLast? = some '"' ∧ 2 ≤ Text.byteLength value then
    Text.slice? value 1 (Text.byteLength value - 1)
  else some value

/-- Takes in one line, without the blanks around it. -/
def Reading.sliceTrimmed? (r : Reading) (line : List Char) : Option Reading :=
  if line = [] ∨ line.head? = some '#' then some r
  else if line.head? = some '[' ∧ line.getLast? = some ']' then
    (Text.slice? line 1 (Text.byteLength line - 1)).map fun name =>
      { r with inSection := name = sectionName }
  else if r.inSection then
    match equalsOffset? line with
    | none => some r
    | some offset => do
      let key ← Text.slice? line 0 offset
      let value ← Text.slice? line (offset + 1) (Text.byteLength line)
      let value ← sliceUnquoted? (Text.trim value)
      some { r with assigned := (Text.trim key, value) :: r.assigned }
  else some r

/-- Takes in one line. -/
def Reading.sliceLine? (r : Reading) (line : List Char) : Option Reading :=
  r.sliceTrimmed? (Text.trim line)

/-- What a whole file says. -/
def Reading.sliceText? (text : List Char) : Option Reading :=
  (Text.pieces '\n' text).foldlM sliceLine? start

theorem sliceUnquoted?_eq_some (value : List Char) :
    sliceUnquoted? value = some (unquoted value) := by
  by_cases hquoted : ∃ inner, value = '"' :: inner ++ ['"']
  · obtain ⟨inner, rfl⟩ := hquoted
    have hlength : 2 ≤ Text.byteLength ('"' :: inner ++ ['"']) := by
      simp only [Text.byteLength_append, Text.byteLength_cons, Text.byteLength_nil,
        show '"'.utf8Size = 1 from rfl]
      omega
    rw [unquoted_quoted, sliceUnquoted?, if_pos ⟨rfl, List.getLast?_concat, hlength⟩]
    exact Text.slice?_between rfl rfl inner
  · have hbare : ∀ inner, value ≠ '"' :: inner ++ ['"'] := fun inner h => hquoted ⟨inner, h⟩
    rw [unquoted_bare hbare, sliceUnquoted?, if_neg]
    rintro ⟨hfirst, hlast, hlength⟩
    obtain ⟨inner, hinner⟩ := exists_eq_between hfirst hlast fun hne => by
      rw [hne] at hlength
      exact absurd hlength (by decide)
    exact hbare inner hinner

/-- Where the first equals sign is, the line can be sliced on both sides of it. -/
theorem slices_of_equalsOffset? {line : List Char} {offset : Nat}
    (h : equalsOffset? line = some offset) :
    ∃ before after, Text.cutAt? '=' line = some (before, after) ∧
      Text.slice? line 0 offset = some before ∧
      Text.slice? line (offset + 1) (Text.byteLength line) = some after := by
  obtain ⟨i, hi, rfl⟩ := Option.map_eq_some_iff.1 h
  obtain ⟨hlt, hequals, hbefore⟩ := List.findIdx?_eq_some_iff_getElem.1 hi
  have hline : line.drop i = '=' :: line.drop (i + 1) := by
    rw [List.drop_eq_getElem_cons hlt, of_decide_eq_true hequals]
  have hnotMem : '=' ∉ line.take i := by
    intro hmem
    obtain ⟨j, hj, heq⟩ := List.mem_take_iff_getElem.1 hmem
    exact hbefore j (Nat.lt_of_lt_of_le hj (Nat.min_le_left _ _)) (decide_eq_true heq)
  refine ⟨line.take i, line.drop (i + 1), ?_, ?_, ?_⟩
  · have hcut := Text.cutAt?_append hnotMem (line.drop (i + 1))
    rwa [← hline, List.take_append_drop] at hcut
  · exact Text.slice?_byteOffset line (Nat.zero_le i)
  · have hoffset : Text.byteOffset line i + 1 = Text.byteOffset line (i + 1) := by
      rw [Text.byteOffset, Text.byteOffset, ← List.take_append_getElem hlt,
        of_decide_eq_true hequals, Text.byteLength_append]
      rfl
    have hend : Text.byteLength line = Text.byteOffset line line.length := by
      rw [Text.byteOffset, List.take_length]
    rw [hoffset, hend, Text.slice?_byteOffset line hlt, ← List.length_drop, List.take_length]

theorem cutAt?_of_equalsOffset?_eq_none {line : List Char} (h : equalsOffset? line = none) :
    Text.cutAt? '=' line = none := by
  have hnone := List.findIdx?_eq_none_iff.1 (Option.map_eq_none_iff.1 h)
  cases hcut : Text.cutAt? '=' line with
  | none => rfl
  | some cut =>
    have hmem : '=' ∈ line := by
      rw [Text.eq_of_cutAt? hcut]
      simp
    exact absurd (hnone '=' hmem) (by decide)

namespace Reading

/-- Every slice of a line exists. -/
theorem sliceTrimmed?_eq_some (r : Reading) (line : List Char) :
    r.sliceTrimmed? line = some (r.takeTrimmed line) := by
  unfold sliceTrimmed? takeTrimmed
  split
  · rfl
  · split
    · next hheader =>
      obtain ⟨name, rfl⟩ := exists_of_isHeader hheader
      rw [Text.slice?_between rfl rfl, Option.map_some, List.cons_append, List.drop_one,
        List.tail_cons, List.dropLast_concat]
    · split
      · cases hoffset : equalsOffset? line with
        | none => rw [cutAt?_of_equalsOffset?_eq_none hoffset]
        | some offset =>
          obtain ⟨before, after, hcut, hkey, hvalue⟩ := slices_of_equalsOffset? hoffset
          simp only [hcut, hkey, hvalue, sliceUnquoted?_eq_some]
          rfl
      · rfl

theorem sliceLine?_eq_some (r : Reading) (line : List Char) :
    r.sliceLine? line = some (r.takeLine line) :=
  r.sliceTrimmed?_eq_some (Text.trim line)

/-- Every text can be read by slices, and it says then what it says. -/
theorem sliceText?_eq_some (text : List Char) : sliceText? text = some (ofText text) := by
  have hall : ∀ (raw : List (List Char)) (r : Reading),
      raw.foldlM sliceLine? r = some (raw.foldl takeLine r) := by
    intro raw
    induction raw with
    | nil => exact fun r => rfl
    | cons line raw ih =>
      intro r
      rw [List.foldlM_cons, sliceLine?_eq_some]
      exact ih _
  exact hall _ start

end Reading

end Settings

end TapeMachine
