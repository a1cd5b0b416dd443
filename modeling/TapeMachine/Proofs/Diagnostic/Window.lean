import TapeMachine.Diagnostic.Context
set_option autoImplicit false

/-!
# Diagnostic: the window

What is shown about a place is a slice between two byte offsets.  A slice exists only between
offsets that are in order and on the boundaries of characters (`slice?_eq_some_iff`), so a window
that exists has such offsets.  It exists for every place whose window ends at a 64-bit word, also
for a place beyond the end of the program.

Main statement: what is shown about a place, where the place is in it, and what colours add to it
(`context?_shown`).
-/

namespace TapeMachine

/-! ## Boundaries -/

namespace Text

/-- An offset at which a character starts, or the end of the text. -/
def IsBoundary (text : List Char) (offset : Nat) : Prop :=
  ∃ before behind, text = before ++ behind ∧ byteLength before = offset

theorem splitAtByte?_eq_some_iff {offset : Nat} {text a b : List Char} :
    splitAtByte? offset text = some (a, b) ↔ text = a ++ b ∧ byteLength a = offset := by
  constructor
  · -- along the recursion of the split
    induction offset, text using splitAtByte?.induct generalizing a with
    | case1 text =>
      rw [splitAtByte?]
      rintro ⟨⟩
      exact ⟨rfl, rfl⟩
    | case2 offset =>
      rw [splitAtByte?]
      rintro ⟨⟩
    | case3 offset c text hfits ih =>
      rw [splitAtByte?, if_pos hfits, Option.map_eq_some_iff]
      rintro ⟨cut, hcut, ⟨⟩⟩
      obtain ⟨htext, hlength⟩ := ih hcut
      refine ⟨congrArg (c :: ·) htext, ?_⟩
      rw [byteLength_cons, hlength]
      omega
    | case4 offset c text hover =>
      rw [splitAtByte?, if_neg hover]
      rintro ⟨⟩
  · rintro ⟨rfl, rfl⟩
    exact splitAtByte?_append a b

/-- A slice exists exactly between two boundaries that are in order. -/
theorem slice?_eq_some_iff {text part : List Char} {start stop : Nat} :
    slice? text start stop = some part ↔
      ∃ before behind, text = before ++ part ++ behind ∧ byteLength before = start ∧
        byteLength (before ++ part) = stop := by
  constructor
  · intro h
    rw [slice?] at h
    split at h
    next hle =>
      obtain ⟨⟨before, rest⟩, hfirst, h⟩ := Option.bind_eq_some_iff.1 h
      obtain ⟨⟨_, behind⟩, hsecond, rfl⟩ := Option.map_eq_some_iff.1 h
      obtain ⟨rfl, rfl⟩ := splitAtByte?_eq_some_iff.1 hfirst
      obtain ⟨rfl, hlength⟩ := splitAtByte?_eq_some_iff.1 hsecond
      refine ⟨before, behind, (List.append_assoc ..).symm, rfl, ?_⟩
      rw [byteLength_append, hlength, Nat.add_sub_cancel' hle]
    next => cases h
  · rintro ⟨before, behind, rfl, rfl, rfl⟩
    rw [slice?, byteLength_append, if_pos (Nat.le_add_right _ _), List.append_assoc,
      splitAtByte?_append, Option.bind_some, Nat.add_sub_cancel_left, splitAtByte?_append]
    rfl

theorem IsBoundary.of_slice? {text part : List Char} {start stop : Nat}
    (h : slice? text start stop = some part) :
    start ≤ stop ∧ IsBoundary text start ∧ IsBoundary text stop := by
  obtain ⟨before, behind, rfl, rfl, rfl⟩ := slice?_eq_some_iff.1 h
  exact ⟨by simp, ⟨before, part ++ behind, List.append_assoc .., rfl⟩,
    ⟨before ++ part, behind, rfl, rfl⟩⟩

end Text

/-! ## Colours -/

namespace Diagnostic

namespace Style

/-- A character that tells a colour or a weight. -/
def isCode (c : Char) : Bool := c.isDigit || c == ';'

/-- The form of an escape that sets or takes back a colour. -/
def IsEscape (text : String) : Prop :=
  ∃ codes, text.toList = escape :: '[' :: (codes ++ ['m']) ∧ codes.all isCode = true

/-- Nothing was done to a text but that an escape was put before it and one behind it. -/
def Paints (text painted : String) : Prop :=
  ∃ opening closing, IsEscape opening ∧ IsEscape closing ∧ painted = opening ++ text ++ closing

theorem isEscape_closing : IsEscape closing := ⟨['0'], rfl, rfl⟩

theorem all_isCode_toDigits (n : Nat) : (Nat.toDigits 10 n).all isCode = true := by
  refine List.all_eq_true.2 fun c hc => ?_
  rw [isCode, Nat.isDigit_of_mem_toDigits (by decide) (by decide) hc, Bool.true_or]

theorem isEscape_opening (s : Style) : IsEscape s.opening := by
  have hweight : (if s.bold then "1;" else "").toList.all isCode = true := by cases s.bold <;> rfl
  have hmode : "38;2;".toList.all isCode = true := rfl
  have hseparator : ";".toList.all isCode = true := rfl
  refine ⟨(if s.bold then "1;" else "").toList ++ "38;2;".toList ++
    Nat.toDigits 10 s.color.red ++ ";".toList ++ Nat.toDigits 10 s.color.green ++ ";".toList ++
    Nat.toDigits 10 s.color.blue, ?_, ?_⟩
  · simp [opening, ToString.toString, Nat.repr]
  · simp only [List.all_append, hweight, hmode, hseparator, all_isCode_toDigits, Bool.and_self]

theorem paints_paint (s : Style) (text : String) : Paints text (s.paint text) :=
  ⟨s.opening, closing, s.isEscape_opening, isEscape_closing, rfl⟩

end Style

/-! ## What is shown -/

/-- The characters of a program from 32 before a place to 32 behind it. -/
def around (code : List Char) (pos : Nat) : List Char :=
  code.extract (pos - 32) (min (pos + 33) code.length)

/-- The caret of a place. -/
def caretAt (pos : Nat) : String := String.ofList (List.replicate (min pos 32) ' ') ++ "^"

/-- Three lines, of which the second and the third are indented. -/
def layout (headline excerpt caret : String) : String :=
  headline ++ "\n" ++ ("  " ++ excerpt ++ "\n") ++ ("  " ++ caret ++ "\n")

/-- The three lines with nothing but a colour for each of the texts in them. -/
def PaintedLayout (headline excerpt caret painted : String) : Prop :=
  ∃ headline' excerpt' caret', Style.Paints headline headline' ∧ Style.Paints excerpt excerpt' ∧
    Style.Paints caret caret' ∧ painted = layout headline' excerpt' caret'

section

variable {code : List Char} {pos : Nat}

theorem around_eq_nil (h : code.length ≤ pos - 32) : around code pos = [] := by
  rw [around, List.extract_eq_take_drop, List.drop_eq_nil_of_le h, List.take_nil]

/-- The place is in the window, with as many characters before it as its caret has blanks. -/
theorem getElem?_around (h : pos < code.length) :
    (around code pos)[min pos 32]? = code[pos]? := by
  rw [around, List.extract_eq_take_drop, List.getElem?_take_of_lt (by omega), List.getElem?_drop,
    show pos - 32 + min pos 32 = pos by omega]

theorem add_reach_lt_size (h : pos ≤ UInt64.size - 34) : pos + reach + 1 < UInt64.size := by
  have hsize : 34 ≤ UInt64.size := by decide
  rw [reach]
  omega

theorem window?_eq_around (h : pos + reach + 1 < UInt64.size) :
    window? code pos = some (around code pos) := by
  rw [window?_eq_some h, around, List.extract_eq_take_drop, windowStart, reach]
  refine congrArg some (List.take_eq_take_iff.2 ?_)
  rw [List.length_drop]
  omega

/-- The window is the slice between two offsets. -/
theorem slice?_eq_around (h : pos + reach + 1 < UInt64.size) :
    ∃ stop, windowStop? pos code.length = some stop ∧
      Text.slice? code (Text.byteOffset code (windowStart pos)) (Text.byteOffset code stop) =
        some (around code pos) :=
  Option.bind_eq_some_iff.1 (window?_eq_around h)

theorem context?_eq_around (lead : String) (h : pos + reach + 1 < UInt64.size) :
    context? lead code pos = some ⟨lead ++ " at instruction " ++ toString pos,
      String.ofList (around code pos), min pos 32⟩ := by
  have hcolumn : pos - windowStart pos = min pos 32 := by
    rw [windowStart, reach]
    omega
  rw [context?, window?_eq_around h, Option.map_some, hcolumn]
  rfl

end

namespace Context

theorem caretLine_eq (headline excerpt : String) (pos : Nat) :
    caretLine ⟨headline, excerpt, min pos 32⟩ = caretAt pos := String.ofList_append

theorem render_plain (c : Context) :
    c.render false = layout c.headline c.excerpt c.caretLine := by
  simp only [render, layout, Bool.false_eq_true, if_false, String.append_assoc]
  rfl

theorem render_styled (c : Context) :
    PaintedLayout c.headline c.excerpt c.caretLine (c.render true) := by
  refine ⟨_, _, _, Style.headline.paints_paint _, Style.excerpt.paints_paint _,
    Style.caret.paints_paint _, ?_⟩
  simp only [render, layout, if_true, String.append_assoc]
  rfl

end Context

/-- What is shown about a place: the slice exists, its characters are those around the place, the
caret is as far in its line as the place is in the window, and colours leave the text as it is. -/
theorem context?_shown (lead : String) (code : List Char) {pos : Nat}
    (hpos : pos ≤ UInt64.size - 34) :
    ∃ stop shown,
      windowStop? pos code.length = some stop ∧
      Text.byteOffset code (windowStart pos) ≤ Text.byteOffset code stop ∧
      Text.IsBoundary code (Text.byteOffset code (windowStart pos)) ∧
      Text.IsBoundary code (Text.byteOffset code stop) ∧
      context? lead code pos = some shown ∧
      shown.render false = layout (lead ++ " at instruction " ++ toString pos)
        (String.ofList (around code pos)) (caretAt pos) ∧
      (code.length ≤ pos - 32 → around code pos = []) ∧
      (pos < code.length → (around code pos)[min pos 32]? = code[pos]?) ∧
      PaintedLayout (lead ++ " at instruction " ++ toString pos)
        (String.ofList (around code pos)) (caretAt pos) (shown.render true) := by
  have hword := add_reach_lt_size hpos
  obtain ⟨stop, hstop, hslice⟩ := @slice?_eq_around code pos hword
  obtain ⟨hle, hstart, hend⟩ := Text.IsBoundary.of_slice? hslice
  refine ⟨stop, _, hstop, hle, hstart, hend, context?_eq_around lead hword, ?_, around_eq_nil,
    getElem?_around, ?_⟩
  · rw [Context.render_plain, Context.caretLine_eq]
  · have hstyled := Context.render_styled
      ⟨lead ++ " at instruction " ++ toString pos, String.ofList (around code pos), min pos 32⟩
    rwa [Context.caretLine_eq] at hstyled

/-- Forty characters of two bytes each: the window goes from the third of them to the last. -/
theorem context?_shown_wide :
    34 ≤ UInt64.size - 34 ∧ ∃ shown, context? "bfi: oops" (List.replicate 40 'é') 34 = some shown ∧
      shown.render false = "bfi: oops at instruction 34\n" ++
        "  éééééééééééééééééééééééééééééééééééééé\n" ++
        "                                  ^\n" := by
  have hpos : 34 ≤ UInt64.size - 34 := by decide
  obtain ⟨_, shown, _, _, _, _, hshown, hplain, _⟩ :=
    context?_shown "bfi: oops" (List.replicate 40 'é') hpos
  exact ⟨hpos, shown, hshown, hplain.trans (by decide +kernel)⟩

end Diagnostic
end TapeMachine
