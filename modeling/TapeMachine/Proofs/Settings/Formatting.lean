import Mathlib.Logic.Relation
import TapeMachine.Proofs.Settings.Declared
import TapeMachine.Proofs.Text.Trimmed
set_option autoImplicit false

/-!
# Settings: the layout of a file

How a settings file is laid out does not matter: whether its lines end in a carriage return, how far
they are indented, how an equals sign is spaced and where empty lines and comments stand.  `Edit` is
one change of the layout.

A line with an equals sign is read by four things, the first character in front of the sign, the last
one behind it and the trimmed texts on both sides (`takeTrimmed_congr`), and blanks around the sign
change none of them.

Main statement: files that edits lead from one to the other have the same settings
(`ofFile_eq_of_edits`).
-/

namespace TapeMachine.Settings

open Text (Blank)

/-- The second line is the first one with blanks put in, at its ends or around its first equals
sign. -/
inductive Padded : List Char → List Char → Prop
  | ends {w w' : List Char} (line : List Char) (hw : Blank w) (hw' : Blank w') :
    Padded line (w ++ line ++ w')
  | equals {before w w' : List Char} (after : List Char) (hbefore : '=' ∉ before) (hw : Blank w)
    (hw' : Blank w') : Padded (before ++ '=' :: after) (before ++ w ++ '=' :: (w' ++ after))

/-- A line that says nothing. -/
inductive Idle : List Char → Prop
  | blank {line : List Char} (h : Blank line) : Idle line
  | comment {w : List Char} (h : Blank w) (rest : List Char) : Idle (w ++ '#' :: rest)

/-- One change of the layout of a file. -/
inductive Edit : List Char → List Char → Prop
  /-- A line ends in a carriage return. -/
  | lineEnd (front behind : List Char) :
    Edit (front ++ '\n' :: behind) (front ++ '\r' :: '\n' :: behind)
  /-- Blanks are put into a line. -/
  | pad {text text' line line' : List Char} {front behind : List (List Char)}
    (htext : Text.pieces '\n' text = front ++ line :: behind)
    (htext' : Text.pieces '\n' text' = front ++ line' :: behind) (hline : Padded line line') :
    Edit text text'
  /-- A line that says nothing is put between the others. -/
  | insert {text text' line : List Char} {front behind : List (List Char)}
    (htext : Text.pieces '\n' text = front ++ behind)
    (htext' : Text.pieces '\n' text' = front ++ line :: behind) (hline : Idle line) :
    Edit text text'

/-! ## One line -/

section

variable {before before' after after' : List Char}

theorem ne_sectionHeader (before after : List Char) : before ++ '=' :: after ≠ sectionHeader := by
  intro h
  have hmem : '=' ∈ sectionHeader := h ▸ by simp
  exact absurd hmem (by decide)

theorem counts_congr (hfirst : before'.head? = before.head?) :
    Counts (before' ++ '=' :: after') ↔ Counts (before ++ '=' :: after) := by
  simp only [Counts, List.head?_append, hfirst, List.head?_cons, ne_eq, List.append_eq_nil_iff,
    reduceCtorEq, and_false, not_false_eq_true, true_and]

theorem isHeader_congr (hfirst : before'.head? = before.head?)
    (hlast : after'.getLast? = after.getLast?) :
    IsHeader (before' ++ '=' :: after') ↔ IsHeader (before ++ '=' :: after) := by
  simp only [IsHeader, List.head?_append, hfirst, List.head?_cons, List.getLast?_append_cons,
    List.getLast?_cons, hlast]

/-- What a line with an equals sign is read by. -/
theorem Reading.takeTrimmed_congr (r : Reading) (hbefore : '=' ∉ before) (hbefore' : '=' ∉ before')
    (hfirst : before'.head? = before.head?) (hlast : after'.getLast? = after.getLast?)
    (hkey : Text.trim before' = Text.trim before) (hvalue : Text.trim after' = Text.trim after) :
    r.takeTrimmed (before' ++ '=' :: after') = r.takeTrimmed (before ++ '=' :: after) := by
  have hheader := isHeader_congr hfirst hlast
  have hassignment : assignment? (before' ++ '=' :: after') = assignment? (before ++ '=' :: after) := by
    simp only [assignment?, hheader, Text.cutAt?_append hbefore, Text.cutAt?_append hbefore',
      Option.map_some, hkey, hvalue]
  by_cases hcounts : Counts (before ++ '=' :: after)
  · rw [r.takeTrimmed_eq hcounts, r.takeTrimmed_eq ((counts_congr hfirst).2 hcounts), hassignment]
    simp only [hheader, decide_eq_false (ne_sectionHeader _ _)]
  · rw [r.takeTrimmed_of_not_counts hcounts,
      r.takeTrimmed_of_not_counts (mt (counts_congr hfirst).1 hcounts)]

end

namespace Reading

theorem takeLine_padded {line line' : List Char} (h : Padded line line') (r : Reading) :
    r.takeLine line' = r.takeLine line := by
  cases h with
  | ends _ hw hw' => rw [takeLine, takeLine, Text.trim_pad hw hw']
  | @equals before w w' after hbefore hw hw' =>
    have hequals : Text.isBlank '=' = false := by decide
    have hspaced : '=' ∉ before ++ w := by
      rw [List.mem_append, not_or]
      exact ⟨hbefore, fun hmem => by simp [hw _ hmem] at hequals⟩
    have htrimmed : ∀ {text : List Char}, '=' ∉ text → '=' ∉ Text.trimStart text :=
      fun h hmem => h (List.dropWhile_subset _ hmem)
    have hkey : Text.trim (before ++ w) = Text.trim before := Text.trim_pad Text.blank_nil hw before
    have hvalue : Text.trim (w' ++ after) = Text.trim after := by
      simpa using Text.trim_pad hw' Text.blank_nil after
    rw [takeLine, takeLine, Text.trim_append_cons hequals, Text.trim_append_cons hequals]
    refine r.takeTrimmed_congr (htrimmed hbefore) (htrimmed hspaced)
      (hw.head?_trimStart_append before) (hw'.getLast?_trimEnd_append after) ?_ ?_
    · rw [Text.trim_trimStart, Text.trim_trimStart, hkey]
    · rw [Text.trim_trimEnd, Text.trim_trimEnd, hvalue]

theorem takeLine_idle {line : List Char} (h : Idle line) (r : Reading) : r.takeLine line = r := by
  refine takeTrimmed_of_not_counts r fun hcounts => ?_
  cases h with
  | blank h => exact hcounts.1 (Text.trim_eq_nil_of_all h)
  | comment h rest =>
    refine hcounts.2 ?_
    rw [Text.trim_append_cons (by decide), h.trimStart_eq_nil]
    rfl

end Reading

/-! ## Whole files -/

/-- Where a text ends in a line, more can be put behind this line. -/
theorem exists_pieces_append (sep : Char) (front : List Char) :
    ∃ others line, ∀ w behind, sep ∉ w →
      Text.pieces sep (front ++ (w ++ sep :: behind)) =
        others ++ (line ++ w) :: Text.pieces sep behind := by
  induction front with
  | nil => exact ⟨[], [], fun w behind hw => Text.pieces_append hw behind⟩
  | cons c front ih =>
    obtain ⟨others, line, hpieces⟩ := ih
    by_cases hc : c = sep
    · refine ⟨[] :: others, line, fun w behind hw => ?_⟩
      rw [List.cons_append, Text.pieces, if_pos hc, hpieces w behind hw, List.cons_append]
    · cases others with
      | nil =>
        refine ⟨[], c :: line, fun w behind hw => ?_⟩
        rw [List.cons_append, Text.pieces, if_neg hc, hpieces w behind hw]
        rfl
      | cons first others =>
        refine ⟨(c :: first) :: others, line, fun w behind hw => ?_⟩
        rw [List.cons_append, Text.pieces, if_neg hc, hpieces w behind hw]
        rfl

/-- A carriage return at the end of a line is a blank that is put into it. -/
theorem exists_padded_lineEnd (front behind : List Char) :
    ∃ others line line', Text.pieces '\n' (front ++ '\n' :: behind) =
        others ++ line :: Text.pieces '\n' behind ∧
      Text.pieces '\n' (front ++ '\r' :: '\n' :: behind) =
        others ++ line' :: Text.pieces '\n' behind ∧
      Padded line line' := by
  obtain ⟨others, line, hpieces⟩ := exists_pieces_append '\n' front
  refine ⟨others, line, line ++ ['\r'], ?_, hpieces ['\r'] behind (by decide),
    .ends line Text.blank_nil (by decide)⟩
  simpa using hpieces [] behind List.not_mem_nil

theorem Reading.ofText_padded {text text' line line' : List Char} {front behind : List (List Char)}
    (htext : Text.pieces '\n' text = front ++ line :: behind)
    (htext' : Text.pieces '\n' text' = front ++ line' :: behind) (hline : Padded line line') :
    ofText text' = ofText text := by
  rw [ofText, ofText, htext, htext', List.foldl_append, List.foldl_append, List.foldl_cons,
    List.foldl_cons, takeLine_padded hline]

theorem Reading.ofText_edit {text text' : List Char} (h : Edit text text') :
    ofText text' = ofText text := by
  cases h with
  | pad htext htext' hline => exact ofText_padded htext htext' hline
  | lineEnd front behind =>
    obtain ⟨others, line, line', htext, htext', hline⟩ := exists_padded_lineEnd front behind
    exact ofText_padded htext htext' hline
  | insert htext htext' hline =>
    rw [ofText, ofText, htext, htext', List.foldl_append, List.foldl_append, List.foldl_cons,
      takeLine_idle hline]

/-- The layout of a file does not matter: whatever edits lead from one text to the other, forwards and
backwards and in any number, both make the same settings. -/
theorem ofFile_eq_of_edits {text text' : List Char} (h : Relation.EqvGen Edit text text') :
    ofFile text' = ofFile text := by
  induction h with
  | rel text text' hedit => rw [ofFile, ofFile, Reading.ofText_edit hedit]
  | refl text => rfl
  | symm text text' _ ih => exact ih.symm
  | trans text text' text'' _ _ ih ih' => exact ih'.trans ih

/-- A carriage return is taken out, a comment is put into the section, and wide blanks are put around
the equals sign. -/
theorem ofFile_eq_of_edits_spaced :
    ofFile "[interpreter]\n \t# policy = error\neof\u00a0=\u2003zero".toList =
      ofFile "[interpreter]\r\neof=zero".toList := by
  have hreturn : Edit "[interpreter]\neof=zero".toList "[interpreter]\r\neof=zero".toList :=
    .lineEnd "[interpreter]".toList "eof=zero".toList
  have hlines : Text.pieces '\n' "[interpreter]\neof=zero".toList =
      ["[interpreter]".toList] ++ ["eof=zero".toList] := by decide
  have hcommented : Text.pieces '\n' "[interpreter]\n \t# policy = error\neof=zero".toList =
      ["[interpreter]".toList] ++ (" \t".toList ++ '#' :: " policy = error".toList) ::
        ["eof=zero".toList] := by decide
  have hunpadded : Text.pieces '\n' "[interpreter]\n \t# policy = error\neof=zero".toList =
      ["[interpreter]".toList, " \t# policy = error".toList] ++
        ("eof".toList ++ '=' :: "zero".toList) :: [] := by decide
  have hpadded : Text.pieces '\n'
        "[interpreter]\n \t# policy = error\neof\u00a0=\u2003zero".toList =
      ["[interpreter]".toList, " \t# policy = error".toList] ++
        ("eof".toList ++ ['\u00a0'] ++ '=' :: (['\u2003'] ++ "zero".toList)) :: [] := by decide
  have hcomment := Edit.insert hlines hcommented (.comment (by decide) _)
  have hblanks := Edit.pad hunpadded hpadded (.equals _ (by decide) (by decide) (by decide))
  exact ofFile_eq_of_edits (((Relation.EqvGen.rel _ _ hreturn).symm).trans _ _ _
    ((Relation.EqvGen.rel _ _ hcomment).trans _ _ _ (.rel _ _ hblanks)))

end TapeMachine.Settings
