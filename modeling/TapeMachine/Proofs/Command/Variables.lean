import TapeMachine.Proofs.Command.Precedence
import TapeMachine.Proofs.Text.Trimmed
set_option autoImplicit false

/-!
# Command: variables and lines

A setting can be told by a variable and by a line of the settings file, and the two are read in
different ways.  The number in a variable is trimmed before it is read and the policy while it is
read.  In the file the line is trimmed, then cut at its first equals sign, and then both sides are
trimmed.  All of this comes to the same text, the trimmed one (`readVariable?_eq`,
`assignment?_line`).  Only a pair of double quotes makes a difference, since the file takes it away.

Main statement: a variable does what its line at the end of the settings file does
(`overlaid_alone_eq_ofFile`).
-/

namespace TapeMachine

/-- A text is cut at each separator, whatever stands in front of it. -/
theorem Text.pieces_append_cons (sep : Char) (a b : List Char) :
    pieces sep (a ++ sep :: b) = pieces sep a ++ pieces sep b := by
  induction a with
  | nil => simp [pieces]
  | cons c a ih =>
    by_cases hc : c = sep
    · rw [List.cons_append, pieces, if_pos hc, ih, pieces, if_pos hc, List.cons_append]
    · obtain ⟨piece, others, hpieces⟩ := List.exists_cons_of_ne_nil (pieces_ne_nil sep a)
      rw [hpieces] at ih
      simp only [List.cons_append, pieces, if_neg hc, ih, hpieces]

/-- A text without a separator is one piece. -/
theorem Text.pieces_eq_singleton {sep : Char} {text : List Char} (h : sep ∉ text) :
    pieces sep text = [text] := by
  induction text with
  | nil => rfl
  | cons c text ih =>
    obtain ⟨hc, htext⟩ := not_or.1 (mt List.mem_cons.2 h)
    rw [pieces, if_neg (Ne.symm hc), ih htext]

theorem Text.trim_trim (text : List Char) : trim (trim text) = trim text :=
  (trim_trimEnd (trimStart text)).trans (trim_trimStart text)

namespace Settings

/-- The settings with those replaced that the variables of an environment set. -/
def overlaid (s : Settings) (getVariable : String → Option String) : Settings :=
  s.applyVariables (getVariable eofVariable) (getVariable maxStepsVariable)
    (getVariable timeoutVariable)

namespace Key

/-- The environment in which only the variable of this setting is set. -/
def alone (k : Key) (text name : String) : Option String :=
  if name = k.variableName then some text else none

/-- The line that assigns a text to this setting. -/
def line (k : Key) (text : List Char) : List Char := k.name.toList ++ [' '] ++ '=' :: ' ' :: text

/-- The header of the section of the settings, and the line that assigns a text to this one. -/
def lines (k : Key) (text : List Char) : List Char := sectionHeader ++ '\n' :: k.line text

/-! ## Variables -/

/-- The text of a variable is read as the text in a line is, blanks around it apart. -/
theorem readVariable?_eq (k : Key) (text : String) :
    k.readVariable? text = k.read? (Text.trim text.toList) := by
  cases k with
  | eof => simp only [readVariable?, read?, EofPolicy.parse, EofPolicy.wordOf, Text.trim_trim]
  | maxSteps => simp only [readVariable?, read?, variableWord?]
  | timeoutMs => simp only [readVariable?, read?, variableWord?]

end Key

theorem value?_overlaid (s : Settings) (getVariable : String → Option String) (k : Key) :
    (s.overlaid getVariable).value? k =
      ((getVariable k.variableName).bind k.readVariable?).or (s.value? k) := by
  cases k with
  | eof => exact Option.or_some.symm
  | maxSteps => rfl
  | timeoutMs => rfl

theorem value?_default (k : Key) : default.value? k = k.initial? := by
  cases k <;> rfl

/-- A variable that is set alone changes its own setting only. -/
theorem value?_overlaid_alone (s : Settings) (k k' : Key) (text : String) :
    (s.overlaid (k.alone text)).value? k' =
      if k' = k then (k'.read? (Text.trim text.toList)).or (s.value? k') else s.value? k' := by
  rw [value?_overlaid, Key.alone]
  simp only [Key.variableName_injective.eq_iff]
  split
  · rw [Option.bind_some, Key.readVariable?_eq]
  · rfl

/-! ## Lines -/

section

variable {text : List Char}

/-- The name of a setting starts like neither a comment nor a header, and a blank behind it goes. -/
theorem Key.name_cases (k : Key) : ∃ c rest, k.name.toList = c :: rest ∧
    Text.isBlank c = false ∧ c ≠ '#' ∧ c ≠ '[' ∧ '=' ∉ k.name.toList ∧
    Text.trim (k.name.toList ++ [' ']) = k.name.toList := by
  cases k with
  | eof => exact ⟨'e', ['o', 'f'], rfl, by decide, by decide, by decide, by decide, by decide⟩
  | maxSteps =>
    exact ⟨'m', "ax_steps".toList, rfl, by decide, by decide, by decide, by decide, by decide⟩
  | timeoutMs =>
    exact ⟨'t', "imeout_ms".toList, rfl, by decide, by decide, by decide, by decide, by decide⟩

/-- The line of a setting assigns its trimmed text. -/
theorem assignment?_line (k : Key) (hbare : ∀ inner, Text.trim text ≠ '"' :: inner ++ ['"']) :
    Counts (Text.trim (k.line text)) ∧ ¬IsHeader (Text.trim (k.line text)) ∧
      assignment? (Text.trim (k.line text)) = some (k.name.toList, Text.trim text) := by
  obtain ⟨c, rest, hname, hblank, hcomment, hbracket, hequals, htrim⟩ := k.name_cases
  have hline : Text.trim (k.line text) =
      (k.name.toList ++ [' ']) ++ '=' :: Text.trimEnd (' ' :: text) := by
    rw [Key.line, Text.trim_append_cons (by decide), hname, List.cons_append,
      Text.trimStart_eq_self fun d hd => by cases hd; exact hblank]
  have hvalue : Text.trim (Text.trimEnd (' ' :: text)) = Text.trim text := by
    rw [Text.trim_trimEnd]
    simpa using Text.trim_pad (w := [' ']) (by decide) Text.blank_nil text
  have hfirst : (Text.trim (k.line text)).head? = some c := by
    rw [hline, hname]
    rfl
  have hheader : ¬IsHeader (Text.trim (k.line text)) := fun h =>
    hbracket (Option.some.inj (hfirst.symm.trans h.1))
  refine ⟨⟨fun h => ?_, fun h => ?_⟩, hheader, ?_⟩
  · rw [h] at hfirst
    cases hfirst
  · exact hcomment (Option.some.inj (hfirst.symm.trans h))
  · have hnotMem : '=' ∉ k.name.toList ++ [' '] := by simp [hequals]
    rw [assignment?, if_neg hheader, hline, Text.cutAt?_append hnotMem, Option.map_some, htrim,
      hvalue, unquoted_bare hbare]

namespace Reading

/-- Behind the lines of a setting its key has their text, and every other key has what it had. -/
theorem value?_foldl_lines (r : Reading) (k k' : Key) (hline : '\n' ∉ text)
    (hbare : ∀ inner, Text.trim text ≠ '"' :: inner ++ ['"']) :
    ((Text.pieces '\n' (k.lines text)).foldl takeLine r).value? k'.name =
      if k' = k then some (Text.trim text) else r.value? k'.name := by
  have hpieces : Text.pieces '\n' (k.lines text) = [sectionHeader, k.line text] := by
    have hkey : '\n' ∉ k.line text := by
      have hname : '\n' ∉ k.name.toList := by cases k <;> decide
      simp [Key.line, hname, hline]
    rw [Key.lines, Text.pieces_append (by decide), Text.pieces_eq_singleton hkey]
  have hheader : Text.trim sectionHeader = sectionHeader := by decide
  obtain ⟨hcounts, hnot, hassignment⟩ := assignment?_line k hbare
  rw [hpieces, List.foldl_cons, List.foldl_cons, List.foldl_nil,
    takeLine_header r (hheader.symm ▸ isHeader_sectionHeader), hheader, takeLine,
    takeTrimmed_eq _ hcounts, if_neg hnot, if_pos (decide_eq_true rfl), hassignment]
  simp only [value?, Option.toList_some, List.singleton_append, List.lookup_cons]
  by_cases hk : k' = k
  · rw [hk, beq_self_eq_true, if_pos rfl]
  · have hname : k'.name.toList ≠ k.name.toList := fun h =>
      hk (Key.name_injective (String.toList_inj.1 h))
    rw [beq_eq_false_iff_ne.2 hname, if_neg hk]

end Reading

theorem value?_ofFile_lines (k k' : Key) (hline : '\n' ∉ text)
    (hbare : ∀ inner, Text.trim text ≠ '"' :: inner ++ ['"']) :
    (ofFile (k.lines text)).value? k' =
      if k' = k then (k'.read? (Text.trim text)).or k'.initial? else k'.initial? := by
  rw [value?_ofFile, Reading.ofText, Reading.start.value?_foldl_lines k k' hline hbare]
  split <;> rfl

theorem value?_ofFile_append_lines (c : List Char) (k k' : Key) (hline : '\n' ∉ text)
    (hbare : ∀ inner, Text.trim text ≠ '"' :: inner ++ ['"']) :
    (ofFile (c ++ '\n' :: k.lines text)).value? k' =
      if k' = k then (k'.read? (Text.trim text)).or k'.initial? else (ofFile c).value? k' := by
  rw [value?_ofFile, value?_ofFile, Reading.ofText, Text.pieces_append_cons, List.foldl_append,
    Reading.value?_foldl_lines _ k k' hline hbare]
  split <;> rfl

/-- A variable does what the line with its text does at the end of the settings file.

* On the initial settings it does so whether or not its text stands for a value.
* On the settings of a file it does so if its text stands for a value.  A text that stands for none
  leaves them as they are, while its line would take back what the file says. -/
theorem overlaid_alone_eq_ofFile (k : Key) {text : String} (hline : '\n' ∉ text.toList)
    (hbare : ∀ inner, Text.trim text.toList ≠ '"' :: inner ++ ['"']) :
    default.overlaid (k.alone text) = ofFile (k.lines text.toList) ∧
    ∀ c : List Char, (k.readVariable? text).isSome →
      (ofFile c).overlaid (k.alone text) = ofFile (c ++ '\n' :: k.lines text.toList) := by
  refine ⟨ext_value? fun k' => ?_, fun c hread => ext_value? fun k' => ?_⟩
  · rw [value?_overlaid_alone, value?_ofFile_lines k k' hline hbare, value?_default]
  · obtain ⟨v, hv⟩ := Option.isSome_iff_exists.1 hread
    rw [Key.readVariable?_eq] at hv
    rw [value?_overlaid_alone, value?_ofFile_append_lines c k k' hline hbare]
    by_cases hk : k' = k
    · subst hk
      rw [if_pos rfl, if_pos rfl, hv, Option.some_or, Option.some_or]
    · rw [if_neg hk, if_neg hk]

/-- A step limit with a sign and wide blanks, by its variable and by its line: both replace the
limit of the file, and the policy stays. -/
theorem overlaid_alone_eq_ofFile_signed :
    default.overlaid (Key.maxSteps.alone "\t+007\u2003") =
      ofFile "[interpreter]\nmax_steps = \t+007\u2003".toList ∧
    (ofFile "[interpreter]\neof = zero\nmax_steps = 5\n[colors]".toList).overlaid
        (Key.maxSteps.alone "\t+007\u2003") =
      ofFile ("[interpreter]\neof = zero\nmax_steps = 5\n[colors]\n" ++
        "[interpreter]\nmax_steps = \t+007\u2003").toList ∧
    (ofFile "[interpreter]\neof = zero\nmax_steps = 5\n[colors]".toList).overlaid
        (Key.maxSteps.alone "\t+007\u2003") = ⟨.zero, some 7, none⟩ := by
  have hbare (inner : List Char) : Text.trim "\t+007\u2003".toList ≠ '"' :: inner ++ ['"'] := by
    intro h
    have hfirst : some '+' = some '"' := congrArg List.head? h
    exact absurd hfirst (by decide)
  obtain ⟨hinitial, hfile⟩ := overlaid_alone_eq_ofFile .maxSteps (by decide) hbare
  exact ⟨hinitial, hfile _ (by decide), by decide +kernel⟩

end

end Settings

end TapeMachine
