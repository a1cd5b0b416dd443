import Mathlib.Data.List.Induction
import TapeMachine.Proofs.Text.Printed
import TapeMachine.Settings.File
set_option autoImplicit false

/-!
# Settings: what a settings file declares

A settings file is read from its first line to its last, with a state.  What it says can be told
without a state, line by line: a line belongs to the section of the nearest header in front of it
(`InSection`), an assignment is told by its own text (`Assignment`), and what holds in the end is the
last assignment (`LastAssigned`).

One line more changes the state as it changes these (`takeTrimmed_eq`, `inSection_concat`,
`lastAssigned_concat`), so the reading of a file ends with exactly the last assignments
(`value?_ofText_eq_some_iff`).

The settings are three things of different types.  `Key` is one of them, with its spelling and with
the way that its values are read, and `Settings.value?` is the view in which all three have the same
rule.
-/

namespace TapeMachine.Settings

/-! ## One of the settings -/

/-- One of the things that can be set. -/
inductive Key
  | eof
  | maxSteps
  | timeoutMs
  deriving DecidableEq, Repr, Inhabited

namespace Key

/-- What it can be set to. -/
abbrev Value : Key → Type
  | eof => EofPolicy
  | maxSteps => UInt64
  | timeoutMs => UInt64

/-- What it is called in a settings file. -/
def name : Key → String
  | eof => "eof"
  | maxSteps => "max_steps"
  | timeoutMs => "timeout_ms"

/-- The value that a text in a settings file stands for. -/
def read? : (k : Key) → List Char → Option k.Value
  | eof, text => (EofPolicy.parse text).toOption
  | maxSteps, text => Text.Decimal.readWord? text
  | timeoutMs, text => Text.Decimal.readWord? text

/-- The value that holds when nothing is set.  There is no limit then. -/
def initial? : (k : Key) → Option k.Value
  | eof => some .error
  | maxSteps => none
  | timeoutMs => none

end Key

/-- What is set; nothing for a limit that is not set. -/
def value? (s : Settings) : (k : Key) → Option k.Value
  | .eof => some s.eof
  | .maxSteps => s.maxSteps
  | .timeoutMs => s.timeoutMs

theorem ext_value? {s s' : Settings} (h : ∀ k, s.value? k = s'.value? k) : s = s' := by
  cases s
  cases s'
  rw [mk.injEq]
  exact ⟨Option.some.inj (h .eof), h .maxSteps, h .timeoutMs⟩

/-- A setting of a reading is the value of its key, if that can be read. -/
theorem Reading.value?_settings (r : Reading) (k : Key) :
    r.settings.value? k = ((r.value? k.name).bind k.read?).or k.initial? := by
  cases k with
  | eof => exact Option.or_some.symm
  | maxSteps => rfl
  | timeoutMs => rfl

/-! ## The lines and what they say -/

/-- A line in square brackets. -/
def IsHeader (line : List Char) : Prop := line.head? = some '[' ∧ line.getLast? = some ']'

instance (line : List Char) : Decidable (IsHeader line) :=
  inferInstanceAs (Decidable (_ ∧ _))

/-- The line, without the blanks around it, is neither blank nor a comment. -/
def Counts (line : List Char) : Prop := line ≠ [] ∧ line.head? ≠ some '#'

instance (line : List Char) : Decidable (Counts line) :=
  inferInstanceAs (Decidable (_ ∧ _))

/-- The lines that count, without the blanks around them. -/
def counting (raw : List (List Char)) : List (List Char) := (raw.map Text.trim).filter Counts

/-- The lines of a settings file that count. -/
def lines (text : List Char) : List (List Char) := counting (Text.pieces '\n' text)

/-- The header of the section that is looked at. -/
def sectionHeader : List Char := "[interpreter]".toList

/-- The nearest header in these lines is the one of the section that is looked at. -/
def InSection (front : List (List Char)) : Prop :=
  ∃ before between, front = before ++ sectionHeader :: between ∧ ∀ line ∈ between, ¬IsHeader line

/-- The value that a text stands for, which may stand in one pair of double quotes. -/
inductive Unquotes : List Char → List Char → Prop
  | quoted (value : List Char) : Unquotes ('"' :: value ++ ['"']) value
  | bare {value : List Char} (h : ∀ inner, value ≠ '"' :: inner ++ ['"']) : Unquotes value value

/-- The line assigns the value to the key. -/
structure Assignment (line key value : List Char) : Prop where
  not_isHeader : ¬IsHeader line
  exists_cut : ∃ before after, line = before ++ '=' :: after ∧ '=' ∉ before ∧
    key = Text.trim before ∧ Unquotes (Text.trim after) value

/-- Line number `i` assigns the value to the key, in the section that is looked at. -/
def AssignsAt (ls : List (List Char)) (i : Nat) (key value : List Char) : Prop :=
  ∃ line, ls[i]? = some line ∧ InSection (ls.take i) ∧ Assignment line key value

/-- The last line that assigns anything to the key assigns this value. -/
def LastAssigned (ls : List (List Char)) (key value : List Char) : Prop :=
  ∃ i, AssignsAt ls i key value ∧ ∀ j value', i < j → ¬AssignsAt ls j key value'

/-! ## One line -/

/-- A text of two characters or more is its first one, its last one and what stands between. -/
theorem exists_eq_between {text : List Char} {c d : Char} (hfirst : text.head? = some c)
    (hlast : text.getLast? = some d) (hne : text ≠ [c]) : ∃ inner, text = c :: inner ++ [d] := by
  cases text with
  | nil => cases hfirst
  | cons first rest =>
    cases hfirst
    cases rest using List.reverseRecOn with
    | nil => exact absurd rfl hne
    | append_singleton inner last =>
      rw [← List.cons_append, List.getLast?_concat] at hlast
      cases hlast
      exact ⟨inner, rfl⟩

theorem exists_of_isHeader {line : List Char} (h : IsHeader line) :
    ∃ name, line = '[' :: name ++ [']'] :=
  exists_eq_between h.1 h.2 fun hne => absurd (hne ▸ h.2) (by decide)

@[simp]
theorem unquoted_quoted (inner : List Char) : unquoted ('"' :: inner ++ ['"']) = inner := by
  rw [unquoted, if_pos ⟨by simp, rfl, List.getLast?_concat⟩, List.cons_append, List.drop_one,
    List.tail_cons, List.dropLast_concat]

theorem unquoted_bare {value : List Char} (h : ∀ inner, value ≠ '"' :: inner ++ ['"']) :
    unquoted value = value := by
  rw [unquoted, if_neg]
  rintro ⟨hlength, hfirst, hlast⟩
  obtain ⟨inner, hinner⟩ := exists_eq_between hfirst hlast fun hne => by simp [hne] at hlength
  exact h inner hinner

theorem unquotes_iff {raw value : List Char} : Unquotes raw value ↔ value = unquoted raw := by
  constructor
  · intro h
    cases h with
    | quoted value => exact (unquoted_quoted value).symm
    | bare h => exact (unquoted_bare h).symm
  · rintro rfl
    by_cases hquoted : ∃ inner, raw = '"' :: inner ++ ['"']
    · obtain ⟨inner, rfl⟩ := hquoted
      rw [unquoted_quoted]
      exact .quoted inner
    · have hbare : ∀ inner, raw ≠ '"' :: inner ++ ['"'] := fun inner h => hquoted ⟨inner, h⟩
      rw [unquoted_bare hbare]
      exact .bare hbare

/-- What the line assigns, if it is an assignment. -/
def assignment? (line : List Char) : Option (List Char × List Char) :=
  if IsHeader line then none
  else (Text.cutAt? '=' line).map fun cut => (Text.trim cut.1, unquoted (Text.trim cut.2))

theorem assignment?_eq_some_iff {line key value : List Char} :
    assignment? line = some (key, value) ↔ Assignment line key value := by
  constructor
  · intro h
    unfold assignment? at h
    split at h
    · cases h
    · next hheader =>
      obtain ⟨⟨before, after⟩, hcut, heq⟩ := Option.map_eq_some_iff.1 h
      cases heq
      exact ⟨hheader, before, after, Text.eq_of_cutAt? hcut, Text.notMem_of_cutAt? hcut, rfl,
        unquotes_iff.2 rfl⟩
  · rintro ⟨hheader, before, after, rfl, hbefore, rfl, hvalue⟩
    rw [assignment?, if_neg hheader, Text.cutAt?_append hbefore, Option.map_some,
      unquotes_iff.1 hvalue]

theorem Reading.takeTrimmed_of_not_counts (r : Reading) {line : List Char} (h : ¬Counts line) :
    r.takeTrimmed line = r :=
  if_pos (Decidable.or_iff_not_not_and_not.2 h)

/-- What one line does to a reading. -/
theorem Reading.takeTrimmed_eq (r : Reading) {line : List Char} (h : Counts line) :
    r.takeTrimmed line =
      if IsHeader line then { r with inSection := decide (line = sectionHeader) }
      else if r.inSection then { r with assigned := (assignment? line).toList ++ r.assigned }
      else r := by
  rw [takeTrimmed, if_neg (not_or.2 h)]
  by_cases hheader : IsHeader line
  · have hends : line.head? = some '[' ∧ line.getLast? = some ']' := hheader
    rw [if_pos hends, if_pos hheader]
    obtain ⟨name, rfl⟩ := exists_of_isHeader hheader
    have hname : name = sectionName ↔ '[' :: name ++ [']'] = sectionHeader := by
      rw [List.cons_append, show sectionHeader = '[' :: (sectionName ++ [']']) from rfl,
        List.cons.injEq, List.append_cancel_right_eq, and_iff_right rfl]
    rw [List.cons_append, List.drop_one, List.tail_cons, List.dropLast_concat, ← List.cons_append]
    simp only [hname]
  · have hends : ¬(line.head? = some '[' ∧ line.getLast? = some ']') := hheader
    rw [if_neg hends, if_neg hheader, assignment?, if_neg hheader]
    cases Text.cutAt? '=' line <;> rfl

/-! ## One line more -/

section

variable {ls front : List (List Char)} {line key value : List Char}

theorem not_inSection_nil : ¬InSection [] := by
  rintro ⟨before, between, h, -⟩
  exact List.append_ne_nil_of_right_ne_nil before (List.cons_ne_nil _ _) h.symm

theorem inSection_concat :
    InSection (front ++ [line]) ↔ line = sectionHeader ∨ ¬IsHeader line ∧ InSection front := by
  constructor
  · rintro ⟨before, between, heq, hbetween⟩
    cases between using List.reverseRecOn with
    | nil => exact .inl (List.cons.inj (List.append_inj' heq rfl).2).1
    | append_singleton between last =>
      rw [← List.cons_append, ← List.append_assoc] at heq
      obtain ⟨hfront, hlast⟩ := List.append_inj' heq rfl
      cases hlast
      exact .inr ⟨hbetween line (by simp), before, between, hfront,
        fun l hl => hbetween l (List.mem_append_left _ hl)⟩
  · rintro (rfl | ⟨hline, before, between, rfl, hbetween⟩)
    · exact ⟨front, [], rfl, nofun⟩
    · refine ⟨before, between ++ [line], by simp, fun l hl => ?_⟩
      rcases List.mem_append.1 hl with hl | hl
      · exact hbetween l hl
      · exact List.mem_singleton.1 hl ▸ hline

theorem isHeader_sectionHeader : IsHeader sectionHeader := by decide

theorem AssignsAt.lt_length {i : Nat} (h : AssignsAt ls i key value) : i < ls.length := by
  obtain ⟨line, hline, -⟩ := h
  exact (List.getElem?_eq_some_iff.1 hline).1

theorem assignsAt_concat {i : Nat} :
    AssignsAt (ls ++ [line]) i key value ↔
      AssignsAt ls i key value ∨ i = ls.length ∧ InSection ls ∧ Assignment line key value := by
  rcases Nat.lt_trichotomy i ls.length with hi | rfl | hi
  · unfold AssignsAt
    rw [List.getElem?_append_left hi, List.take_append_of_le_length (Nat.le_of_lt hi)]
    exact ⟨.inl, fun h => h.resolve_right fun hlast => Nat.ne_of_lt hi hlast.1⟩
  · unfold AssignsAt
    rw [List.getElem?_concat_length, List.take_left, List.getElem?_eq_none (Nat.le_refl _)]
    constructor
    · rintro ⟨_, hline, hassigns⟩
      cases hline
      exact .inr ⟨rfl, hassigns⟩
    · rintro (⟨_, hline, -⟩ | ⟨-, hassigns⟩)
      · cases hline
      · exact ⟨line, rfl, hassigns⟩
  · have hbehind : (ls ++ [line]).length ≤ i := by simpa using Nat.succ_le_of_lt hi
    refine iff_of_false (fun h => Nat.not_le_of_lt h.lt_length hbehind) ?_
    rintro (h | ⟨heq, -⟩)
    · exact Nat.lt_asymm hi h.lt_length
    · exact Nat.ne_of_gt hi heq

/-- What holds after one line more: what the line assigns, and what held before if it assigns
nothing. -/
theorem lastAssigned_concat :
    LastAssigned (ls ++ [line]) key value ↔
      InSection ls ∧ Assignment line key value ∨
      (InSection ls → ∀ value', ¬Assignment line key value') ∧ LastAssigned ls key value := by
  constructor
  · rintro ⟨i, hi, hlast⟩
    rcases assignsAt_concat.1 hi with hi | ⟨rfl, hassigns⟩
    · refine .inr ⟨fun hsection value' hline => ?_, i, hi, fun j value' hj hassigns => ?_⟩
      · exact hlast ls.length value' hi.lt_length (assignsAt_concat.2 (.inr ⟨rfl, hsection, hline⟩))
      · exact hlast j value' hj (assignsAt_concat.2 (.inl hassigns))
    · exact .inl hassigns
  · rintro (hassigns | ⟨hnone, i, hi, hlast⟩)
    · refine ⟨ls.length, assignsAt_concat.2 (.inr ⟨rfl, hassigns⟩), fun j value' hj hlater => ?_⟩
      have hlt := hlater.lt_length
      rw [List.length_append, List.length_singleton] at hlt
      omega
    · refine ⟨i, assignsAt_concat.2 (.inl hi), fun j value' hj hlater => ?_⟩
      rcases assignsAt_concat.1 hlater with hlater | ⟨-, hsection, hline⟩
      · exact hlast j value' hj hlater
      · exact hnone hsection value' hline

theorem not_lastAssigned_nil : ¬LastAssigned [] key value := by
  rintro ⟨i, hi, -⟩
  exact absurd hi.lt_length (Nat.not_lt_zero i)

end

/-! ## All lines -/

theorem counting_cons (line : List Char) (raw : List (List Char)) :
    counting (line :: raw) =
      if Counts (Text.trim line) then Text.trim line :: counting raw else counting raw := by
  simp only [counting, List.map_cons, List.filter_cons, decide_eq_true_eq]

theorem counts_of_mem_counting {line : List Char} {raw : List (List Char)}
    (h : line ∈ counting raw) : Counts line :=
  of_decide_eq_true (List.mem_filter.1 h).2

namespace Reading

/-- Lines that do not count change nothing. -/
theorem foldl_takeLine (raw : List (List Char)) (r : Reading) :
    raw.foldl takeLine r = (counting raw).foldl takeTrimmed r := by
  induction raw generalizing r with
  | nil => rfl
  | cons line raw ih =>
    rw [List.foldl_cons, ih, takeLine, counting_cons]
    split
    · rfl
    · next h => rw [takeTrimmed_of_not_counts r h]

/-- An assignment in front hides those to the same key behind it. -/
theorem lookup_toList_append {first : Option (List Char × List Char)}
    {others : List (List Char × List Char)} {key value : List Char} :
    (first.toList ++ others).lookup key = some value ↔
      first = some (key, value) ∨
      (∀ value', first ≠ some (key, value')) ∧ others.lookup key = some value := by
  cases first with
  | none => simp
  | some assigned =>
    obtain ⟨key', value'⟩ := assigned
    rw [Option.toList_some, List.singleton_append, List.lookup_cons]
    by_cases hkey : key = key'
    · simp [hkey]
    · simp [beq_eq_false_iff_ne.2 hkey, Ne.symm hkey]

/-- After any lines the reading knows whether they end in the section that is looked at, and of each
key the last assignment. -/
theorem foldl_takeTrimmed {ls : List (List Char)} (h : ∀ line ∈ ls, Counts line) :
    ((ls.foldl takeTrimmed start).inSection = true ↔ InSection ls) ∧
    ∀ key value, (ls.foldl takeTrimmed start).assigned.lookup key = some value ↔
      LastAssigned ls key value := by
  induction ls using List.reverseRecOn with
  | nil =>
    refine ⟨iff_of_false Bool.false_ne_true not_inSection_nil, fun key value => ?_⟩
    exact iff_of_false nofun not_lastAssigned_nil
  | append_singleton ls line ih =>
    obtain ⟨hsection, hassigned⟩ := ih fun l hl => h l (List.mem_append_left _ hl)
    rw [List.foldl_append, List.foldl_cons, List.foldl_nil]
    generalize ls.foldl takeTrimmed start = r at hsection hassigned
    rw [takeTrimmed_eq r (h line (by simp))]
    simp only [inSection_concat, lastAssigned_concat, ← assignment?_eq_some_iff]
    by_cases hheader : IsHeader line
    · have hnone : assignment? line = none := if_pos hheader
      simp [hheader, hnone, hassigned]
    · have hline : line ≠ sectionHeader := fun heq => hheader (heq ▸ isHeader_sectionHeader)
      by_cases hin : InSection ls
      · refine ⟨by simp [hheader, hin, hsection], fun key value => ?_⟩
        rw [if_neg hheader, if_pos (hsection.2 hin), lookup_toList_append, hassigned]
        simp only [hin, true_and, forall_const]
      · simp [hheader, hin, hsection, hline, hassigned]

/-- The value of a key is what is assigned to it last. -/
theorem value?_ofText_eq_some_iff {text value : List Char} {key : String} :
    (ofText text).value? key = some value ↔ LastAssigned (lines text) key.toList value := by
  rw [ofText, foldl_takeLine]
  exact (foldl_takeTrimmed fun _ => counts_of_mem_counting).2 _ _

end Reading

end TapeMachine.Settings
