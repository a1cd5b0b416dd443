import TapeMachine.Proofs.Settings.Slices
set_option autoImplicit false

/-!
# Settings: what is not looked at

For one of the settings most of a file need not be there: whole sections of other names, lines in
front of the first header, and lines that assign nothing to its key (`Unread`).  Two readings that
agree on the setting and on where they are go on to agree, whatever the lines to come are
(`Reading.AgreeOn.foldl`), so such lines can be put in and taken out.

Main statement: the settings of a file are what it declares, and lines that are not looked at change
nothing (`ofFile_declared`).
-/

namespace TapeMachine.Settings

/-- Lines between `front` and `behind` that are not looked at for a setting. -/
inductive Unread (k : Key) (front behind : List (List Char)) : List (List Char) → Prop
  /-- A whole section of another name.  In the section that is looked at it stands at the end, so that
  it takes no line away. -/
  | otherSection {header : List Char} {others : List (List Char)}
    (hheader : IsHeader (Text.trim header)) (hname : Text.trim header ≠ sectionHeader)
    (hothers : ∀ line ∈ others, ¬IsHeader (Text.trim line))
    (hbehind : InSection (counting front) → ∀ line ∈ behind.head?, IsHeader (Text.trim line)) :
    Unread k front behind (header :: others)
  /-- A line that does not assign the setting. -/
  | otherKey {line : List Char} (hheader : ¬IsHeader (Text.trim line))
    (hkey : ∀ value, ¬Assignment (Text.trim line) k.name.toList value) :
    Unread k front behind [line]
  /-- Lines in front of the first header. -/
  | leading {block : List (List Char)}
    (hheader : ∀ line ∈ front ++ block, ¬IsHeader (Text.trim line)) : Unread k front behind block

namespace Reading

/-- The readings are in the same place and have the same value for a setting. -/
structure AgreeOn (k : Key) (r r' : Reading) : Prop where
  inSection_eq : r'.inSection = r.inSection
  value_eq : r'.value? k.name = r.value? k.name

/-! ## One line -/

section

variable {r r' : Reading} {line : List Char} {k : Key}

theorem takeLine_header (r : Reading) (h : IsHeader (Text.trim line)) :
    r.takeLine line = { r with inSection := decide (Text.trim line = sectionHeader) } := by
  have hcounts : Counts (Text.trim line) := by
    obtain ⟨name, hname⟩ := exists_of_isHeader h
    rw [hname]
    exact ⟨nofun, by simp⟩
  rw [takeLine, takeTrimmed_eq r hcounts, if_pos h]

/-- Outside of the section that is looked at only a header changes anything. -/
theorem takeLine_outside (hr : r.inSection = false) (h : ¬IsHeader (Text.trim line)) :
    r.takeLine line = r := by
  rw [takeLine]
  by_cases hcounts : Counts (Text.trim line)
  · rw [takeTrimmed_eq r hcounts, if_neg h, if_neg (by simp [hr])]
  · exact takeTrimmed_of_not_counts r hcounts

theorem foldl_takeLine_outside {raw : List (List Char)} (hr : r.inSection = false)
    (h : ∀ line ∈ raw, ¬IsHeader (Text.trim line)) : raw.foldl takeLine r = r := by
  induction raw with
  | nil => rfl
  | cons line raw ih =>
    obtain ⟨hline, hraw⟩ := List.forall_mem_cons.1 h
    rw [List.foldl_cons, takeLine_outside hr hline, ih hraw]

theorem agreeOn_takeLine_of_not_assignment (r : Reading) (hheader : ¬IsHeader (Text.trim line))
    (hkey : ∀ value, ¬Assignment (Text.trim line) k.name.toList value) :
    r.AgreeOn k (r.takeLine line) := by
  rw [takeLine]
  by_cases hcounts : Counts (Text.trim line)
  · rw [takeTrimmed_eq r hcounts, if_neg hheader]
    have hnone : ∀ value, assignment? (Text.trim line) ≠ some (k.name.toList, value) :=
      fun value h => hkey value (assignment?_eq_some_iff.1 h)
    split
    · refine ⟨rfl, Option.ext fun value => ?_⟩
      simp only [value?, lookup_toList_append, hnone, false_or, ne_eq, not_false_eq_true, implies_true,
        true_and]
    · exact ⟨rfl, rfl⟩
  · rw [takeTrimmed_of_not_counts r hcounts]
    exact ⟨rfl, rfl⟩

namespace AgreeOn

theorem takeLine (h : r.AgreeOn k r') (line : List Char) :
    (r.takeLine line).AgreeOn k (r'.takeLine line) := by
  simp only [Reading.takeLine]
  by_cases hcounts : Counts (Text.trim line)
  · rw [takeTrimmed_eq r hcounts, takeTrimmed_eq r' hcounts, h.inSection_eq]
    have hvalue := h.value_eq
    split
    · exact ⟨rfl, hvalue⟩
    · split
      · refine ⟨rfl, Option.ext fun value => ?_⟩
        simp only [value?] at hvalue
        simp only [value?, lookup_toList_append, hvalue]
      · exact h
  · rw [takeTrimmed_of_not_counts r hcounts, takeTrimmed_of_not_counts r' hcounts]
    exact h

theorem foldl (h : r.AgreeOn k r') (raw : List (List Char)) :
    (raw.foldl Reading.takeLine r).AgreeOn k (raw.foldl Reading.takeLine r') := by
  induction raw generalizing r r' with
  | nil => exact h
  | cons line raw ih => exact ih (h.takeLine line)

end AgreeOn

end

/-- Whether the lines so far end in the section that is looked at. -/
theorem inSection_foldl_takeLine (raw : List (List Char)) :
    (raw.foldl takeLine start).inSection = true ↔ InSection (counting raw) := by
  rw [foldl_takeLine]
  exact (foldl_takeTrimmed fun _ => counts_of_mem_counting).1

end Reading

/-! ## Whole files -/

section

variable {k : Key} {front block behind : List (List Char)} {text text' : List Char}

open Reading in
theorem Unread.value?_foldl_eq (h : Unread k front behind block) :
    ((front ++ block ++ behind).foldl takeLine start).value? k.name =
      ((front ++ behind).foldl takeLine start).value? k.name := by
  simp only [List.foldl_append]
  have hfront := inSection_foldl_takeLine front
  cases h with
  | otherKey hheader hkey =>
    exact ((agreeOn_takeLine_of_not_assignment _ hheader hkey).foldl behind).value_eq
  | leading hheader =>
    obtain ⟨hin, hblock⟩ := List.forall_mem_append.1 hheader
    rw [foldl_takeLine_outside (r := start) rfl hin, foldl_takeLine_outside rfl hblock]
  | @otherSection header others hheader hname hothers hbehind =>
    generalize front.foldl takeLine start = r at hfront
    have hblock : (header :: others).foldl takeLine r = { r with inSection := false } := by
      rw [List.foldl_cons, takeLine_header r hheader, decide_eq_false hname,
        foldl_takeLine_outside rfl hothers]
    rw [hblock]
    cases hin : r.inSection with
    | false => rw [← hin]
    | true =>
      -- the section ends here on both sides, with the file or with a header
      cases behind with
      | nil => rfl
      | cons line rest =>
        have hline : IsHeader (Text.trim line) := hbehind (hfront.1 hin) line rfl
        rw [List.foldl_cons, List.foldl_cons, takeLine_header _ hline, takeLine_header _ hline]

theorem value?_ofFile (text : List Char) (k : Key) :
    (ofFile text).value? k = (((Reading.ofText text).value? k.name).bind k.read?).or k.initial? :=
  (Reading.ofText text).value?_settings k

theorem Unread.value?_ofText_eq (h : Unread k front behind block)
    (htext : Text.pieces '\n' text = front ++ behind)
    (htext' : Text.pieces '\n' text' = front ++ block ++ behind) :
    (Reading.ofText text').value? k.name = (Reading.ofText text).value? k.name := by
  rw [Reading.ofText, Reading.ofText, htext, htext', h.value?_foldl_eq]

/-- A settings file is read as what it declares.

* Every text can be read by slices of its lines.
* Each setting is what the last assignment to its key stands for.  It has its initial value where
  this stands for nothing, and where there is no assignment.
* Sections of other names, lines with other keys and lines in front of the first header may be put in
  or taken out. -/
theorem ofFile_declared (text : List Char) :
    (Reading.sliceText? text).map Reading.settings = some (ofFile text) ∧
    (∀ k : Key,
      (∀ value, LastAssigned (lines text) k.name.toList value →
        (ofFile text).value? k = (k.read? value).or k.initial?) ∧
      ((∀ value, ¬LastAssigned (lines text) k.name.toList value) →
        (ofFile text).value? k = k.initial?)) ∧
    ∀ (text' : List Char) (front block behind : List (List Char)),
      Text.pieces '\n' text = front ++ behind →
      Text.pieces '\n' text' = front ++ block ++ behind →
      (∀ k, Unread k front behind block) → ofFile text' = ofFile text := by
  refine ⟨?_, fun k => ⟨fun value hlast => ?_, fun hnone => ?_⟩,
    fun text' front block behind htext htext' hunread => ext_value? fun k => ?_⟩
  · rw [Reading.sliceText?_eq_some]
    rfl
  · rw [value?_ofFile, Reading.value?_ofText_eq_some_iff.2 hlast, Option.bind_some]
  · have hvalue : (Reading.ofText text).value? k.name = none :=
      Option.eq_none_iff_forall_ne_some.2 fun value h =>
        hnone value (Reading.value?_ofText_eq_some_iff.1 h)
    rw [value?_ofFile, hvalue]
    rfl
  · rw [value?_ofFile, value?_ofFile, (hunread k).value?_ofText_eq htext htext']

/-- One key is assigned and another one is not, whether or not a section of another name has the first
key, too. -/
theorem ofFile_declared_otherSection :
    (ofFile "[interpreter]\neof = zero".toList).value? .eof = some .zero ∧
    (ofFile "[interpreter]\neof = zero".toList).value? .timeoutMs = none ∧
    ofFile "[interpreter]\neof = zero\n[colors]\neof = error".toList =
      ofFile "[interpreter]\neof = zero".toList := by
  obtain ⟨-, hvalues, hunread⟩ := ofFile_declared "[interpreter]\neof = zero".toList
  have heof : LastAssigned (lines "[interpreter]\neof = zero".toList) Key.eof.name.toList
      "zero".toList := Reading.value?_ofText_eq_some_iff.1 (by decide +kernel)
  have hnone : (Reading.ofText "[interpreter]\neof = zero".toList).value? Key.timeoutMs.name = none := by
    decide +kernel
  refine ⟨(hvalues .eof).1 _ heof, (hvalues .timeoutMs).2 fun value h => ?_, ?_⟩
  · cases hnone.symm.trans (Reading.value?_ofText_eq_some_iff.2 h)
  · refine hunread _ ["[interpreter]".toList, "eof = zero".toList]
      ["[colors]".toList, "eof = error".toList] [] (by decide) (by decide) fun k => ?_
    exact .otherSection (by decide) (by decide) (by decide) fun _ => nofun

end

end TapeMachine.Settings
