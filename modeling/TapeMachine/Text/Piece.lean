set_option autoImplicit false

/-!
# Text: pieces

Cutting a text at a character.  `pieces` cuts at every occurrence and `cutAt?` at the first one.
Nothing is lost: `intercalate_pieces` puts the text together again from its pieces, and
`eq_of_cutAt?` does so for the single cut.
-/

namespace TapeMachine.Text

/-- The pieces of the text between the occurrences of `sep`; there is one more than occurrences. -/
def pieces (sep : Char) : List Char → List (List Char)
  | [] => [[]]
  | c :: text =>
    if c = sep then [] :: pieces sep text
    else match pieces sep text with
      | [] => [[c]]
      | piece :: others => (c :: piece) :: others

/-- The text before and after the first occurrence of `sep`; nothing if there is none. -/
def cutAt? (sep : Char) : List Char → Option (List Char × List Char)
  | [] => none
  | c :: text =>
    if c = sep then some ([], text)
    else (cutAt? sep text).map fun cut => (c :: cut.1, cut.2)

theorem pieces_ne_nil (sep : Char) (text : List Char) : pieces sep text ≠ [] := by
  cases text with
  | nil => simp [pieces]
  | cons c text =>
    simp only [pieces]
    split
    · simp
    · split <;> simp

theorem intercalate_pieces (sep : Char) (text : List Char) :
    [sep].intercalate (pieces sep text) = text := by
  induction text with
  | nil => rfl
  | cons c text ih =>
    cases hp : pieces sep text with
    | nil => exact absurd hp (pieces_ne_nil sep text)
    | cons piece others =>
      rw [hp] at ih
      by_cases hc : c = sep
      · rw [pieces, if_pos hc, hp, hc]
        exact congrArg (sep :: ·) ih
      · cases others <;> simp_all [pieces, List.intercalate, List.intersperse]

theorem eq_of_cutAt? {sep : Char} {text before after : List Char}
    (h : cutAt? sep text = some (before, after)) : text = before ++ sep :: after := by
  induction text generalizing before with
  | nil => simp [cutAt?] at h
  | cons c text ih =>
    simp only [cutAt?] at h
    split at h
    · next hc => simp_all
    · obtain ⟨cut, hcut, heq⟩ := Option.map_eq_some_iff.1 h
      obtain ⟨rfl, rfl⟩ := Prod.mk.inj heq
      simp [ih hcut]

theorem notMem_of_cutAt? {sep : Char} {text before after : List Char}
    (h : cutAt? sep text = some (before, after)) : sep ∉ before := by
  induction text generalizing before with
  | nil => cases h
  | cons c text ih =>
    simp only [cutAt?] at h
    split at h
    · cases h
      exact List.not_mem_nil
    · next hc =>
      obtain ⟨cut, hcut, heq⟩ := Option.map_eq_some_iff.1 h
      cases heq
      exact List.not_mem_cons_of_ne_of_not_mem (Ne.symm hc) (ih hcut)

end TapeMachine.Text
