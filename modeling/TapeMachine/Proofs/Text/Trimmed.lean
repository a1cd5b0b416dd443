import Mathlib.Data.List.DropRight
import TapeMachine.Text.Blank
set_option autoImplicit false

/-!
# Text: what trimming takes away

A text consists of blanks only, or it has a character that is none.  Up to this character it is
trimmed from the left, and behind it from the right, and neither side looks at the other
(`trim_append_cons`).  So it does not matter whether a side has been trimmed before
(`trim_trimStart`, `trim_trimEnd`), nor how many blanks are put in front of a text or behind it
(`trim_pad`).
-/

namespace TapeMachine.Text

/-- The text consists of blanks. -/
def Blank (text : List Char) : Prop := ∀ c ∈ text, isBlank c = true

instance (text : List Char) : Decidable (Blank text) :=
  decidable_of_iff (text.all isBlank = true) List.all_eq_true

section

variable {c : Char} {w w' text : List Char}

theorem blank_or_exists (text : List Char) :
    Blank text ∨ ∃ a c b, text = a ++ c :: b ∧ isBlank c = false := by
  by_cases h : Blank text
  · exact .inl h
  · simp only [Blank, not_forall, Bool.not_eq_true] at h
    obtain ⟨c, hmem, hc⟩ := h
    obtain ⟨a, b, htext⟩ := List.append_of_mem hmem
    exact .inr ⟨a, c, b, htext, hc⟩

/-! ## Blanks -/

theorem blank_nil : Blank [] := List.forall_mem_nil _

theorem Blank.append (h : Blank w) (h' : Blank w') : Blank (w ++ w') :=
  List.forall_mem_append.2 ⟨h, h'⟩

theorem Blank.trimStart_eq_nil (h : Blank text) : trimStart text = [] :=
  List.dropWhile_eq_nil_iff.2 h

theorem Blank.trimEnd_eq_nil (h : Blank text) : trimEnd text = [] :=
  List.rdropWhile_eq_nil_iff.2 h

theorem Blank.trimStart_append (h : Blank w) (text : List Char) :
    trimStart (w ++ text) = trimStart text :=
  List.dropWhile_append_of_pos h

theorem Blank.trimEnd_append (h : Blank w) (text : List Char) :
    trimEnd (text ++ w) = trimEnd text := by
  rw [trimEnd, List.reverse_append, List.dropWhile_append_of_pos, trimEnd]
  simpa [Blank] using h

/-! ## A character that is no blank -/

theorem trimStart_append_cons (hc : isBlank c = false) (a b : List Char) :
    trimStart (a ++ c :: b) = trimStart a ++ c :: b := by
  rw [trimStart, List.dropWhile_append, List.dropWhile_cons_of_neg (by simp [hc])]
  split
  · next h => rw [trimStart, List.isEmpty_iff.1 h, List.nil_append]
  · rfl

theorem trimEnd_append_cons (hc : isBlank c = false) (a b : List Char) :
    trimEnd (a ++ c :: b) = a ++ c :: trimEnd b := by
  have hreverse : (a ++ c :: b).reverse = b.reverse ++ c :: a.reverse := by simp
  have htrim : trimStart (a ++ c :: b).reverse = trimStart b.reverse ++ c :: a.reverse := by
    rw [hreverse, trimStart_append_cons hc]
  simpa [trimEnd, trimStart] using congrArg List.reverse htrim

theorem trim_append_cons (hc : isBlank c = false) (a b : List Char) :
    trim (a ++ c :: b) = trimStart a ++ c :: trimEnd b := by
  rw [trim, trimStart_append_cons hc, trimEnd_append_cons hc]

/-- Blanks behind a text do not show at its start, -/
theorem Blank.head?_trimStart_append (h : Blank w) (text : List Char) :
    (trimStart (text ++ w)).head? = (trimStart text).head? := by
  rcases blank_or_exists text with hblank | ⟨a, c, b, rfl, hc⟩
  · rw [hblank.trimStart_eq_nil, (hblank.append h).trimStart_eq_nil]
  · rw [List.append_assoc, List.cons_append, trimStart_append_cons hc, trimStart_append_cons hc,
      List.head?_append, List.head?_append, List.head?_cons, List.head?_cons]

/-- and blanks in front of it do not show at its end. -/
theorem Blank.getLast?_trimEnd_append (h : Blank w) (text : List Char) :
    (trimEnd (w ++ text)).getLast? = (trimEnd text).getLast? := by
  rcases blank_or_exists text with hblank | ⟨a, c, b, rfl, hc⟩
  · rw [hblank.trimEnd_eq_nil, (h.append hblank).trimEnd_eq_nil]
  · rw [← List.append_assoc, trimEnd_append_cons hc, trimEnd_append_cons hc,
      List.getLast?_append_cons, List.getLast?_append_cons]

/-! ## Trimming again -/

theorem trim_trimStart (text : List Char) : trim (trimStart text) = trim text :=
  congrArg trimEnd (List.dropWhile_idempotent isBlank text)

theorem trim_trimEnd (text : List Char) : trim (trimEnd text) = trim text := by
  rcases blank_or_exists text with h | ⟨a, c, b, rfl, hc⟩
  · rw [h.trimEnd_eq_nil, trim_eq_nil_of_all h]
    rfl
  · rw [trimEnd_append_cons hc, trim_append_cons hc, trim_append_cons hc]
    exact congrArg (trimStart a ++ c :: ·) (List.rdropWhile_idempotent isBlank b)

/-- Blanks at the ends make no difference. -/
theorem trim_pad (hw : Blank w) (hw' : Blank w') (text : List Char) :
    trim (w ++ text ++ w') = trim text := by
  rw [List.append_assoc, trim, hw.trimStart_append, ← trim]
  rcases blank_or_exists text with h | ⟨a, c, b, rfl, hc⟩
  · rw [trim_eq_nil_of_all h, trim_eq_nil_of_all (h.append hw')]
  · rw [List.append_assoc, List.cons_append, trim_append_cons hc, trim_append_cons hc,
      hw'.trimEnd_append]

end

end TapeMachine.Text
