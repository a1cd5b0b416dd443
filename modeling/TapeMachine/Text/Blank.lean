set_option autoImplicit false

/-!
# Text: blanks

The characters with the Unicode property `White_Space`, and the removal of them from the ends of a
text.  `isBlank_of_isWhitespace` says that the four characters the core library calls white space are
among them; the table adds the other control characters and the blanks outside ASCII.
-/

namespace TapeMachine.Text

/-- The ranges of code points with the property `White_Space`, both ends included. -/
def blankRanges : List (Nat × Nat) :=
  [(0x0009, 0x000D), (0x0020, 0x0020), (0x0085, 0x0085), (0x00A0, 0x00A0), (0x1680, 0x1680),
   (0x2000, 0x200A), (0x2028, 0x2029), (0x202F, 0x202F), (0x205F, 0x205F), (0x3000, 0x3000)]

/-- The character is white space. -/
def isBlank (c : Char) : Bool :=
  blankRanges.any fun r => r.1 ≤ c.toNat && c.toNat ≤ r.2

/-- The text without the blanks at its start. -/
def trimStart (text : List Char) : List Char := text.dropWhile isBlank

/-- The text without the blanks at its end. -/
def trimEnd (text : List Char) : List Char := (text.reverse.dropWhile isBlank).reverse

/-- The text without the blanks at its ends. -/
def trim (text : List Char) : List Char := trimEnd (trimStart text)

example : (blankRanges.map fun r => r.2 - r.1 + 1).sum = 25 := by decide

example : trim "\t a b\u00a0\u3000".toList = "a b".toList := by decide

theorem isBlank_of_isWhitespace {c : Char} (h : c.isWhitespace = true) : isBlank c = true := by
  simp only [Char.isWhitespace, Bool.or_eq_true, decide_eq_true_eq] at h
  rcases h with ((rfl | rfl) | rfl) | rfl <;> decide

theorem trim_eq_nil_of_all {text : List Char} (h : ∀ c ∈ text, isBlank c = true) :
    trim text = [] := by
  have : text.dropWhile isBlank = [] := by
    induction text with
    | nil => rfl
    | cons c text ih =>
      rw [List.dropWhile_cons_of_pos (h c (by simp))]
      exact ih fun d hd => h d (by simp [hd])
  simp [trim, trimStart, trimEnd, this]

end TapeMachine.Text
