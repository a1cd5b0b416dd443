import TapeMachine.Text.Blank
import TapeMachine.Text.Decimal
import TapeMachine.Text.Piece
set_option autoImplicit false

/-!
# Text: what is printed is read back

The readers of this library undo what a printer does: a decimal number is read as its value
(`read?_toDigits`), a word with blanks around it is what trimming leaves (`trim_column`), a text is cut
where its first separator was put (`cutAt?_append`), and lines that were ended one by one are the
pieces between the ends (`pieces_lines`).

The statements about cutting have an arbitrary rest behind the separator, which is what lets them be
used field by field.
-/

namespace TapeMachine.Text

/-- A word with blanks before and behind it. -/
def column (before : Nat) (word : List Char) (behind : Nat) : List Char :=
  List.replicate before ' ' ++ word ++ List.replicate behind ' '

/-! ## Numbers -/

namespace Decimal

theorem digit?_digitChar {d : Nat} (h : d < 10) : digit? (Nat.digitChar d) = some d := by
  have all : ∀ d < 10, digit? (Nat.digitChar d) = some d := by decide
  exact all d h

theorem continue?_toDigits (n : Nat) : continue? 0 (Nat.toDigits 10 n) = some n := by
  -- the last digit comes off the end
  induction n using Nat.strongRecOn with
  | ind n ih =>
    rcases Nat.lt_or_ge n 10 with hlt | hge
    · rw [Nat.toDigits_of_lt_base hlt]
      simp [continue?, digit?_digitChar hlt]
    · rw [Nat.toDigits_of_base_le (by decide) hge, continue?_append, ih (n / 10) (by omega)]
      simp [continue?, digit?_digitChar (Nat.mod_lt n (by decide)), Nat.div_add_mod]

theorem notMem_toDigits {c : Char} (h : c.isDigit = false) (n : Nat) : c ∉ Nat.toDigits 10 n := by
  intro hc
  rw [Nat.isDigit_of_mem_toDigits (by decide) (by decide) hc] at h
  cases h

theorem isBlank_of_mem_toDigits {n : Nat} {c : Char} (hc : c ∈ Nat.toDigits 10 n) :
    isBlank c = false := by
  have hdigit := Nat.isDigit_of_mem_toDigits (by decide) (by decide) hc
  simp only [Char.isDigit, Bool.and_eq_true, decide_eq_true_eq, UInt32.le_iff_toNat_le] at hdigit
  obtain ⟨hlow, hhigh⟩ : 48 ≤ c.toNat ∧ c.toNat ≤ 57 := hdigit
  simp only [isBlank, blankRanges, List.any_cons, List.any_nil, Bool.or_false, Bool.or_eq_false_iff,
    Bool.and_eq_false_iff, decide_eq_false_iff_not]
  omega

/-- A number is read as what it was printed from. -/
theorem read?_toDigits (n : Nat) : read? (Nat.toDigits 10 n) = some n := by
  cases hdigits : Nat.toDigits 10 n with
  | nil => exact absurd hdigits Nat.toDigits_ne_nil
  | cons c text =>
    have hplus : c ≠ '+' := by
      rintro rfl
      exact notMem_toDigits (c := '+') rfl n (by simp [hdigits])
    have hread : read? (c :: text) = digits? (c :: text) := by
      unfold read?
      split
      · next heq => exact absurd (List.cons.inj heq).1 hplus
      · rfl
    rw [hread, digits?, ← hdigits, continue?_toDigits]

/-- A number that fits in a word is read as this word. -/
theorem readWord?_toString (n : UInt64) : readWord? (toString n.toNat).toList = some n := by
  have hdigits : (toString n.toNat).toList = Nat.toDigits 10 n.toNat := by
    rw [Nat.toString_eq_repr, Nat.repr_eq_ofList_toDigits, String.toList_ofList]
  rw [readWord?, hdigits, read?_toDigits, Option.bind_some, if_pos n.toNat_lt, UInt64.ofNat_toNat]

end Decimal

/-! ## Blanks -/

theorem trimStart_replicate_append (n : Nat) (text : List Char) :
    trimStart (List.replicate n ' ' ++ text) = trimStart text :=
  List.dropWhile_append_of_pos fun c hc => by rw [List.eq_of_mem_replicate hc]; rfl

theorem trimStart_eq_self {text : List Char} (h : ∀ c ∈ text.head?, isBlank c = false) :
    trimStart text = text := by
  cases text with
  | nil => rfl
  | cons c text => exact List.dropWhile_cons_of_neg (by simp [h c rfl])

/-- Trimming a column leaves its word. -/
theorem trim_column {word : List Char} (before behind : Nat)
    (h : ∀ c ∈ word, isBlank c = false) : trim (column before word behind) = word := by
  cases hword : word with
  | nil =>
    apply trim_eq_nil_of_all
    intro c hc
    simp only [column, List.append_nil, List.replicate_append_replicate] at hc
    rw [List.eq_of_mem_replicate hc]
    rfl
  | cons first others =>
    rw [← hword]
    have hstart : trimStart (column before word behind) = word ++ List.replicate behind ' ' := by
      rw [column, List.append_assoc, trimStart_replicate_append]
      exact trimStart_eq_self fun c hc => h c (by simp_all)
    have hend : trimStart (word ++ List.replicate behind ' ').reverse = word.reverse := by
      rw [List.reverse_append, List.reverse_replicate, trimStart_replicate_append]
      exact trimStart_eq_self fun c hc => h c (List.mem_reverse.1 (List.mem_of_mem_head? hc))
    rw [trim, hstart]
    exact (congrArg List.reverse hend).trans word.reverse_reverse

/-- A column consists of its word and blanks. -/
theorem notMem_column {c : Char} {word : List Char} (hblank : c ≠ ' ') (h : c ∉ word)
    (before behind : Nat) : c ∉ column before word behind := by
  simp [column, List.mem_replicate, hblank, h]

/-! ## Separators -/

section Separator

variable {sep : Char} {a b : List Char}

theorem cutAt?_append (h : sep ∉ a) (b : List Char) : cutAt? sep (a ++ sep :: b) = some (a, b) := by
  induction a with
  | nil => simp [cutAt?]
  | cons c a ih =>
    obtain ⟨hc, ha⟩ := not_or.1 (mt List.mem_cons.2 h)
    rw [List.cons_append, cutAt?, if_neg (Ne.symm hc), ih ha]
    rfl

theorem pieces_append (h : sep ∉ a) (b : List Char) :
    pieces sep (a ++ sep :: b) = a :: pieces sep b := by
  induction a with
  | nil => simp [pieces]
  | cons c a ih =>
    obtain ⟨hc, ha⟩ := not_or.1 (mt List.mem_cons.2 h)
    simp only [List.cons_append, pieces, if_neg (Ne.symm hc), ih ha]

/-- Lines that are ended one by one are the pieces, and nothing is left behind the last end. -/
theorem pieces_lines {lines : List (List Char)} (h : ∀ line ∈ lines, sep ∉ line) :
    pieces sep (lines.flatMap fun line => line ++ [sep]) = lines ++ [[]] := by
  induction lines with
  | nil => rfl
  | cons line lines ih =>
    obtain ⟨hline, hlines⟩ := List.forall_mem_cons.1 h
    rw [List.flatMap_cons, List.append_assoc, List.singleton_append, pieces_append hline,
      ih hlines, List.cons_append]

end Separator

end TapeMachine.Text
