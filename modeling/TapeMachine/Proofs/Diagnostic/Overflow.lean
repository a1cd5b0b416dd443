import TapeMachine.Proofs.Diagnostic.Window
set_option autoImplicit false

/-!
# Diagnostic: places near the last word

Places whose window cannot be told.  The end of a window is a sum, and near the last 64-bit word the sum
is no word: `windowStop?` has no answer there.  Arithmetic that goes on from 0 behind the last word has
one, `wrappedStop`, but it lies in front of the start of the window, unless the program is so short that
both lie behind its end.

Offsets are in order exactly if their positions are, those behind the end apart
(`Text.byteOffset_le_byteOffset_iff`), so that the window can be discussed without bytes.

Main statement: the places that have a window, with a sum that is checked and with one that wraps around
(`context?_isSome_iff`).
-/

namespace TapeMachine

/-! ## Offsets in order -/

namespace Text

variable {text : List Char} {i j : Nat}

theorem byteOffset_le_byteLength (text : List Char) (i : Nat) :
    byteOffset text i ≤ byteLength text := by
  calc byteOffset text i
      ≤ byteLength (text.take i) + byteLength (text.drop i) := Nat.le_add_right _ _
    _ = byteLength text := by rw [← byteLength_append, List.take_append_drop]

/-- The characters between two positions make up the bytes between their offsets. -/
theorem byteOffset_add (text : List Char) (i k : Nat) :
    byteOffset text (i + k) = byteOffset text i + byteLength ((text.drop i).take k) := by
  rw [byteOffset, List.take_add, byteLength_append]
  rfl

theorem byteLength_pos (h : text ≠ []) : 0 < byteLength text := by
  cases text with
  | nil => exact absurd rfl h
  | cons c text => exact Nat.add_pos_left (Char.utf8Size_pos c) _

/-- Offsets are in order if their positions are, and all offsets are up to the end of the text. -/
theorem byteOffset_le_byteOffset_iff :
    byteOffset text i ≤ byteOffset text j ↔ i ≤ j ∨ text.length ≤ j := by
  constructor
  · intro hle
    refine Decidable.byContradiction fun hnot => ?_
    obtain ⟨hji, hj⟩ := not_or.1 hnot
    -- there is a character between the two positions
    obtain ⟨k, rfl⟩ := Nat.exists_eq_add_of_lt (Nat.lt_of_not_le hji)
    have hne : (text.drop j).take (k + 1) ≠ [] := by
      rw [ne_eq, List.take_eq_nil_iff, List.drop_eq_nil_iff]
      omega
    have hpos := byteLength_pos hne
    rw [Nat.add_assoc, byteOffset_add] at hle
    omega
  · rintro (hij | hj)
    · obtain ⟨k, rfl⟩ := Nat.exists_eq_add_of_le hij
      rw [byteOffset_add]
      exact Nat.le_add_right _ _
    · rw [byteOffset, byteOffset, List.take_of_length_le hj]
      exact byteOffset_le_byteLength text i

/-- Two positions have a slice between them exactly if their offsets are in order. -/
theorem slice?_isSome_iff :
    (slice? text (byteOffset text i) (byteOffset text j)).isSome ↔
      byteOffset text i ≤ byteOffset text j := by
  constructor
  · intro h
    obtain ⟨part, hpart⟩ := Option.isSome_iff_exists.1 h
    exact (IsBoundary.of_slice? hpart).1
  · intro hle
    by_cases hij : i ≤ j
    · rw [slice?_byteOffset text hij]
      rfl
    · have hj : text.length ≤ j := (byteOffset_le_byteOffset_iff.1 hle).resolve_left hij
      have hi : text.length ≤ i := Nat.le_trans hj (Nat.le_of_not_le hij)
      rw [Diagnostic.byteOffset_eq_of_length_le hi, Diagnostic.byteOffset_eq_of_length_le hj,
        slice?_byteOffset text (Nat.le_refl _)]
      rfl

end Text

/-! ## The end of the window -/

namespace Diagnostic

/-- The index after the last character that is shown, with a sum that goes on from 0 behind the last
word. -/
def wrappedStop (pos : UInt64) (length : Nat) : Nat := min (pos + 32 + 1).toNat length

theorem isSome_context? (lead : String) (code : List Char) (pos : Nat) :
    (context? lead code pos).isSome = (window? code pos).isSome := by
  rw [context?, Option.isSome_map]

/-- Where the sum is no word, there is no window. -/
theorem window?_eq_none {code : List Char} {pos : Nat} (h : ¬pos + reach + 1 < UInt64.size) :
    window? code pos = none := by
  rw [window?, windowStop?, if_neg h, Option.bind_none]

section

variable {code : List Char} {pos : UInt64}

theorem toNat_add_reach (h : pos.toNat + 32 + 1 < UInt64.size) :
    (pos + 32 + 1).toNat = pos.toNat + 32 + 1 := by
  have hsize : UInt64.size = 2 ^ 64 := rfl
  rw [UInt64.toNat_add, UInt64.toNat_add]
  simp only [UInt64.reduceToNat]
  omega

/-- A sum that is no word wraps around to one that is less than what was added. -/
theorem toNat_add_reach_le (h : ¬pos.toNat + 32 + 1 < UInt64.size) : (pos + 32 + 1).toNat ≤ 32 := by
  have hsize : UInt64.size = 2 ^ 64 := rfl
  have hpos := pos.toNat_lt
  rw [UInt64.toNat_add, UInt64.toNat_add]
  simp only [UInt64.reduceToNat]
  omega

/-- Where the sum is a word, it does not matter what is done with one that is none. -/
theorem windowStop?_eq_wrappedStop (h : pos.toNat + 32 + 1 < UInt64.size) (length : Nat) :
    windowStop? pos.toNat length = some (wrappedStop pos length) := by
  rw [windowStop?_eq_some h, wrappedStop, toNat_add_reach h, reach]

theorem byteOffset_windowStart_le_iff :
    Text.byteOffset code (windowStart pos.toNat) ≤
        Text.byteOffset code (wrappedStop pos code.length) ↔
      pos.toNat + 32 + 1 < UInt64.size ∨ code.length ≤ (pos + 32 + 1).toNat := by
  rw [Text.byteOffset_le_byteOffset_iff, windowStart, reach, wrappedStop]
  by_cases h : pos.toNat + 32 + 1 < UInt64.size
  · have hsum := toNat_add_reach h
    omega
  · have hsum := toNat_add_reach_le h
    have hsize : UInt64.size = 2 ^ 64 := rfl
    omega

end

/-- What can be shown about a place, for all places that are words:

* if sums are checked, something is shown exactly if the sum at the end of the window is a word;
* if sums wrap around, the window never ends behind the program, and its end is the same if the sum is a
  word;
* the window then starts in front of its end exactly if the sum is a word, or if the program is no longer
  than what the sum has wrapped around to;
* there is a slice between the two exactly if they are in this order. -/
theorem context?_isSome_iff (lead : String) (code : List Char) (pos : UInt64) :
    ((context? lead code pos.toNat).isSome ↔ pos.toNat + 32 + 1 < UInt64.size) ∧
    Text.byteOffset code (wrappedStop pos code.length) ≤ Text.byteLength code ∧
    (pos.toNat + 32 + 1 < UInt64.size →
      windowStop? pos.toNat code.length = some (wrappedStop pos code.length)) ∧
    (Text.byteOffset code (windowStart pos.toNat) ≤
        Text.byteOffset code (wrappedStop pos code.length) ↔
      pos.toNat + 32 + 1 < UInt64.size ∨ code.length ≤ (pos + 32 + 1).toNat) ∧
    ((Text.slice? code (Text.byteOffset code (windowStart pos.toNat))
        (Text.byteOffset code (wrappedStop pos code.length))).isSome ↔
      Text.byteOffset code (windowStart pos.toNat) ≤
        Text.byteOffset code (wrappedStop pos code.length)) := by
  refine ⟨?_, Text.byteOffset_le_byteLength _ _, fun h => windowStop?_eq_wrappedStop h _,
    byteOffset_windowStart_le_iff, Text.slice?_isSome_iff⟩
  rw [isSome_context?]
  by_cases h : pos.toNat + 32 + 1 < UInt64.size
  · rw [window?_eq_around h]
    exact iff_of_true rfl h
  · rw [window?_eq_none h]
    exact iff_of_false Bool.false_ne_true h

/-- About the last word nothing can be shown for a program of 40 characters.  The sum is no word, and
with a sum that wraps around the window starts at byte 40 and ends at byte 32. -/
theorem no_context_of_lastWord :
    context? "bfi: oops" (List.replicate 40 '+') 18446744073709551615 = none ∧
    ¬18446744073709551615 + 32 + 1 < UInt64.size ∧
    Text.byteOffset (List.replicate 40 '+') (windowStart 18446744073709551615) = 40 ∧
    Text.byteOffset (List.replicate 40 '+') (wrappedStop 18446744073709551615 40) = 32 ∧
    ¬Text.byteOffset (List.replicate 40 '+') (windowStart 18446744073709551615) ≤
      Text.byteOffset (List.replicate 40 '+') (wrappedStop 18446744073709551615 40) := by
  decide +kernel

end Diagnostic

end TapeMachine
