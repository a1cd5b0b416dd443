import TapeMachine.Proofs.Machine.Effect
import TapeMachine.Proofs.Program.Embedding
set_option autoImplicit false

/-!
# Program: two characters put in

Two plain instructions are put into a text, at any place, also within a loop.  They open nothing and
close nothing, so the text is accepted as before, and its brackets have the same partners, two
characters further on if they stand behind the place (`apart`).

A machine never arrives at a character as such but behind another one.  So it arrives in front of the
two new instructions, not behind them, wherever it comes from (`arrival`).

Main statement: `inserted_of_ofText`.
-/

namespace TapeMachine

namespace Program

/-- The place of character `i` when two characters have been put in at `cut`. -/
def apart (cut i : Nat) : Nat := if i < cut then i else i + 2

/-- Where a machine comes to that has come to `ip` without the two characters. -/
def arrival (cut ip : Nat) : Nat := if ip ≤ cut then ip else ip + 2

/-- `q` is `p` with two plain instructions put in at `cut`. -/
structure Inserted (cut : Nat) (a a' : Plain) (p q : Program) : Prop where
  code_eq : ∀ i, q.code[apart cut i]? = p.code[i]?
  partner_eq : ∀ i, q.partner? (apart cut i) = (p.partner? i).map (apart cut)
  first : q.code[cut]? = some a.instruction.char
  second : q.code[cut + 1]? = some a'.instruction.char

section Places

variable {cut i : Nat}

@[simp] theorem arrival_zero (cut : Nat) : arrival cut 0 = 0 := if_pos (Nat.zero_le cut)

theorem arrival_self (cut : Nat) : arrival cut cut = cut := if_pos (Nat.le_refl cut)

theorem apart_self (cut : Nat) : apart cut cut = cut + 2 := if_neg (Nat.lt_irrefl cut)

theorem apart_eq_ite (cut i : Nat) : apart cut i = if cut ≤ i then i + 2 else i := by
  unfold apart
  split <;> split <;> omega

/-- A character leads behind itself. -/
theorem apart_succ (cut i : Nat) : apart cut i + 1 = arrival cut (i + 1) := by
  unfold apart arrival
  split <;> split <;> omega

theorem arrival_of_ne (h : i ≠ cut) : arrival cut i = apart cut i := by
  unfold apart arrival
  split <;> split <;> omega

end Places

section Text

variable {front back : List Char} {a a' : Plain} {p q : Program}

/-- The text with the two instructions put in. -/
def widened (front back : List Char) (a a' : Plain) : List Char :=
  front ++ [a.instruction.char, a'.instruction.char] ++ back

theorem length_widened (front back : List Char) (a a' : Plain) :
    (widened front back a a').length = (front ++ back).length + 2 := by
  simp [widened]
  omega

theorem getElem?_widened (front back : List Char) (a a' : Plain) (i : Nat) :
    (widened front back a a')[apart front.length i]? = (front ++ back)[i]? := by
  unfold widened apart
  split
  · next hlt =>
    rw [List.append_assoc, List.getElem?_append_left hlt, List.getElem?_append_left hlt]
  · next hge =>
    have hle : front.length ≤ i := Nat.le_of_not_lt hge
    have hright : (front ++ [a.instruction.char, a'.instruction.char]).length ≤ i + 2 := by
      simpa using hle
    rw [List.getElem?_append_right hright, List.getElem?_append_right hle]
    congr 1
    simp

theorem getElem?_widened_first (front back : List Char) (a a' : Plain) :
    (widened front back a a')[front.length]? = some a.instruction.char := by
  simp [widened]

theorem getElem?_widened_second (front back : List Char) (a a' : Plain) :
    (widened front back a a')[front.length + 1]? = some a'.instruction.char := by
  simp [widened]

/-- What is open in front of the two instructions is open behind them. -/
theorem openAt_widened_arrival (front back : List Char) (a a' : Plain) (ip : Nat) :
    Bracket.openAt (widened front back a a') (apart front.length ip) =
      Bracket.openAt (widened front back a a') (arrival front.length ip) := by
  by_cases hip : ip = front.length
  · rw [hip, apart_self, arrival_self,
      Bracket.openAt_succ_other (getElem?_widened_second front back a a') a'.char_ne_open
        a'.char_ne_close,
      Bracket.openAt_succ_other (getElem?_widened_first front back a a') a.char_ne_open
        a.char_ne_close]
  · rw [arrival_of_ne hip]

/-- Around a character the same brackets are open. -/
theorem openAt_widened (a a' : Plain) {ip : Nat} (hip : ip ≤ (front ++ back).length) :
    Bracket.openAt (widened front back a a') (apart front.length ip) =
      (Bracket.openAt (front ++ back) ip).map (apart front.length) := by
  refine Bracket.openAt_spread (fun i _ => getElem?_widened front back a a' i) ?_
    (fun i _ => ?_) hip
  · rw [openAt_widened_arrival, arrival_zero, Bracket.openAt_zero]
  · rw [openAt_widened_arrival, apart_succ]

/-- The text is accepted as before. -/
theorem exists_ofText_widened (front back : List Char) (a a' : Plain) :
    (∃ q, ofText (widened front back a a') = .ok q) ↔ ∃ p, ofText (front ++ back) = .ok p := by
  have hend : apart front.length (front ++ back).length = (widened front back a a').length := by
    rw [length_widened, apart, if_neg (by simp)]
  rw [exists_ofText_iff, exists_ofText_iff, ← hend, openAt_widened a a' (Nat.le_refl _),
    List.map_eq_nil_iff]

theorem inserted_of_ofText (hp : ofText (front ++ back) = .ok p)
    (hq : ofText (widened front back a a') = .ok q) : Inserted front.length a a' p q := by
  have hcode (i : Nat) : q.code[apart front.length i]? = p.code[i]? := by
    simpa [code_of_ofText hp, code_of_ofText hq] using getElem?_widened front back a a' i
  have hembeds : Embeds (apart front.length) p q := by
    refine ⟨fun i _ => hcode i, fun i hi => ?_⟩
    rw [length_of_ofText hp] at hi
    rw [openAt_of_ofText hq, openAt_of_ofText hp]
    exact openAt_widened a a' (Nat.le_of_lt hi)
  constructor
  case code_eq => exact hcode
  case partner_eq =>
    exact hembeds.partner?_eq_of_code (paired_of_ofText hp) (paired_of_ofText hq) hcode
  case first => simpa [code_of_ofText hq] using getElem?_widened_first front back a a'
  case second => simpa [code_of_ofText hq] using getElem?_widened_second front back a a'

end Text

end Program

end TapeMachine
