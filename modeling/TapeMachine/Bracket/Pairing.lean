set_option autoImplicit false

/-!
# Bracket: all partners in one pass

The partner of every bracket of a text, found in one pass with a stack of the brackets that are still
open.  A closing bracket takes the innermost open one as its partner; a closing bracket that finds
none open stays without a partner and is harmless.  A text whose stack is not empty at the end has a
loop that is never closed, and `partners` then answers with the innermost of these.

`Pairing` is the state of the pass.  Its lemmas give one equation for each kind of character, so that
nothing later has to unfold it.
-/

namespace TapeMachine.Bracket

/-- The state of the pass: the partners found so far, and the open brackets, innermost first. -/
structure Pairing where
  partners : Array (Option Nat)
  stillOpen : List Nat
  deriving DecidableEq, Repr, Inhabited

namespace Pairing

/-- No partner found yet, in a text of `length` characters. -/
def start (length : Nat) : Pairing := ⟨Array.replicate length none, []⟩

/-- Records that the brackets at `opening` and `closing` belong together. -/
def join (partners : Array (Option Nat)) (opening closing : Nat) : Array (Option Nat) :=
  (partners.setIfInBounds opening (some closing)).setIfInBounds closing (some opening)

/-- Takes in the character `c`, which stands at `index`. -/
def visit (p : Pairing) (index : Nat) (c : Char) : Pairing :=
  if c = '[' then { p with stillOpen := index :: p.stillOpen }
  else if c = ']' then
    match p.stillOpen with
    | [] => p
    | opening :: outer => ⟨join p.partners opening index, outer⟩
  else p

/-- Takes in a text whose first character stands at `index`. -/
def visitAll (p : Pairing) (index : Nat) : List Char → Pairing
  | [] => p
  | c :: text => (p.visit index c).visitAll (index + 1) text

@[simp] theorem visit_open (p : Pairing) (i : Nat) :
    p.visit i '[' = { p with stillOpen := i :: p.stillOpen } := by
  simp [visit]

@[simp] theorem visit_close_stray (partners : Array (Option Nat)) (i : Nat) :
    visit ⟨partners, []⟩ i ']' = ⟨partners, []⟩ := by
  simp [visit]

@[simp] theorem visit_close_paired (partners : Array (Option Nat)) (o : Nat) (outer : List Nat)
    (i : Nat) : visit ⟨partners, o :: outer⟩ i ']' = ⟨join partners o i, outer⟩ := by
  simp [visit]

theorem visit_other {c : Char} (ho : c ≠ '[') (hc : c ≠ ']') (p : Pairing) (i : Nat) :
    p.visit i c = p := by
  simp [visit, ho, hc]

@[simp] theorem visitAll_nil (p : Pairing) (i : Nat) : p.visitAll i [] = p := rfl

@[simp] theorem visitAll_cons (p : Pairing) (i : Nat) (c : Char) (text : List Char) :
    p.visitAll i (c :: text) = (p.visit i c).visitAll (i + 1) text := rfl

theorem visitAll_append (p : Pairing) (i : Nat) (a b : List Char) :
    p.visitAll i (a ++ b) = (p.visitAll i a).visitAll (i + a.length) b := by
  induction a generalizing p i with
  | nil => simp
  | cons c a ih => simp [ih, Nat.add_comm, Nat.add_left_comm]

end Pairing

/-- The partner of every bracket of `text` by index, or the index of the innermost opening bracket
that is never closed. -/
def partners (text : List Char) : Except Nat (Array (Option Nat)) :=
  let last := (Pairing.start text.length).visitAll 0 text
  match last.stillOpen with
  | [] => .ok last.partners
  | innermost :: _ => .error innermost

end TapeMachine.Bracket
