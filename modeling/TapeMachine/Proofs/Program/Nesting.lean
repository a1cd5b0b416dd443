import TapeMachine.Instruction
import TapeMachine.Program
import TapeMachine.Proofs.Bracket.Stack
set_option autoImplicit false

/-!
# Program: nesting

The loops of a program, and the loops around each of its positions.  A program that comes from a text
has the table of partners of this text (`Program.Paired`), and all that is needed of the table is in
two statements: an opening bracket begins a loop (`Paired.exists_loop`), and a closing one either ends
a loop or stands where nothing is open (`Paired.stray_or_loop`).

`openAt` lists the opening brackets around a position from the stack of the pass, `enclosing` reads
them off the table alone.  Both are the same list in opposite orders (`Paired.enclosing_eq`).
-/

namespace TapeMachine.Program

variable {p : Program}

/-- The table of the program is the one that its text has. -/
def Paired (p : Program) : Prop := Bracket.partners p.code.toList = .ok p.partners

theorem paired_of_ofText {text : List Char} (h : ofText text = .ok p) : p.Paired := by
  simp only [ofText] at h
  split at h <;> cases h
  assumption

theorem toList_code_of_ofText {text : List Char} (h : ofText text = .ok p) :
    p.code.toList = text := by
  rw [code_of_ofText h]

/-- The opening brackets of the loops around position `ip`, innermost first. -/
def openAt (p : Program) (ip : Nat) : List Nat := Bracket.openAt p.code.toList ip

/-- A loop of the program begins at `o` and ends at `c`. -/
structure IsLoop (p : Program) (o c : Nat) : Prop where
  lt : o < c
  opens : p.code[o]? = some '['
  closes : p.code[c]? = some ']'
  partner_opening : p.partner? o = some c
  partner_closing : p.partner? c = some o
  openAt_closing : p.openAt c = o :: p.openAt o

/-! ## The loops of a paired program -/

/-- A loop ends where the scan of its body finds the end. -/
theorem Paired.loop_of_loopEnd (h : p.Paired) {o k : Nat} (ho : p.code[o]? = some '[')
    (hk : Bracket.loopEnd? (p.code.toList.drop (o + 1)) = some k) : p.IsLoop o (o + 1 + k) := by
  rw [← Array.getElem?_toList] at ho
  obtain ⟨hopening, hclosing⟩ := Bracket.partner_of_loopEnd h ho hk
  refine ⟨by omega, ?_, ?_, hopening, hclosing, Bracket.openAt_loopEnd ho hk⟩
  · rwa [← Array.getElem?_toList]
  · rw [← Array.getElem?_toList]
    exact Bracket.getElem?_of_loopEnd hk

/-- An opening bracket begins a loop. -/
theorem Paired.exists_loop (h : p.Paired) {o : Nat} (ho : p.code[o]? = some '[') :
    ∃ c, p.IsLoop o c := by
  have hchar : p.code.toList[o]? = some '[' := by rwa [Array.getElem?_toList]
  obtain ⟨k, hk⟩ := Option.isSome_iff_exists.1 (Bracket.exists_partners_iff.1 ⟨_, h⟩ o hchar)
  exact ⟨_, h.loop_of_loopEnd ho hk⟩

/-- A closing bracket is stray, and then nothing is open in front of it, or it ends a loop. -/
theorem Paired.stray_or_loop (h : p.Paired) {c : Nat} (hc : p.code[c]? = some ']') :
    (p.partner? c = none ∧ p.openAt c = []) ∨ ∃ o, p.IsLoop o c := by
  rw [← Array.getElem?_toList] at hc
  cases hopen : p.openAt c with
  | nil => exact .inl ⟨Bracket.partner_of_stray h hc hopen, rfl⟩
  | cons o outer =>
    obtain ⟨-, hopening⟩ := Bracket.partner_of_openAt h hc hopen
    have ho : p.code[o]? = some '[' := by
      rw [← Array.getElem?_toList]
      exact Bracket.getElem?_of_mem_openAt (hopen ▸ List.mem_cons_self)
    obtain ⟨c', hloop⟩ := h.exists_loop ho
    have hsame : c' = c := Option.some.inj (hloop.partner_opening.symm.trans hopening)
    exact .inr ⟨o, hsame ▸ hloop⟩

theorem Paired.partner?_other (h : p.Paired) {ip : Nat} {c : Char} (hc : p.code[ip]? = some c)
    (ho : c ≠ '[') (hn : c ≠ ']') : p.partner? ip = none := by
  rw [← Array.getElem?_toList] at hc
  exact Bracket.partner_of_other h hc ho hn

/-- Whatever has a partner is one end of a loop, and the partner is the other. -/
theorem Paired.loop_of_partner? (h : p.Paired) {i j : Nat} (hij : p.partner? i = some j) :
    p.IsLoop i j ∨ p.IsLoop j i := by
  cases hc : p.code[i]? with
  | none =>
    have hlen : p.code.toList.length ≤ i := Array.getElem?_eq_none_iff.1 hc
    rw [partner?, Bracket.partner_of_length_le h hlen] at hij
    cases hij
  | some c =>
    rcases Bracket.bracket_cases c with rfl | rfl | ⟨ho, hn⟩
    · obtain ⟨j', hloop⟩ := h.exists_loop hc
      exact .inl (Option.some.inj (hloop.partner_opening.symm.trans hij) ▸ hloop)
    · rcases h.stray_or_loop hc with ⟨hnone, -⟩ | ⟨j', hloop⟩
      · rw [hnone] at hij; cases hij
      · exact .inr (Option.some.inj (hloop.partner_closing.symm.trans hij) ▸ hloop)
    · rw [h.partner?_other hc ho hn] at hij; cases hij

/-! ## From one position to the next -/

@[simp] theorem openAt_zero (p : Program) : p.openAt 0 = [] := Bracket.openAt_zero _

theorem openAt_succ_other {ip : Nat} {c : Char} (hc : p.code[ip]? = some c) (ho : c ≠ '[')
    (hn : c ≠ ']') : p.openAt (ip + 1) = p.openAt ip :=
  Bracket.openAt_succ_other (by rwa [Array.getElem?_toList]) ho hn

theorem openAt_succ_stray {ip : Nat} (hc : p.code[ip]? = some ']') (h : p.openAt ip = []) :
    p.openAt (ip + 1) = [] := by
  rw [openAt, Bracket.openAt_succ_close (by rwa [Array.getElem?_toList]), ← openAt, h]
  rfl

/-- In front of the body of a loop the loop itself is open. -/
theorem IsLoop.openAt_body {o c : Nat} (h : p.IsLoop o c) :
    p.openAt (o + 1) = o :: p.openAt o :=
  Bracket.openAt_succ_open (by rw [Array.getElem?_toList]; exact h.opens)

/-- Behind a loop the same loops are open as in front of it. -/
theorem IsLoop.openAt_behind {o c : Nat} (h : p.IsLoop o c) : p.openAt (c + 1) = p.openAt o := by
  have hc := Bracket.openAt_succ_close (by rw [Array.getElem?_toList]; exact h.closes)
  rw [openAt, hc, ← openAt, h.openAt_closing]
  rfl

theorem lt_of_mem_openAt {ip o : Nat} (h : ip ≤ p.length) (ho : o ∈ p.openAt ip) : o < ip :=
  Bracket.lt_of_mem_openAt h ho

theorem length_openAt_le (p : Program) (ip : Nat) :
    (p.openAt ip).length ≤ Bracket.nesting p.code.toList :=
  Bracket.length_openAt_le _ ip

/-- Nothing is open at the end of a paired program. -/
theorem Paired.openAt_length (h : p.Paired) : p.openAt p.length = [] :=
  (Bracket.partners_eq_ok_iff.1 h).1

/-! ## Loops around a position -/

/-- The opening brackets of the matched pairs around position `ip`, outermost first. -/
def enclosing (p : Program) (ip : Nat) : List Nat :=
  (List.range p.length).filter fun o => (p.partner? o).any fun c => o < ip ∧ ip ≤ c

theorem mem_enclosing_iff {ip o : Nat} :
    o ∈ p.enclosing ip ↔ o < p.length ∧ ∃ c, p.partner? o = some c ∧ o < ip ∧ ip ≤ c := by
  simp [enclosing, Option.any_eq_true]

theorem IsLoop.closing_lt {o c : Nat} (h : p.IsLoop o c) : c < p.length :=
  (Array.getElem?_eq_some_iff.1 h.closes).1

theorem IsLoop.opening_lt {o c : Nat} (h : p.IsLoop o c) : o < p.length :=
  Nat.lt_trans h.lt h.closing_lt

/-- A loop is open at every place behind its beginning up to its end. -/
theorem IsLoop.mem_openAt {o c ip : Nat} (h : p.IsLoop o c) (hlt : o < ip) (hle : ip ≤ c) :
    o ∈ p.openAt ip := by
  have hmem : o ∈ p.openAt c := h.openAt_closing ▸ List.mem_cons_self
  exact Bracket.mem_openAt_of_le hmem hlt hle (Nat.le_trans hle (Nat.le_of_lt h.closing_lt))

/-- It is open nowhere else. -/
theorem IsLoop.le_of_mem_openAt {o c ip : Nat} (h : p.IsLoop o c) (ho : o ∈ p.openAt ip) :
    ip ≤ c := by
  refine Nat.le_of_not_lt fun hc => ?_
  have hbehind : o ∈ p.openAt (c + 1) :=
    Bracket.mem_openAt_of_le ho (Nat.lt_succ_of_lt h.lt) hc h.closing_lt
  rw [h.openAt_behind] at hbehind
  exact Nat.lt_irrefl o (lt_of_mem_openAt (Nat.le_of_lt h.opening_lt) hbehind)

theorem Paired.mem_openAt_iff (h : p.Paired) {ip o : Nat} (hip : ip ≤ p.length) :
    o ∈ p.openAt ip ↔ o ∈ p.enclosing ip := by
  rw [mem_enclosing_iff]
  constructor
  · intro ho
    have hopens : p.code[o]? = some '[' := by
      rw [← Array.getElem?_toList]
      exact Bracket.getElem?_of_mem_openAt ho
    obtain ⟨c, hloop⟩ := h.exists_loop hopens
    exact ⟨hloop.opening_lt, c, hloop.partner_opening, lt_of_mem_openAt hip ho,
      hloop.le_of_mem_openAt ho⟩
  · rintro ⟨-, c, hc, hlt, hle⟩
    rcases h.loop_of_partner? hc with hloop | hloop
    · exact hloop.mem_openAt hlt hle
    · exact absurd hloop.lt (by omega)

/-- The stack of the pass holds the loops around its position, innermost first. -/
theorem Paired.enclosing_eq (h : p.Paired) {ip : Nat} (hip : ip ≤ p.length) :
    p.enclosing ip = (p.openAt ip).reverse := by
  have hopen : ((p.openAt ip).reverse).Pairwise (· < ·) :=
    List.pairwise_reverse.2 (List.pairwise_cons.1 (Bracket.pairwise_openAt hip)).2
  have hencl : (p.enclosing ip).Pairwise (· < ·) := List.pairwise_lt_range.filter _
  have hperm : (p.enclosing ip).Perm (p.openAt ip).reverse := by
    refine (List.perm_ext_iff_of_nodup (hencl.imp Nat.ne_of_lt) (hopen.imp Nat.ne_of_lt)).2 ?_
    intro o
    rw [List.mem_reverse, h.mem_openAt_iff hip]
  exact hperm.eq_of_pairwise (fun a b _ _ hab hba => absurd hab (Nat.lt_asymm hba)) hencl hopen

end TapeMachine.Program
