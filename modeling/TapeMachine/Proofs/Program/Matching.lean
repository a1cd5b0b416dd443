import TapeMachine.Proofs.Program.Nesting
set_option autoImplicit false

/-!
# Program: the partners are a matching

The table of partners of an accepted text pairs its brackets.  The loops that the pairs are lie beside
each other or one inside the other: a bracket that is open in front of some place inside a loop has been
opened in this loop or around it, and is closed there (`IsLoop.nested`).

`depth` reads a text from the left and counts the loops that are open, without a stack.  Where it is 0 a
closing bracket is stray.

Main statement: the table is a well-nested matching of all opening brackets with those closing ones
that are not stray (`partners_wellNested`).
-/

namespace TapeMachine.Bracket

/-- The depth behind a character.  An opening bracket raises it, and a closing one lowers it, but not
below 0. -/
def deepen (depth : Nat) (c : Char) : Nat :=
  if c = '[' then depth + 1 else if c = ']' then depth - 1 else depth

/-- How many loops are open behind a text. -/
def depth (text : List Char) : Nat := text.foldl deepen 0

theorem depth_concat (text : List Char) (c : Char) : depth (text ++ [c]) = deepen (depth text) c := by
  simp [depth]

/-- The depth is the height of the stack. -/
theorem length_openAt_eq_depth {text : List Char} {ip : Nat} (h : ip ≤ text.length) :
    (openAt text ip).length = depth (text.take ip) := by
  induction ip with
  | zero => rw [openAt_zero]; rfl
  | succ ip ih =>
    have hc : text[ip]? = some text[ip] := List.getElem?_eq_getElem h
    rw [List.take_add_one, hc, Option.toList_some, depth_concat, ← ih (Nat.le_of_succ_le h), deepen,
      openAt_succ hc]
    split
    · rfl
    · split
      · exact List.length_tail
      · rfl

theorem openAt_eq_nil_iff_depth {text : List Char} {ip : Nat} (h : ip ≤ text.length) :
    openAt text ip = [] ↔ depth (text.take ip) = 0 := by
  rw [← length_openAt_eq_depth h, List.length_eq_zero_iff]

end TapeMachine.Bracket

namespace TapeMachine.Program

variable {p : Program} {a b c d i j : Nat}

/-! ## Two loops -/

/-- Whoever has the same end is the same loop. -/
theorem IsLoop.opening_unique (h : p.IsLoop a b) (h' : p.IsLoop c b) : a = c :=
  Option.some.inj (h.partner_closing.symm.trans h'.partner_closing)

theorem IsLoop.closing_unique (h : p.IsLoop a b) (h' : p.IsLoop a d) : b = d :=
  Option.some.inj (h.partner_opening.symm.trans h'.partner_opening)

/-- A loop with one end inside another loop has both ends there. -/
theorem IsLoop.nested (h : p.IsLoop a b) (h' : p.IsLoop c d) :
    (a < c → c < b → d < b) ∧ (a < d → d < b → a < c) := by
  constructor
  · intro hac hcb
    have hmem : a ∈ p.openAt d := by
      rw [h'.openAt_closing]
      exact List.mem_cons_of_mem c (h.mem_openAt hac (Nat.le_of_lt hcb))
    refine Nat.lt_of_le_of_ne (h.le_of_mem_openAt hmem) ?_
    rintro rfl
    exact Nat.ne_of_lt hac (h.opening_unique h')
  · intro had hdb
    have hmem : a ∈ p.openAt d := h.mem_openAt had (Nat.le_of_lt hdb)
    rw [h'.openAt_closing] at hmem
    rcases List.mem_cons.1 hmem with rfl | houter
    · exact absurd (h.closing_unique h') (Nat.ne_of_gt hdb)
    · exact lt_of_mem_openAt (Nat.le_of_lt h'.opening_lt) houter

/-! ## The table -/

/-- Whatever has a partner is a bracket. -/
theorem Paired.bracket_of_partner? (h : p.Paired) (hij : p.partner? i = some j) :
    p.code[i]? = some '[' ∨ p.code[i]? = some ']' := by
  rcases h.loop_of_partner? hij with hloop | hloop
  · exact .inl hloop.opens
  · exact .inr hloop.closes

/-- A closing bracket is stray exactly where nothing is open. -/
theorem Paired.partner?_eq_none_iff (h : p.Paired) (hc : p.code[j]? = some ']') :
    p.partner? j = none ↔ p.openAt j = [] := by
  rcases h.stray_or_loop hc with ⟨hnone, hopen⟩ | ⟨o, hloop⟩
  · exact iff_of_true hnone hopen
  · rw [hloop.partner_closing, hloop.openAt_closing]
    exact iff_of_false (Option.some_ne_none o) (List.cons_ne_nil _ _)

/-- No two pairs cross, whichever of their ends are named first. -/
theorem Paired.between_of_partner? (h : p.Paired) (hab : p.partner? a = some b)
    (hcd : p.partner? c = some d) (hac : a < c) (hcb : c < b) : a < d ∧ d < b := by
  have hloop : p.IsLoop a b := by
    rcases h.loop_of_partner? hab with hloop | hloop
    · exact hloop
    · exact absurd hloop.lt (Nat.lt_asymm (Nat.lt_trans hac hcb))
  rcases h.loop_of_partner? hcd with hinner | hinner
  · exact ⟨Nat.lt_trans hac hinner.lt, (hloop.nested hinner).1 hac hcb⟩
  · exact ⟨(hloop.nested hinner).2 hac hcb, Nat.lt_trans hinner.lt hcb⟩

/-- In the table of an accepted text

* the partner of a partner is the bracket itself, both are in the text, and the lower one opens a loop
  while the other one closes it;
* no two pairs cross;
* every opening bracket has a partner;
* a character other than a bracket has none, and neither has an index past the end;
* a closing bracket has none if and only if the depth in front of it is 0;
* a closing bracket without a partner is not inside any pair. -/
theorem partners_wellNested {text : List Char} (htext : ofText text = .ok p) :
    (∀ i j, p.partner? i = some j → p.partner? j = some i ∧ i < text.length ∧ j < text.length ∧
      text[min i j]? = some '[' ∧ text[max i j]? = some ']') ∧
    (∀ a b c d, p.partner? a = some b → p.partner? c = some d → a < c → c < b → a < d ∧ d < b) ∧
    (∀ i, text[i]? = some '[' → ∃ j, p.partner? i = some j) ∧
    (∀ i, text[i]? ≠ some '[' → text[i]? ≠ some ']' → p.partner? i = none) ∧
    (∀ j, text[j]? = some ']' → (p.partner? j = none ↔ Bracket.depth (text.take j) = 0)) ∧
    ∀ j, text[j]? = some ']' → p.partner? j = none →
      ∀ a b, p.partner? a = some b → ¬(a < j ∧ j < b) := by
  have h : p.Paired := paired_of_ofText htext
  obtain rfl : p.code.toList = text := toList_code_of_ofText htext
  simp only [Array.getElem?_toList]
  refine ⟨fun i j hij => ?_, fun a b c d => h.between_of_partner?, fun i hi => ?_, fun i ho hc => ?_,
    fun j hj => ?_, fun j hj hnone a b hab ⟨haj, hjb⟩ => ?_⟩
  · rcases h.loop_of_partner? hij with hloop | hloop
    · rw [Nat.min_eq_left (Nat.le_of_lt hloop.lt), Nat.max_eq_right (Nat.le_of_lt hloop.lt)]
      exact ⟨hloop.partner_closing, hloop.opening_lt, hloop.closing_lt, hloop.opens, hloop.closes⟩
    · rw [Nat.min_eq_right (Nat.le_of_lt hloop.lt), Nat.max_eq_left (Nat.le_of_lt hloop.lt)]
      exact ⟨hloop.partner_opening, hloop.closing_lt, hloop.opening_lt, hloop.opens, hloop.closes⟩
  · obtain ⟨c, hloop⟩ := h.exists_loop hi
    exact ⟨c, hloop.partner_opening⟩
  · cases hij : p.partner? i with
    | none => rfl
    | some j =>
      rcases h.bracket_of_partner? hij with hopens | hcloses
      · exact absurd hopens ho
      · exact absurd hcloses hc
  · have hlt : j < p.length := (Array.getElem?_eq_some_iff.1 hj).1
    rw [h.partner?_eq_none_iff hj]
    exact Bracket.openAt_eq_nil_iff_depth (Nat.le_of_lt hlt)
  · have hopen : p.openAt j = [] := (h.partner?_eq_none_iff hj).1 hnone
    rcases h.loop_of_partner? hab with hloop | hloop
    · have hmem := hloop.mem_openAt haj (Nat.le_of_lt hjb)
      rw [hopen] at hmem
      cases hmem
    · exact absurd hloop.lt (Nat.lt_asymm (Nat.lt_trans haj hjb))

/-- The first closing bracket is stray, and so is the last one; the loop between them has two loops
inside, the one beside the other. -/
theorem partners_wellNested_strays : ∃ p, ofText "]+[[.][-]]]".toList = .ok p ∧
    p.partner? 2 = some 9 ∧ p.partner? 6 = some 8 ∧ (2 < 8 ∧ 8 < 9) ∧ p.partner? 10 = none := by
  have htext : ofText "]+[[.][-]]]".toList = .ok ⟨"]+[[.][-]]]".toList.toArray,
    #[none, none, some 9, some 5, none, some 3, some 8, none, some 6, some 2, none]⟩ := rfl
  obtain ⟨-, hcross, -, -, hstray, -⟩ := partners_wellNested htext
  exact ⟨_, htext, rfl, rfl, hcross 2 9 6 8 rfl rfl (by decide) (by decide),
    (hstray 10 rfl).2 (by decide)⟩

end TapeMachine.Program
