import TapeMachine.Proofs.Bracket.Count
import TapeMachine.Proofs.Program.Nesting
set_option autoImplicit false

/-!
# Program: one program within another

The characters of a program may stand in another program at other places, with more characters
around them or in between.  `Embeds f q p` says that `q` stands in `p` in this way, that `f` gives
the places and that the loops around a place are the same.  Then the brackets of `q` have the same
partners in `p`, at their new places (`Embeds.partner?_eq`).

Main statement: of two accepted texts the one behind the other is accepted, and both stand in it,
the first one where it was and the second one behind the first (`exists_ofText_append`).
-/

namespace TapeMachine.Bracket

variable {a b : List Char}

/-- If the characters of a text stand in another one, in order and with nothing around them that
changes what is open, then in front of each of them the same brackets are open, at their new places. -/
theorem openAt_spread {text spread : List Char} {f : Nat → Nat}
    (hcode : ∀ i < text.length, spread[f i]? = text[i]?) (hzero : openAt spread (f 0) = [])
    (hnext : ∀ i < text.length, openAt spread (f (i + 1)) = openAt spread (f i + 1)) {ip : Nat}
    (hip : ip ≤ text.length) : openAt spread (f ip) = (openAt text ip).map f := by
  induction ip with
  | zero => rw [hzero, openAt_zero, List.map_nil]
  | succ ip ih =>
    have hc : text[ip]? = some text[ip] := List.getElem?_eq_getElem hip
    have hc' : spread[f ip]? = some text[ip] := (hcode ip hip).trans hc
    rw [hnext ip hip, openAt_succ hc', openAt_succ hc, ih (Nat.le_of_succ_le hip)]
    split
    · rfl
    · split
      · rw [List.map_tail]
      · rfl

/-- What is open in front of a position does not depend on the text behind it. -/
theorem openAt_append_left {ip : Nat} (h : ip ≤ a.length) : openAt (a ++ b) ip = openAt a ip := by
  have hcode (i : Nat) (hi : i < a.length) : (a ++ b)[id i]? = a[i]? :=
    List.getElem?_append_left hi
  have hopen := openAt_spread hcode (openAt_zero _) (fun _ _ => rfl) h
  rwa [List.map_id] at hopen

/-- Behind a text that leaves nothing open everything begins anew. -/
theorem openAt_append_right (h : openAt a a.length = []) {i : Nat} (hi : i ≤ b.length) :
    openAt (a ++ b) (a.length + i) = (openAt b i).map (a.length + ·) := by
  have hcode (i : Nat) (_ : i < b.length) : (a ++ b)[a.length + i]? = b[i]? := by
    rw [List.getElem?_append_right (Nat.le_add_right _ _), Nat.add_sub_cancel_left]
  have hzero : openAt (a ++ b) (a.length + 0) = [] := by
    rw [Nat.add_zero, openAt_append_left (Nat.le_refl _), h]
  exact openAt_spread hcode hzero (fun _ _ => rfl) hi

end TapeMachine.Bracket

namespace TapeMachine.Program

open TapeMachine.Bracket

variable {f : Nat → Nat} {p q r : Program}

/-- The characters of `q` stand in `p` at the places that `f` gives, and around such a place the
loops of `q` are open and no other ones. -/
structure Embeds (f : Nat → Nat) (q p : Program) : Prop where
  code_eq : ∀ i < q.length, p.code[f i]? = q.code[i]?
  openAt_eq : ∀ i < q.length, p.openAt (f i) = (q.openAt i).map f

theorem lt_length_of_code {i : Nat} {c : Char} (h : p.code[i]? = some c) : i < p.length :=
  (Array.getElem?_eq_some_iff.1 h).1

/-- Beyond the end there are no brackets. -/
theorem Paired.partner?_of_length_le (h : p.Paired) {i : Nat} (hi : p.length ≤ i) :
    p.partner? i = none :=
  partner_of_length_le h (by simpa [length] using hi)

/-- A loop remains a loop. -/
theorem Embeds.isLoop (h : Embeds f q p) (hp : p.Paired) {o c : Nat} (hloop : q.IsLoop o c) :
    p.IsLoop (f o) (f c) := by
  have hc := lt_length_of_code hloop.closes
  have ho := lt_length_of_code hloop.opens
  have hopen : p.openAt (f c) = f o :: p.openAt (f o) := by
    rw [h.openAt_eq c hc, hloop.openAt_closing, List.map_cons, h.openAt_eq o ho]
  have hcloses : p.code[f c]? = some ']' := (h.code_eq c hc).trans hloop.closes
  rcases hp.stray_or_loop hcloses with ⟨-, hnil⟩ | ⟨o', hloop'⟩
  · rw [hopen] at hnil
    cases hnil
  · have hsame := hloop'.openAt_closing
    rw [hopen, List.cons.injEq] at hsame
    rw [hsame.1]
    exact hloop'

/-- The brackets have the same partners, and stray ones remain stray. -/
theorem Embeds.partner?_eq (h : Embeds f q p) (hq : q.Paired) (hp : p.Paired) {i : Nat}
    (hi : i < q.length) : p.partner? (f i) = (q.partner? i).map f := by
  cases hpartner : q.partner? i with
  | some j =>
    rcases hq.loop_of_partner? hpartner with hloop | hloop
    · exact (h.isLoop hp hloop).partner_opening
    · exact (h.isLoop hp hloop).partner_closing
  | none =>
    have hc : q.code[i]? = some q.code[i] := Array.getElem?_eq_getElem hi
    have hc' : p.code[f i]? = some q.code[i] := (h.code_eq i hi).trans hc
    rcases bracket_cases q.code[i] with hchar | hchar | ⟨hno, hnc⟩
    · rw [hchar] at hc
      obtain ⟨c, hloop⟩ := hq.exists_loop hc
      cases hpartner.symm.trans hloop.partner_opening
    · rw [hchar] at hc hc'
      rcases hq.stray_or_loop hc with ⟨-, hnil⟩ | ⟨o, hloop⟩
      · rcases hp.stray_or_loop hc' with ⟨hnone, -⟩ | ⟨o, hloop⟩
        · exact hnone
        · have hopen := hloop.openAt_closing
          rw [h.openAt_eq i hi, hnil] at hopen
          cases hopen
      · cases hpartner.symm.trans hloop.partner_closing
    · exact hp.partner?_other hc' hno hnc

/-- If nothing stands in `p` either at the places beyond the end of `q`, this holds of all places. -/
theorem Embeds.partner?_eq_of_code (h : Embeds f q p) (hq : q.Paired) (hp : p.Paired)
    (hcode : ∀ i, p.code[f i]? = q.code[i]?) (i : Nat) :
    p.partner? (f i) = (q.partner? i).map f := by
  rcases Nat.lt_or_ge i q.length with hlt | hle
  · exact h.partner?_eq hq hp hlt
  · have hnone : p.code[f i]? = none := (hcode i).trans (Array.getElem?_eq_none hle)
    rw [hq.partner?_of_length_le hle, Option.map_none]
    exact hp.partner?_of_length_le (Array.getElem?_eq_none_iff.1 hnone)

/-! ## One text behind the other -/

section Append

variable {a b : List Char}

theorem length_of_ofText (h : ofText a = .ok p) : p.length = a.length := by
  rw [length, code_of_ofText h, List.size_toArray]

theorem openAt_of_ofText (h : ofText a = .ok p) (ip : Nat) : p.openAt ip = Bracket.openAt a ip := by
  rw [openAt, toList_code_of_ofText h]

theorem openAt_length_of_ofText (h : ofText a = .ok p) : Bracket.openAt a a.length = [] :=
  exists_ofText_iff.1 ⟨p, h⟩

/-- The first text stands where it was. -/
theorem embeds_append_left (hp : ofText a = .ok p) (hr : ofText (a ++ b) = .ok r) :
    Embeds id p r where
  code_eq := by
    intro i hi
    rw [length_of_ofText hp] at hi
    simp [code_of_ofText hp, code_of_ofText hr, hi, List.getElem?_append_left]
  openAt_eq := by
    intro i hi
    rw [length_of_ofText hp] at hi
    rw [openAt_of_ofText hr, openAt_of_ofText hp, List.map_id]
    exact openAt_append_left (Nat.le_of_lt hi)

theorem code_append_right (hp : ofText a = .ok p) (hq : ofText b = .ok q)
    (hr : ofText (a ++ b) = .ok r) (i : Nat) : r.code[p.length + i]? = q.code[i]? := by
  simp [length_of_ofText hp, code_of_ofText hq, code_of_ofText hr, List.getElem?_append_right]

/-- The second text stands behind the first. -/
theorem embeds_append_right (hp : ofText a = .ok p) (hq : ofText b = .ok q)
    (hr : ofText (a ++ b) = .ok r) : Embeds (p.length + ·) q r where
  code_eq i _ := code_append_right hp hq hr i
  openAt_eq := by
    intro i hi
    rw [length_of_ofText hq] at hi
    rw [openAt_of_ofText hr, openAt_of_ofText hq, length_of_ofText hp]
    exact openAt_append_right (openAt_length_of_ofText hp) (Nat.le_of_lt hi)

/-- An accepted text behind an accepted text is accepted. -/
theorem exists_ofText_append (hp : ofText a = .ok p) (hq : ofText b = .ok q) :
    ∃ r, ofText (a ++ b) = .ok r := by
  rw [exists_ofText_iff, List.length_append,
    openAt_append_right (openAt_length_of_ofText hp) (Nat.le_refl _), openAt_length_of_ofText hq,
    List.map_nil]

end Append

end TapeMachine.Program
