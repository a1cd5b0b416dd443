import TapeMachine.Proofs.Machine.Effect
import TapeMachine.Proofs.Run.Turn
set_option autoImplicit false

/-!
# Block: a text read as instructions and loops

The program without places to jump to.  A `Block` is a sequence of plain instructions, stray closing
brackets and loops, and a loop holds the block that is its body.  `Reads` says which block a text
holds; comments are dropped, and a body never holds a stray bracket.

Main statement: a text whose loops are all closed holds exactly one block (`exists_reads`,
`Reads.unique`).
-/

namespace TapeMachine

/-- What a text holds.  Each item knows the index of its character. -/
inductive Block
  | done
  | plain (ip : Nat) (a : Plain) (rest : Block)
  | stray (ip : Nat) (rest : Block)
  | loop (ip : Nat) (body rest : Block)
  deriving DecidableEq, Repr, Inhabited

/-- The text, whose first character has the index `ip`, holds this block.  Outside of all loops, that
is where `top` holds, a closing bracket may be stray. -/
inductive Reads : Bool → Nat → List Char → Block → Prop
  | done {top : Bool} {ip : Nat} : Reads top ip [] .done
  | comment {top : Bool} {ip : Nat} {c : Char} {text : List Char} {b : Block}
      (hc : Instruction.ofChar? c = none) (h : Reads top (ip + 1) text b) :
      Reads top ip (c :: text) b
  | plain {top : Bool} {ip : Nat} {c : Char} {text : List Char} {b : Block} (a : Plain)
      (hc : c = a.instruction.char) (h : Reads top (ip + 1) text b) :
      Reads top ip (c :: text) (.plain ip a b)
  | stray {ip : Nat} {c : Char} {text : List Char} {b : Block}
      (hc : c = ']') (h : Reads true (ip + 1) text b) : Reads true ip (c :: text) (.stray ip b)
  | loop {top : Bool} {ip : Nat} {c : Char} {text body after : List Char} {b rest : Block}
      (hc : c = '[') (htext : text = body ++ ']' :: after) (hbody : Reads false (ip + 1) body b)
      (h : Reads top (ip + 1 + body.length + 1) after rest) :
      Reads top ip (c :: text) (.loop ip b rest)

/-- A character is a bracket, a plain instruction or a comment. -/
theorem char_cases (c : Char) :
    c = '[' ∨ c = ']' ∨ (∃ a : Plain, c = a.instruction.char) ∨ Instruction.ofChar? c = none := by
  rcases Run.ofChar?_cases c with hno | ⟨i, rfl⟩
  · exact .inr (.inr (.inr hno))
  · rcases i.bracket_or_plain with rfl | rfl | ⟨a, rfl⟩
    · exact .inl rfl
    · exact .inr (.inl rfl)
    · exact .inr (.inr (.inl ⟨a, rfl⟩))

theorem ne_open_of_comment {c : Char} (h : Instruction.ofChar? c = none) : c ≠ '[' := by
  rintro rfl
  cases h

theorem ne_close_of_comment {c : Char} (h : Instruction.ofChar? c = none) : c ≠ ']' := by
  rintro rfl
  cases h

/-! ## One block at most -/

/-- A scan passes through a body as through a single character. -/
theorem Reads.loopEndFrom_append {top : Bool} {ip : Nat} {body : List Char} {b : Block}
    (h : Reads top ip body b) (htop : top = false) (d : Nat) (text : List Char) :
    Bracket.loopEndFrom d (body ++ text) =
      (Bracket.loopEndFrom d text).map (· + body.length) := by
  induction h generalizing d text with
  | done => simp
  | comment hc _ ih =>
    rw [List.cons_append, Bracket.loopEndFrom_other (ne_open_of_comment hc)
      (ne_close_of_comment hc), ih htop, Option.map_map]
    rfl
  | plain a hc _ ih =>
    rw [hc, List.cons_append, Bracket.loopEndFrom_other a.char_ne_open a.char_ne_close, ih htop,
      Option.map_map]
    rfl
  | stray => cases htop
  | loop hc htext _ _ ihbody ih =>
    rw [hc, htext, List.cons_append, Bracket.loopEndFrom_open, List.append_assoc, ihbody rfl,
      List.cons_append, Bracket.loopEndFrom_close_succ, ih htop]
    simp only [Option.map_map]
    congr 1
    funext k
    simp
    omega

/-- The end of a loop is where its body ends. -/
theorem Reads.loopEnd? {ip : Nat} {body : List Char} {b : Block} (h : Reads false ip body b)
    (text : List Char) : Bracket.loopEnd? (body ++ ']' :: text) = some body.length := by
  rw [Bracket.loopEnd?, h.loopEndFrom_append rfl, Bracket.loopEndFrom_close_zero]
  simp

/-- A text holds one block at most. -/
theorem Reads.unique {top : Bool} {ip : Nat} {text : List Char} {b b' : Block}
    (h : Reads top ip text b) (h' : Reads top ip text b') : b = b' := by
  induction h generalizing b' with
  | done => cases h'; rfl
  | comment hc _ ih =>
    cases h' with
    | comment _ h' => exact ih h'
    | plain a hc' => simp [hc'] at hc
    | stray hc' => exact absurd hc' (ne_close_of_comment hc)
    | loop hc' => exact absurd hc' (ne_open_of_comment hc)
  | plain a hc _ ih =>
    subst hc
    cases h' with
    | comment hc' => simp at hc'
    | plain a' hc' h' =>
      rw [Plain.instruction_injective (Instruction.char_injective hc'), ih h']
    | stray hc' => exact absurd hc' a.char_ne_close
    | loop hc' => exact absurd hc' a.char_ne_open
  | stray hc _ ih =>
    subst hc
    cases h' with
    | comment hc' => cases hc'
    | plain a hc' => exact absurd hc'.symm a.char_ne_close
    | stray _ h' => rw [ih h']
    | loop hc' => cases hc'
  | loop hc htext hbody _ ihbody ih =>
    subst hc
    cases h' with
    | comment hc' => cases hc'
    | plain a hc' => exact absurd hc'.symm a.char_ne_open
    | stray hc' => cases hc'
    | loop _ htext' hbody' h' =>
      have hends := htext ▸ hbody.loopEnd? _
      have hends' := htext' ▸ hbody'.loopEnd? _
      have hlength := Option.some.inj (hends.symm.trans hends')
      obtain ⟨rfl, hafter⟩ := List.append_inj (htext.symm.trans htext') hlength
      cases hafter
      rw [ihbody hbody', ih h']

/-! ## One block at least -/

/-- The text up to the end of a loop is the body of this loop. -/
theorem exists_reads_body (ip : Nat) {k : Nat} {text : List Char}
    (h : Bracket.loopEnd? text = some k) : ∃ b, Reads false ip (text.take k) b := by
  -- behind an inner loop the text is shorter by more than one character
  induction hlength : text.length using Nat.strongRecOn generalizing ip k text with
  | _ n ih =>
    subst hlength
    cases text with
    | nil => cases h
    | cons c text =>
      rcases char_cases c with rfl | rfl | ⟨a, rfl⟩ | hno
      · rw [Bracket.loopEnd?, Bracket.loopEndFrom_open, Option.map_eq_some_iff] at h
        obtain ⟨m, hm, rfl⟩ := h
        obtain ⟨i, j, hi, hj, rfl⟩ := Bracket.exists_loopEnd_of_loopEndFrom_succ hm
        have hshorter := Bracket.length_drop_lt '[' text (i + 1)
        obtain ⟨body, hbody⟩ := ih _ (Nat.lt_succ_self _) (ip + 1) hi rfl
        obtain ⟨rest, hrest⟩ := ih _ hshorter (ip + 1 + (text.take i).length + 1) hj rfl
        exact ⟨_, .loop rfl (Bracket.take_of_loopEnd? hi j) hbody hrest⟩
      · rw [Bracket.loopEnd?, Bracket.loopEndFrom_close_zero, Option.some.injEq] at h
        subst h
        exact ⟨_, .done⟩
      · rw [Bracket.loopEnd?, Bracket.loopEndFrom_other a.char_ne_open a.char_ne_close,
          Option.map_eq_some_iff] at h
        obtain ⟨j, hj, rfl⟩ := h
        obtain ⟨b, hb⟩ := ih _ (Nat.lt_succ_self _) (ip + 1) hj rfl
        exact ⟨_, .plain a rfl hb⟩
      · rw [Bracket.loopEnd?, Bracket.loopEndFrom_other (ne_open_of_comment hno)
          (ne_close_of_comment hno), Option.map_eq_some_iff] at h
        obtain ⟨j, hj, rfl⟩ := h
        obtain ⟨b, hb⟩ := ih _ (Nat.lt_succ_self _) (ip + 1) hj rfl
        exact ⟨_, .comment hno hb⟩

/-- A text whose loops are all closed holds a block. -/
theorem exists_reads (ip : Nat) {text : List Char}
    (h : ∀ i, text[i]? = some '[' → (Bracket.loopEnd? (text.drop (i + 1))).isSome) :
    ∃ b, Reads true ip text b := by
  induction hlength : text.length using Nat.strongRecOn generalizing ip text with
  | _ n ih =>
    subst hlength
    cases text with
    | nil => exact ⟨_, .done⟩
    | cons c text =>
      have htext (i : Nat) (hi : text[i]? = some '[') :
          (Bracket.loopEnd? (text.drop (i + 1))).isSome := h (i + 1) hi
      rcases char_cases c with rfl | rfl | ⟨a, rfl⟩ | hno
      · obtain ⟨k, hk⟩ := Option.isSome_iff_exists.1 (h 0 rfl)
        have hk' : Bracket.loopEnd? text = some k := hk
        have hshorter := Bracket.length_drop_lt '[' text (k + 1)
        have hbehind (i : Nat) (hi : (text.drop (k + 1))[i]? = some '[') :
            (Bracket.loopEnd? ((text.drop (k + 1)).drop (i + 1))).isSome := by
          rw [List.getElem?_drop] at hi
          rw [List.drop_drop]
          exact htext (k + 1 + i) hi
        obtain ⟨body, hbody⟩ := exists_reads_body (ip + 1) hk'
        obtain ⟨rest, hrest⟩ := ih _ hshorter (ip + 1 + (text.take k).length + 1) hbehind rfl
        exact ⟨_, .loop rfl (Bracket.eq_append_of_loopEndFrom hk') hbody hrest⟩
      · obtain ⟨b, hb⟩ := ih _ (Nat.lt_succ_self _) (ip + 1) htext rfl
        exact ⟨_, .stray rfl hb⟩
      · obtain ⟨b, hb⟩ := ih _ (Nat.lt_succ_self _) (ip + 1) htext rfl
        exact ⟨_, .plain a rfl hb⟩
      · obtain ⟨b, hb⟩ := ih _ (Nat.lt_succ_self _) (ip + 1) htext rfl
        exact ⟨_, .comment hno hb⟩

end TapeMachine
