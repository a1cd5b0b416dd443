import TapeMachine.Proofs.Machine.Course
import TapeMachine.Proofs.Machine.Relocation
import TapeMachine.Proofs.Program.Embedding
set_option autoImplicit false

/-!
# Program: without its comments

`Text.instructions` is a text without its comments, and `Text.origin` tells where each of the
characters that remain has stood.  The loops around a character remain the same, since a comment
neither opens nor closes one.  So a text is accepted if and only if its instructions are, and the
brackets have the same partners at their places.

Main statement: an accepted text consists of its instructions with comments around them
(`commented_of_ofText`).  This is all that a run needs to know.
-/

namespace TapeMachine

/-- The characters that are not comments. -/
def Text.instructions (text : List Char) : List Char :=
  text.filter fun c => (Instruction.ofChar? c).isSome

/-- The index in the text of instruction number `i`, counted from 0.  The end of the text counts as
the place of the end of its instructions, and so on behind it. -/
def Text.origin : List Char → Nat → Nat
  | [], i => i
  | c :: text, i =>
    match Instruction.ofChar? c, i with
    | none, i => origin text i + 1
    | some _, 0 => 0
    | some _, i + 1 => origin text i + 1

example : (List.range 4).map (Text.origin "a+[é]".toList) = [1, 2, 4, 5] := by decide

/-- The source without its comments. -/
def Program.stripped (source : String) : String := String.ofList (Text.instructions source.toList)

/-- The index in `p` of instruction number `i`. -/
def Program.origin (p : Program) (i : Nat) : Nat := Text.origin p.code.toList i

/-- `p` consists of the instructions `q`, with comments around them, and `f` gives their places. -/
structure Program.Commented (f : Nat → Nat) (q p : Program) : Prop where
  code_eq : ∀ i, p.code[f i]? = q.code[i]?
  partner_eq : ∀ i, p.partner? (f i) = (q.partner? i).map f
  place_zero : p.place 0 = f (q.place 0)
  place_succ : ∀ i, p.place (f i + 1) = f (q.place (i + 1))

/-! ## The text -/

namespace Text

variable {c : Char} {text : List Char}

theorem instructions_comment (hno : Instruction.ofChar? c = none) (text : List Char) :
    instructions (c :: text) = instructions text := by
  simp [instructions, hno]

theorem instructions_instruction (j : Instruction) (text : List Char) :
    instructions (j.char :: text) = j.char :: instructions text := by
  simp [instructions]

theorem origin_comment (hno : Instruction.ofChar? c = none) (text : List Char) (i : Nat) :
    origin (c :: text) i = origin text i + 1 := by
  simp only [origin, hno]

theorem origin_instruction_zero (j : Instruction) (text : List Char) :
    origin (j.char :: text) 0 = 0 := by
  simp only [origin, Instruction.ofChar?_char]

theorem origin_instruction_succ (j : Instruction) (text : List Char) (i : Nat) :
    origin (j.char :: text) (i + 1) = origin text i + 1 := by
  simp only [origin, Instruction.ofChar?_char]

/-- An instruction stands at its place. -/
theorem getElem?_origin (text : List Char) (i : Nat) :
    text[origin text i]? = (instructions text)[i]? := by
  induction text generalizing i with
  | nil => rfl
  | cons c text ih =>
    rcases Run.ofChar?_cases c with hno | ⟨j, rfl⟩
    · rw [origin_comment hno, instructions_comment hno, List.getElem?_cons_succ, ih]
    · rw [instructions_instruction]
      cases i with
      | zero => rw [origin_instruction_zero]; rfl
      | succ i => rw [origin_instruction_succ, List.getElem?_cons_succ, List.getElem?_cons_succ, ih]

/-- The end of the instructions is the end of the text. -/
theorem origin_length (text : List Char) :
    origin text (instructions text).length = text.length := by
  induction text with
  | nil => rfl
  | cons c text ih =>
    rcases Run.ofChar?_cases c with hno | ⟨j, rfl⟩
    · rw [origin_comment hno, instructions_comment hno, ih, List.length_cons]
    · rw [instructions_instruction, List.length_cons, origin_instruction_succ, ih, List.length_cons]

/-- The next instruction is the first one behind this one. -/
theorem origin_succ (text : List Char) (i : Nat) : origin text (i + 1) =
    origin text i + 1 + origin (text.drop (origin text i + 1)) 0 := by
  induction text generalizing i with
  | nil => rfl
  | cons c text ih =>
    rcases Run.ofChar?_cases c with hno | ⟨j, rfl⟩
    · rw [origin_comment hno, origin_comment hno, ih, List.drop_succ_cons]
      omega
    · cases i with
      | zero =>
        rw [origin_instruction_succ, origin_instruction_zero, List.drop_succ_cons, List.drop_zero]
        omega
      | succ i =>
        rw [origin_instruction_succ, origin_instruction_succ, ih, List.drop_succ_cons]
        omega

theorem origin_lt_origin_succ (text : List Char) (i : Nat) :
    origin text i < origin text (i + 1) := by
  rw [origin_succ]
  omega

/-- The instructions keep their order. -/
theorem origin_lt_origin (text : List Char) {i j : Nat} (h : i < j) :
    origin text i < origin text j := by
  induction h with
  | refl => exact origin_lt_origin_succ text i
  | step _ ih => exact Nat.lt_trans ih (origin_lt_origin_succ text _)

/-- In front of the first instruction there are comments only. -/
theorem origin_zero (text : List Char) : origin text 0 =
    (text.takeWhile fun c => (Instruction.ofChar? c).isNone).length := by
  induction text with
  | nil => rfl
  | cons c text ih =>
    rcases Run.ofChar?_cases c with hno | ⟨j, rfl⟩
    · rw [origin_comment hno, ih, List.takeWhile_cons_of_pos (by simp [hno]), List.length_cons]
    · rw [origin_instruction_zero, List.takeWhile_cons_of_neg (by simp)]
      rfl

/-- A text of instructions has no comments. -/
theorem exists_char_of_mem_instructions (h : c ∈ instructions text) :
    ∃ j : Instruction, c = j.char := by
  rcases Run.ofChar?_cases c with hno | hinstruction
  · simp [instructions, hno] at h
  · exact hinstruction

end Text

/-! ## The loops -/

namespace Program

variable {p q : Program}

theorem place_eq_origin (p : Program) : p.place 0 = p.origin 0 := by
  rw [place, origin, Text.origin_zero, List.drop_zero, Nat.zero_add]

theorem place_origin_succ (p : Program) (i : Nat) :
    p.place (p.origin i + 1) = p.origin (i + 1) := by
  rw [origin, origin, Text.origin_succ, Text.origin_zero]
  rfl

/-- Where there are no comments, the next place is the place itself. -/
theorem place_of_instructions {text : List Char} (h : q.code.toList = Text.instructions text)
    (ip : Nat) : q.place ip = ip := by
  cases hc : q.code[ip]? with
  | none => exact place_of_end hc
  | some c =>
    have hmem : c ∈ q.code.toList := List.mem_of_getElem? ((Array.getElem?_toList ..).trans hc)
    rw [h] at hmem
    obtain ⟨j, rfl⟩ := Text.exists_char_of_mem_instructions hmem
    exact place_of_instruction hc

/-- Comments neither open nor close a loop. -/
theorem openAt_of_comments {ip stop : Nat} (h : p.Comments ip stop) :
    p.openAt stop = p.openAt ip := by
  induction h with
  | refl => rfl
  | step hc hno _ ih =>
    rw [ih, openAt_succ_other hc (ne_open_of_comment hno) (ne_close_of_comment hno)]

theorem openAt_place (p : Program) (ip : Nat) : p.openAt (p.place ip) = p.openAt ip :=
  openAt_of_comments (p.comments_place ip).1

theorem code_origin (h : q.code.toList = Text.instructions p.code.toList) (i : Nat) :
    p.code[p.origin i]? = q.code[i]? := by
  rw [← Array.getElem?_toList, ← Array.getElem?_toList, h]
  exact Text.getElem?_origin _ i

/-- Around an instruction the same loops are open. -/
theorem openAt_origin (h : q.code.toList = Text.instructions p.code.toList) {i : Nat}
    (hi : i ≤ q.length) : p.openAt (p.origin i) = (q.openAt i).map p.origin := by
  have hzero : p.openAt (p.origin 0) = [] := by rw [← place_eq_origin, openAt_place, openAt_zero]
  have hnext (i : Nat) : p.openAt (p.origin (i + 1)) = p.openAt (p.origin i + 1) := by
    rw [← place_origin_succ, openAt_place]
  have hcode (i : Nat) : p.code.toList[p.origin i]? = q.code.toList[i]? := by
    rw [Array.getElem?_toList, Array.getElem?_toList]
    exact code_origin h i
  exact Bracket.openAt_spread (fun i _ => hcode i) hzero (fun i _ => hnext i) hi

theorem origin_end (h : q.code.toList = Text.instructions p.code.toList) :
    p.origin q.length = p.length := by
  unfold origin length
  rw [← Array.length_toList, h, ← Array.length_toList]
  exact Text.origin_length _

/-! ## The program -/

/-- What is left open at the end. -/
theorem openAt_length_instructions (text : List Char) : Bracket.openAt text text.length =
    (Bracket.openAt (Text.instructions text) (Text.instructions text).length).map
      (Text.origin text) := by
  have hcode : (Program.mk (Text.instructions text).toArray #[]).code.toList =
      Text.instructions (Program.mk text.toArray #[]).code.toList := rfl
  have hopen := openAt_origin hcode (Nat.le_refl _)
  rw [origin_end hcode] at hopen
  exact hopen

/-- Comments do not make a text acceptable and keep none from being accepted. -/
theorem exists_ofText_instructions (text : List Char) :
    (∃ p, ofText text = .ok p) ↔ ∃ q, ofText (Text.instructions text) = .ok q := by
  rw [exists_ofText_iff, exists_ofText_iff, openAt_length_instructions, List.map_eq_nil_iff]

/-- The fault is the same, at its place in the text. -/
theorem ofText_eq_error_instructions (text : List Char) (fault : Fault) :
    ofText text = .error fault ↔
      ∃ fault', ofText (Text.instructions text) = .error fault' ∧
        fault = fault'.relocated (Text.origin text) := by
  rw [ofText_eq_error_iff, openAt_length_instructions, List.head?_map]
  simp only [ofText_eq_error_iff, Option.map_eq_some_iff]
  constructor
  · rintro ⟨_, rfl, ip, hip, rfl⟩
    exact ⟨.unclosedLoop ip, ⟨ip, rfl, hip⟩, rfl⟩
  · rintro ⟨_, ⟨ip, rfl, hip⟩, rfl⟩
    exact ⟨_, rfl, ip, hip, rfl⟩

/-- The brackets have the same partners at their places. -/
theorem partner_origin (hp : p.Paired) (hq : q.Paired)
    (h : q.code.toList = Text.instructions p.code.toList) (i : Nat) :
    p.partner? (p.origin i) = (q.partner? i).map p.origin := by
  have hembeds : Embeds p.origin q p :=
    ⟨fun i _ => code_origin h i, fun i hi => openAt_origin h (Nat.le_of_lt hi)⟩
  exact hembeds.partner?_eq_of_code hq hp (code_origin h) i

/-- An accepted text consists of its instructions, with comments around them. -/
theorem commented_of_ofText {text : List Char} (hp : ofText text = .ok p)
    (hq : ofText (Text.instructions text) = .ok q) : Commented (Text.origin text) q p := by
  have hcode : q.code.toList = Text.instructions p.code.toList := by
    rw [toList_code_of_ofText hp, toList_code_of_ofText hq]
  have horigin : p.origin = Text.origin text := by
    unfold origin
    rw [toList_code_of_ofText hp]
  rw [← horigin]
  constructor
  case code_eq => exact code_origin hcode
  case partner_eq => exact partner_origin (paired_of_ofText hp) (paired_of_ofText hq) hcode
  case place_zero =>
    rw [place_of_instructions hcode]
    exact place_eq_origin p
  case place_succ =>
    intro i
    rw [place_of_instructions hcode]
    exact place_origin_succ p i

end Program

end TapeMachine
