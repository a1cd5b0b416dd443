import TapeMachine.Proofs.Block.Evaluation
set_option autoImplicit false

/-!
# Block: its place in a program

Where the items of a block stand in the code of a program, comments between them.  A loop of the block
is a loop of the program, and a stray bracket has no partner there, so the table of partners need not
be looked at again.

Main statement: the block that a text holds stands where the text stands (`placed_of_reads`).
-/

namespace TapeMachine

/-- From `ip` up to `stop` there are comments only. -/
inductive Program.Comments (p : Program) : Nat → Nat → Prop
  | refl (ip : Nat) : Comments p ip ip
  | step {ip stop : Nat} {c : Char} (hc : p.code[ip]? = some c)
      (hno : Instruction.ofChar? c = none) (h : Comments p (ip + 1) stop) : Comments p ip stop

/-- The block stands in the program from `ip` up to `stop`. -/
def Block.Placed (p : Program) (ip stop : Nat) : Block → Prop
  | done => p.Comments ip stop
  | plain i a rest =>
    p.Comments ip i ∧ p.code[i]? = some a.instruction.char ∧ rest.Placed p (i + 1) stop
  | stray i rest =>
    p.Comments ip i ∧ p.code[i]? = some ']' ∧ p.partner? i = none ∧ rest.Placed p (i + 1) stop
  | loop i body rest =>
    p.Comments ip i ∧ ∃ c, p.IsLoop i c ∧ body.Placed p (i + 1) c ∧ rest.Placed p (c + 1) stop

/-- The machine that does this work is at `ip` with the frames `frames` when the work begins, and at
`stop` with the frames `outer` when the work is done. -/
def Work.Stands (p : Program) (frames : List Nat) (ip : Nat) (outer : List Nat) (stop : Nat) :
    Work → Prop
  | block b => frames = outer ∧ b.Placed p ip stop
  | passes body entry =>
    frames = entry :: outer ∧
      ∃ o c, p.IsLoop o c ∧ ip = o + 1 ∧ stop = c + 1 ∧ body.Placed p (o + 1) c

variable {p : Program} {ip stop : Nat}

/-- A comment in front of a block. -/
theorem Block.Placed.comment {b : Block} {c : Char} (h : b.Placed p (ip + 1) stop)
    (hc : p.code[ip]? = some c) (hno : Instruction.ofChar? c = none) : b.Placed p ip stop := by
  cases b with
  | done => exact .step hc hno h
  | plain i a rest => exact ⟨.step hc hno h.1, h.2⟩
  | stray i rest => exact ⟨.step hc hno h.1, h.2⟩
  | loop i body rest => exact ⟨.step hc hno h.1, h.2⟩

/-! ## From the text to the program -/

theorem code_of_drop {c : Char} {text : List Char} (h : p.code.toList.drop ip = c :: text) :
    p.code[ip]? = some c := by
  rw [← Array.getElem?_toList, ← Nat.add_zero ip, ← List.getElem?_drop, h]
  rfl

theorem drop_add_of_drop {a b : List Char} (h : p.code.toList.drop ip = a ++ b) :
    p.code.toList.drop (ip + a.length) = b := by
  rw [← List.drop_drop, h, List.drop_left]

theorem drop_succ_of_drop {c : Char} {text : List Char} (h : p.code.toList.drop ip = c :: text) :
    p.code.toList.drop (ip + 1) = text :=
  drop_add_of_drop (a := [c]) h

theorem add_length_cons (ip : Nat) (c : Char) (text : List Char) :
    ip + (c :: text).length = ip + 1 + text.length := by
  rw [List.length_cons, Nat.add_assoc, Nat.add_comm 1]

/-- The block of a part of the text stands where this part stands. -/
theorem placed_of_reads (hp : p.Paired) {top : Bool} {text after : List Char} {b : Block}
    (h : Reads top ip text b) (htext : p.code.toList.drop ip = text ++ after)
    (htop : top = true → p.openAt ip = []) : b.Placed p ip (ip + text.length) := by
  induction h generalizing after with
  | done => exact .refl _
  | @comment _ ip c text _ hno _ ih =>
    have hc := code_of_drop htext
    have hopen := Program.openAt_succ_other hc (ne_open_of_comment hno) (ne_close_of_comment hno)
    have hrest := ih (drop_succ_of_drop htext) fun ht => hopen.trans (htop ht)
    rw [add_length_cons]
    exact hrest.comment hc hno
  | @plain _ ip c text _ a hchar _ ih =>
    subst hchar
    have hc := code_of_drop htext
    have hopen := Program.openAt_succ_other hc a.char_ne_open a.char_ne_close
    have hrest := ih (drop_succ_of_drop htext) fun ht => hopen.trans (htop ht)
    rw [add_length_cons]
    exact ⟨.refl _, hc, hrest⟩
  | @stray ip c text _ hchar _ ih =>
    subst hchar
    have hc := code_of_drop htext
    have hrest := ih (drop_succ_of_drop htext) fun ht =>
      Program.openAt_succ_stray hc (htop rfl)
    rw [add_length_cons]
    rcases hp.stray_or_loop hc with ⟨hnone, -⟩ | ⟨o, hloop⟩
    · exact ⟨.refl _, hc, hnone, hrest⟩
    · have hopen := hloop.openAt_closing
      rw [htop rfl] at hopen
      cases hopen
  | @loop _ ip c text body behind _ _ hchar hbehind hbody _ ihbody ih =>
    subst hchar hbehind
    rw [List.cons_append, List.append_assoc] at htext
    have hc := code_of_drop htext
    have hinside := drop_succ_of_drop htext
    have hend : Bracket.loopEnd? (p.code.toList.drop (ip + 1)) = some body.length := by
      rw [hinside]
      exact hbody.loopEnd? _
    have hloop := hp.loop_of_loopEnd hc hend
    have houtside := drop_succ_of_drop (drop_add_of_drop hinside)
    have hrest := ih houtside fun ht => hloop.openAt_behind.trans (htop ht)
    rw [add_length_cons, List.length_append, ← Nat.add_assoc, add_length_cons]
    exact ⟨.refl _, _, hloop, ihbody hinside nofun, hrest⟩

/-- The block of a whole program stands in it from the start to the end. -/
theorem placed_of_reads_code (hp : p.Paired) {b : Block} (h : Reads true 0 p.code.toList b) :
    b.Placed p 0 p.length := by
  have hplaced := placed_of_reads hp h (List.append_nil _).symm fun _ => Program.openAt_zero p
  rwa [Nat.zero_add, Array.length_toList] at hplaced

/-- A paired program holds a block. -/
theorem exists_reads_code (hp : p.Paired) : ∃ b, Reads true 0 p.code.toList b :=
  exists_reads 0 (Bracket.exists_partners_iff.1 ⟨p.partners, hp⟩)

end TapeMachine
