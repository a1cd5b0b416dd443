import TapeMachine.Machine
import TapeMachine.Proofs.Program.Nesting
set_option autoImplicit false

/-!
# Machine: what an instruction does

`Machine.perform` said once for every use.  Six of the instructions are plain: they work on the tape,
the input and the output, which together are the `Store`, and go on with the next character.  The two
brackets leave the store alone and decide where to go on.

There is one equation for each thing a bracket can do (`perform_enter_of_zero` and those after it),
and `perform_plain_ok` and `perform_plain_exhausted` give the plain ones through `Plain.apply`.
-/

namespace TapeMachine

/-- An instruction other than the two brackets. -/
inductive Plain
  | right
  | left
  | increment
  | decrement
  | put
  | get
  deriving DecidableEq, Repr, Inhabited

/-- The plain instruction among all instructions. -/
def Plain.instruction : Plain → Instruction
  | right => .right
  | left => .left
  | increment => .increment
  | decrement => .decrement
  | put => .put
  | get => .get

/-- What a program works on: the machine without its place in the program. -/
structure Store where
  tape : Tape
  input : Input
  output : Array UInt8
  deriving DecidableEq, Repr, Inhabited

/-- What a piece of a program leads to. -/
inductive Result
  | ok (store : Store)
  /-- The read at `ip` found the input used up, `consumed` bytes having been read. -/
  | exhausted (ip consumed : Nat)
  deriving DecidableEq, Repr, Inhabited

/-- The effect of the plain instruction that stands at `ip`. -/
def Plain.apply (policy : EofPolicy) (ip : Nat) (a : Plain) (s : Store) : Result :=
  match a with
  | right => .ok { s with tape := s.tape.advance }
  | left => .ok { s with tape := s.tape.retreat }
  | increment => .ok { s with tape := s.tape.increment }
  | decrement => .ok { s with tape := s.tape.decrement }
  | put => .ok { s with output := s.output.push s.tape.read }
  | get =>
    match s.input.rest, policy with
    | b :: rest, _ => .ok { s with tape := s.tape.write b, input := ⟨rest, s.input.position + 1⟩ }
    | [], .zero => .ok { s with tape := s.tape.write 0 }
    | [], .error => .exhausted ip s.input.position

/-- The store before the first instruction. -/
def Store.start (input : List UInt8) : Store := ⟨Tape.fresh, Input.ofBytes input, #[]⟩

/-- The machine that works on this store, in these loops and at this place. -/
def Store.machine (s : Store) (frames : List Nat) (ip : Nat) : Machine :=
  ⟨s.tape, s.input, s.output, frames, ip⟩

/-- The store that a machine works on. -/
def Machine.store (m : Machine) : Store := ⟨m.tape, m.input, m.output⟩

theorem Instruction.bracket_or_plain (i : Instruction) :
    i = .enter ∨ i = .again ∨ ∃ a : Plain, i = a.instruction := by
  cases i with
  | enter => exact .inl rfl
  | again => exact .inr (.inl rfl)
  | right => exact .inr (.inr ⟨.right, rfl⟩)
  | left => exact .inr (.inr ⟨.left, rfl⟩)
  | increment => exact .inr (.inr ⟨.increment, rfl⟩)
  | decrement => exact .inr (.inr ⟨.decrement, rfl⟩)
  | put => exact .inr (.inr ⟨.put, rfl⟩)
  | get => exact .inr (.inr ⟨.get, rfl⟩)

@[simp] theorem Plain.char_ne_open (a : Plain) : a.instruction.char ≠ '[' := by
  cases a <;> decide

@[simp] theorem Plain.char_ne_close (a : Plain) : a.instruction.char ≠ ']' := by
  cases a <;> decide

theorem Plain.instruction_injective {a b : Plain} (h : a.instruction = b.instruction) : a = b := by
  cases a <;> cases b <;> first | rfl | cases h

/-! ## Plain instructions -/

namespace Machine

variable {p : Program} {policy : EofPolicy} {s s' : Store} {ip : Nat}

theorem perform_plain_ok (p : Program) (frames : List Nat) {a : Plain}
    (h : a.apply policy ip s = .ok s') :
    ∃ row, (s.machine frames ip).perform p policy a.instruction =
      .ok (s'.machine frames (ip + 1), row) := by
  cases a with
  | get =>
    obtain ⟨tape, ⟨rest, position⟩, output⟩ := s
    cases rest with
    | nil =>
      cases policy with
      | error => cases h
      | zero => cases h; exact ⟨_, rfl⟩
    | cons b rest => cases h; exact ⟨_, rfl⟩
  | _ => cases h; exact ⟨_, rfl⟩

theorem perform_plain_exhausted (p : Program) (frames : List Nat) {a : Plain} {i consumed : Nat}
    (h : a.apply policy ip s = .exhausted i consumed) :
    (s.machine frames ip).perform p policy a.instruction = .error (.inputExhausted i consumed) := by
  cases a with
  | get =>
    obtain ⟨tape, ⟨rest, position⟩, output⟩ := s
    cases rest with
    | nil =>
      cases policy with
      | error => cases h; rfl
      | zero => cases h
    | cons b rest => cases h
  | _ => cases h

/-! ## Brackets -/

section Brackets

variable {o c entry : Nat} {outer : List Nat} {m : Machine} (policy)

theorem perform_enter_of_zero (hp : p.partner? m.ip = some c) (h : m.tape.read = 0) :
    ∃ row, m.perform p policy .enter = .ok ({ m with ip := c + 1 }, row) := by
  simp only [perform, hp, if_pos h]
  exact ⟨_, rfl⟩

theorem perform_enter_of_ne_zero (hp : p.partner? m.ip = some c) (h : m.tape.read ≠ 0) :
    ∃ row, m.perform p policy .enter =
      .ok ({ m with frames := m.tape.pointer :: m.frames, ip := m.ip + 1 }, row) := by
  simp only [perform, hp, if_neg h]
  exact ⟨_, rfl⟩

theorem perform_again_of_stray (hp : p.partner? m.ip = none) :
    ∃ row, m.perform p policy .again = .ok ({ m with ip := m.ip + 1 }, row) := by
  simp only [perform, hp]
  exact ⟨_, rfl⟩

theorem perform_again_of_zero (hp : p.partner? m.ip = some o) (hf : m.frames = entry :: outer)
    (h : m.tape.cell entry = 0) :
    ∃ row, m.perform p policy .again =
      .ok ({ m with frames := outer, ip := m.ip + 1 }, row) := by
  simp only [perform, hp, hf, if_pos h]
  exact ⟨_, rfl⟩

theorem perform_again_of_ne_zero (hp : p.partner? m.ip = some o) (hf : m.frames = entry :: outer)
    (h : m.tape.cell entry ≠ 0) :
    ∃ row, m.perform p policy .again = .ok ({ m with ip := o + 1 }, row) := by
  simp only [perform, hp, hf, if_neg h]
  exact ⟨_, rfl⟩

end Brackets

/-! ## The output -/

/-- Only the output instruction puts something out, and that is the value under the pointer. -/
theorem output_of_perform {i : Instruction} {m m' : Machine} {row : Row}
    (h : m.perform p policy i = .ok (m', row)) :
    m'.output = if i = .put then m.output.push m.tape.read else m.output := by
  cases i with
  | put => cases h; rfl
  | _ =>
    simp only [perform] at h
    repeat' split at h
    all_goals cases h <;> rfl

/-! ## What plain instructions keep -/

theorem wellFormed_of_apply {a : Plain} (ht : s.tape.WellFormed)
    (h : a.apply policy ip s = .ok s') : s'.tape.WellFormed := by
  obtain ⟨row, hrow⟩ := perform_plain_ok default [] h
  exact wellFormed_of_perform ht hrow

/-- The row of cells never shrinks. -/
theorem size_le_of_apply {a : Plain} (ht : s.tape.WellFormed)
    (h : a.apply policy ip s = .ok s') : s.tape.size ≤ s'.tape.size := by
  cases a with
  | right =>
    cases h
    rw [Tape.size_advance ht]
    exact Nat.le_max_left _ _
  | left => cases h; exact Nat.le_refl _
  | increment => cases h; exact Nat.le_of_eq (Tape.size_write _ _).symm
  | decrement => cases h; exact Nat.le_of_eq (Tape.size_write _ _).symm
  | put => cases h; exact Nat.le_refl _
  | get =>
    simp only [Plain.apply] at h
    split at h
    · cases h; exact Nat.le_of_eq (Tape.size_write _ _).symm
    · cases h; exact Nat.le_of_eq (Tape.size_write _ _).symm
    · cases h

/-- What has been read and what has not make up the input. -/
theorem position_add_of_apply {a : Plain} (h : a.apply policy ip s = .ok s') :
    s'.input.position + s'.input.rest.length = s.input.position + s.input.rest.length := by
  cases a with
  | get =>
    simp only [Plain.apply] at h
    split at h
    · next b rest hrest =>
      cases h
      simp only [hrest, List.length_cons]
      omega
    · cases h; rfl
    · cases h
  | _ => cases h; rfl

end Machine

end TapeMachine
