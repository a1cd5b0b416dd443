import TapeMachine.Machine
set_option autoImplicit false

/-!
# Machine: the input and nothing else

Of all instructions only the read looks at the input, and all it learns of it is the byte it gets
(`EofPolicy.byte?`).  The input after a number of reads is known from that number (`Input.after`).

Main statements: what a read does in these terms (`perform_get_of_byte?` and
`perform_get_of_exhausted`), and that every other instruction does the same on whatever input
(`perform_withInput`).
-/

namespace TapeMachine

/-- The byte that read number `reads`, counted from 0, gives; nothing if it finds no input and this
is a fault. -/
def EofPolicy.byte? (policy : EofPolicy) (bytes : List UInt8) (reads : Nat) : Option UInt8 :=
  match policy with
  | error => bytes[reads]?
  | zero => some (bytes.getD reads 0)

/-- The input after so many reads, of which those beyond the last byte have taken nothing. -/
def Input.after (bytes : List UInt8) (reads : Nat) : Input :=
  ⟨bytes.drop reads, min reads bytes.length⟩

/-- The same machine in front of another input. -/
def Machine.withInput (input : Input) (m : Machine) : Machine := { m with input := input }

/-! ## The bytes that are read -/

section Bytes

variable {bytes : List UInt8} {policy : EofPolicy} {reads : Nat} {b : UInt8}

/-- There is no byte if and only if reading past the end is a fault and the end is reached. -/
theorem EofPolicy.byte?_eq_none_iff :
    policy.byte? bytes reads = none ↔ policy = .error ∧ bytes.length ≤ reads := by
  cases policy with
  | error => simp [byte?]
  | zero => simp [byte?]

theorem EofPolicy.byte?_of_getElem? (policy : EofPolicy) (h : bytes[reads]? = some b) :
    policy.byte? bytes reads = some b := by
  cases policy with
  | error => exact h
  | zero => simp [byte?, h]

theorem Input.after_zero (bytes : List UInt8) : Input.after bytes 0 = Input.ofBytes bytes := by
  simp [after, ofBytes]

/-- Nothing is left once there have been as many reads as there are bytes. -/
theorem Input.rest_after_eq_nil_iff : (Input.after bytes reads).rest = [] ↔ bytes.length ≤ reads :=
  List.drop_eq_nil_iff

theorem Input.next?_after_of_lt (h : reads < bytes.length) :
    (Input.after bytes reads).next? = some (bytes[reads], Input.after bytes (reads + 1)) := by
  have hposition : min (reads + 1) bytes.length = min reads bytes.length + 1 := by omega
  unfold after
  rw [List.drop_eq_getElem_cons h, next?_cons, hposition]

theorem Input.next?_after_of_le (h : bytes.length ≤ reads) :
    (Input.after bytes reads).next? = none := by
  unfold after
  rw [List.drop_eq_nil_of_le h]
  rfl

/-- At the end one more read takes nothing. -/
theorem Input.after_succ_of_le (h : bytes.length ≤ reads) :
    Input.after bytes (reads + 1) = Input.after bytes reads := by
  unfold after
  rw [List.drop_eq_nil_of_le h, List.drop_eq_nil_of_le (Nat.le_succ_of_le h), Nat.min_eq_right h,
    Nat.min_eq_right (Nat.le_succ_of_le h)]

end Bytes

namespace Machine

variable {p : Program} {policy policy' : EofPolicy} {i : Instruction} {m done : Machine} {row : Row}
  {bytes : List UInt8} {reads : Nat} {b : UInt8}

/-! ## Reads -/

/-- A read stores the byte it gets. -/
theorem perform_get_of_byte? (p : Program) (hinput : m.input = Input.after bytes reads)
    (hb : policy.byte? bytes reads = some b) :
    m.perform p policy .get = .ok
      ({ m with tape := m.tape.write b, input := Input.after bytes (reads + 1), ip := m.ip + 1 },
        ⟨m.ip, m.tape.pointer, m.tape.read, .get,
          .got (Input.after bytes (reads + 1)).position b⟩) := by
  rcases Nat.lt_or_ge reads bytes.length with hlt | hge
  · obtain rfl : bytes[reads] = b := by
      have hbyte := policy.byte?_of_getElem? (List.getElem?_eq_getElem hlt)
      exact Option.some.inj (hbyte.symm.trans hb)
    simp only [perform, hinput, Input.next?_after_of_lt hlt]
  · cases policy with
    | error =>
      rw [EofPolicy.byte?_eq_none_iff.2 ⟨rfl, hge⟩] at hb
      cases hb
    | zero =>
      obtain rfl : 0 = b := by simpa [EofPolicy.byte?, hge] using hb
      simp only [perform, hinput, Input.next?_after_of_le hge, Input.after_succ_of_le hge]

/-- A read that gets no byte fails, the whole input having been consumed. -/
theorem perform_get_of_exhausted (p : Program) (hinput : m.input = Input.after bytes reads)
    (hb : policy.byte? bytes reads = none) :
    m.perform p policy .get = .error (.inputExhausted m.ip bytes.length) := by
  obtain ⟨rfl, hge⟩ := EofPolicy.byte?_eq_none_iff.1 hb
  have hposition : (Input.after bytes reads).position = bytes.length := Nat.min_eq_right hge
  simp only [perform, hinput, Input.next?_after_of_le hge, hposition]

/-- Only a read fails for want of input. -/
theorem eq_get_of_exhausted {ip consumed : Nat}
    (h : m.perform p policy i = .error (.inputExhausted ip consumed)) : i = .get := by
  cases i with
  | get => rfl
  | enter =>
    simp only [perform] at h
    repeat' split at h
    all_goals cases h
  | again =>
    simp only [perform] at h
    repeat' split at h
    all_goals cases h
  | _ => cases h

/-! ## Other instructions -/

/-- An instruction other than a read does the same in front of every input and under every policy. -/
theorem perform_withInput (p : Program) (policy policy' : EofPolicy) (hi : i ≠ .get) (m : Machine)
    (input : Input) :
    (m.withInput input).perform p policy' i =
      (m.perform p policy i).map fun done => (done.1.withInput input, done.2) := by
  cases i with
  | get => exact absurd rfl hi
  | enter =>
    have hpartner : p.partner? (m.withInput input).ip = p.partner? m.ip := rfl
    cases hclose : p.partner? m.ip with
    | none =>
      simp only [perform, hpartner, hclose]
      rfl
    | some close =>
      by_cases hzero : m.tape.read = 0
      · have hzero' : (m.withInput input).tape.read = 0 := hzero
        simp only [perform, hpartner, hclose, if_pos hzero, if_pos hzero']
        rfl
      · have hzero' : ¬(m.withInput input).tape.read = 0 := hzero
        simp only [perform, hpartner, hclose, if_neg hzero, if_neg hzero']
        rfl
  | again =>
    have hpartner : p.partner? (m.withInput input).ip = p.partner? m.ip := rfl
    have hsame : (m.withInput input).frames = m.frames := rfl
    cases hopening : p.partner? m.ip with
    | none =>
      simp only [perform, hpartner, hopening]
      rfl
    | some opening =>
      cases hframes : m.frames with
      | nil =>
        simp only [perform, hpartner, hopening, hsame, hframes]
        rfl
      | cons entry outer =>
        by_cases hzero : m.tape.cell entry = 0
        · have hzero' : (m.withInput input).tape.cell entry = 0 := hzero
          simp only [perform, hpartner, hopening, hsame, hframes, if_pos hzero, if_pos hzero']
          rfl
        · have hzero' : ¬(m.withInput input).tape.cell entry = 0 := hzero
          simp only [perform, hpartner, hopening, hsame, hframes, if_neg hzero, if_neg hzero']
          rfl
  | _ => rfl

/-- An instruction other than a read leaves the input alone. -/
theorem input_of_perform (hi : i ≠ .get) (h : m.perform p policy i = .ok (done, row)) :
    done.input = m.input := by
  have hsame := perform_withInput p policy policy hi m m.input
  have hself : m.withInput m.input = m := rfl
  rw [hself, h] at hsame
  have hdone : done = done.withInput m.input := congrArg Prod.fst (Except.ok.inj hsame)
  rw [hdone]
  rfl

end Machine

end TapeMachine
