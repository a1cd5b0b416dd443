import TapeMachine.Proofs.Machine.Effect
set_option autoImplicit false

/-!
# Program: level loops

How far the moves in front of a place lead to the right, counted without a left end.  A loop is
level if its body has as many moves to the right as to the left.  In front of and behind a level
loop the count is the same, and so it is at every place where the machine can arrive by a jump.

Main statement: the pointer follows the count in every instruction, as long as no move to the left
meets the end of the row (`pointer_of_perform`).
-/

namespace TapeMachine

/-- How far the moves of a text lead to the right. -/
def Text.drift (text : List Char) : Int := (text.count '>' : Int) - text.count '<'

namespace Program

/-- How far the moves in front of `ip` lead to the right. -/
def drift (p : Program) (ip : Nat) : Int := Text.drift (p.code.toList.take ip)

/-- The text between the characters at `o` and at `c`. -/
def between (p : Program) (o c : Nat) : List Char := (p.code.toList.take c).drop (o + 1)

/-- The body of every loop has as many moves to the right as to the left. -/
def Level (p : Program) : Prop :=
  ∀ o < p.length, ∀ c ∈ p.partner? o, o < c →
    (p.between o c).count '>' = (p.between o c).count '<'

instance (p : Program) : Decidable p.Level :=
  inferInstanceAs (Decidable (∀ o < p.length, ∀ c ∈ p.partner? o, o < c →
    (p.between o c).count '>' = (p.between o c).count '<'))

end Program

theorem Text.drift_append (a b : List Char) : drift (a ++ b) = drift a + drift b := by
  simp only [drift, List.count_append, Int.natCast_add]
  omega

namespace Program

variable {p : Program} {ip o c : Nat} {char : Char}

@[simp] theorem drift_zero (p : Program) : p.drift 0 = 0 := rfl

theorem drift_succ (hc : p.code[ip]? = some char) :
    p.drift (ip + 1) = p.drift ip + Text.drift [char] := by
  have hc' : p.code.toList[ip]? = some char := (Array.getElem?_toList ..).trans hc
  rw [drift, List.take_add_one, hc', Text.drift_append]
  rfl

theorem drift_succ_right (hc : p.code[ip]? = some '>') : p.drift (ip + 1) = p.drift ip + 1 :=
  drift_succ hc

theorem drift_succ_left (hc : p.code[ip]? = some '<') : p.drift (ip + 1) = p.drift ip - 1 :=
  drift_succ hc

theorem drift_succ_other (hc : p.code[ip]? = some char) (hright : char ≠ '>') (hleft : char ≠ '<') :
    p.drift (ip + 1) = p.drift ip := by
  rw [drift_succ hc]
  simp [Text.drift, hright, hleft]

theorem drift_body (hloop : p.IsLoop o c) : p.drift (o + 1) = p.drift o :=
  drift_succ_other hloop.opens (by decide) (by decide)

/-- The body of a level loop leads to where it began. -/
theorem Level.drift_closing (h : p.Level) (hloop : p.IsLoop o c) : p.drift c = p.drift o := by
  have hbody := h o (Nat.lt_trans hloop.lt hloop.closing_lt) c hloop.partner_opening hloop.lt
  have hsplit : p.code.toList.take c = p.code.toList.take (o + 1) ++ p.between o c := by
    have htake : (p.code.toList.take c).take (o + 1) = p.code.toList.take (o + 1) := by
      rw [List.take_take, Nat.min_eq_left hloop.lt]
    rw [← htake]
    exact (List.take_append_drop (o + 1) _).symm
  calc p.drift c = p.drift (o + 1) + Text.drift (p.between o c) := by
        rw [drift, hsplit, Text.drift_append, drift]
    _ = p.drift (o + 1) := by
        rw [Text.drift, hbody]
        omega
    _ = p.drift o := drift_body hloop

/-- Behind a level loop the count is as in front of it. -/
theorem Level.drift_behind (h : p.Level) (hloop : p.IsLoop o c) : p.drift (c + 1) = p.drift o :=
  (drift_succ_other hloop.closes (by decide) (by decide)).trans (h.drift_closing hloop)

end Program

/-! ## The pointer -/

namespace Machine

variable {p : Program} {policy : EofPolicy} {m done : Machine} {row : Row}

theorem pointer_of_enter (hp : p.Paired) (hlevel : p.Level) (hi : p.code[m.ip]? = some '[')
    (h : m.perform p policy .enter = .ok (done, row))
    (hdrift : (m.tape.pointer : Int) = p.drift m.ip) :
    (done.tape.pointer : Int) = p.drift done.ip := by
  obtain ⟨c, hloop⟩ := hp.exists_loop hi
  simp only [perform, hloop.partner_opening] at h
  split at h
  · cases h
    exact hdrift.trans (hlevel.drift_behind hloop).symm
  · cases h
    exact hdrift.trans (Program.drift_body hloop).symm

theorem pointer_of_again (hp : p.Paired) (hlevel : p.Level) (hi : p.code[m.ip]? = some ']')
    (h : m.perform p policy .again = .ok (done, row))
    (hdrift : (m.tape.pointer : Int) = p.drift m.ip) :
    (done.tape.pointer : Int) = p.drift done.ip := by
  have hnext : p.drift (m.ip + 1) = p.drift m.ip :=
    Program.drift_succ_other hi (by decide) (by decide)
  rcases hp.stray_or_loop hi with ⟨hnone, -⟩ | ⟨o, hloop⟩
  · simp only [perform, hnone] at h
    cases h
    exact hdrift.trans hnext.symm
  · simp only [perform, hloop.partner_closing] at h
    repeat' split at h
    · cases h
    · cases h
      exact hdrift.trans hnext.symm
    · cases h
      rw [hlevel.drift_closing hloop, ← Program.drift_body hloop] at hdrift
      exact hdrift

/-- In a program whose loops are level, the pointer is where the moves in front of the place lead,
as long as it is not moved off the left end. -/
theorem pointer_of_perform (hp : p.Paired) (hlevel : p.Level) {i : Instruction}
    (hi : p.code[m.ip]? = some i.char) (hleft : i = .left → m.tape.pointer ≠ 0)
    (h : m.perform p policy i = .ok (done, row))
    (hdrift : (m.tape.pointer : Int) = p.drift m.ip) :
    (done.tape.pointer : Int) = p.drift done.ip := by
  have hother (hright : i.char ≠ '>') (hleft : i.char ≠ '<') :
      (m.tape.pointer : Int) = p.drift (m.ip + 1) :=
    hdrift.trans (Program.drift_succ_other hi hright hleft).symm
  cases i with
  | right =>
    cases h
    simp only [Tape.pointer_advance, Program.drift_succ_right hi]
    omega
  | left =>
    have hpositive := hleft rfl
    cases h
    simp only [Tape.pointer_retreat, Program.drift_succ_left hi]
    omega
  | increment => cases h; exact hother (by decide) (by decide)
  | decrement => cases h; exact hother (by decide) (by decide)
  | put => cases h; exact hother (by decide) (by decide)
  | get =>
    simp only [perform] at h
    split at h <;> cases h <;> exact hother (by decide) (by decide)
  | enter => exact pointer_of_enter hp hlevel hi h hdrift
  | again => exact pointer_of_again hp hlevel hi h hdrift

end Machine

end TapeMachine
