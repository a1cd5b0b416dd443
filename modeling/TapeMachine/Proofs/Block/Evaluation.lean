import TapeMachine.Proofs.Block.Reading
set_option autoImplicit false

/-!
# Block: evaluation

What a block does, by recursion on its loops and without a place in the program.  A loop is entered if
the current cell is not zero.  Its body is then executed from the start again and again, and after
each pass the cell that was current at the entry decides, wherever the pointer is by then.

`Eval policy work s steps result` says that the work begun on the store `s` comes to an end with this
result, and that this takes so many steps: one for each plain instruction, for each stray bracket, for
each arrival at the start of a loop and for each arrival at the end of a loop.  Work that never ends
has no result at all.

Main statement: there is at most one result and one number of steps (`Eval.unique`).
-/

namespace TapeMachine

/-- The output of a piece of a program that is executed alone. -/
def Result.outcome : Result → Except Fault (Array UInt8)
  | .ok s => .ok s.output
  | .exhausted ip consumed => .error (.inputExhausted ip consumed)

/-- What there is to do. -/
inductive Work
  | block (b : Block)
  /-- Passes through the body of a loop, which was entered with the pointer on `entry`. -/
  | passes (body : Block) (entry : Nat)
  deriving DecidableEq, Repr, Inhabited

/-- The work ends with this result after this number of steps. -/
inductive Eval (policy : EofPolicy) : Work → Store → Nat → Result → Prop
  | done {s : Store} : Eval policy (.block .done) s 0 (.ok s)
  | plain {ip steps : Nat} {a : Plain} {rest : Block} {s s' : Store} {result : Result}
      (ha : a.apply policy ip s = .ok s') (h : Eval policy (.block rest) s' steps result) :
      Eval policy (.block (.plain ip a rest)) s (1 + steps) result
  | plainFails {ip i consumed : Nat} {a : Plain} {rest : Block} {s : Store}
      (ha : a.apply policy ip s = .exhausted i consumed) :
      Eval policy (.block (.plain ip a rest)) s 0 (.exhausted i consumed)
  | stray {ip steps : Nat} {rest : Block} {s : Store} {result : Result}
      (h : Eval policy (.block rest) s steps result) :
      Eval policy (.block (.stray ip rest)) s (1 + steps) result
  | skip {ip steps : Nat} {body rest : Block} {s : Store} {result : Result}
      (hz : s.tape.read = 0) (h : Eval policy (.block rest) s steps result) :
      Eval policy (.block (.loop ip body rest)) s (1 + steps) result
  | loop {ip inside steps : Nat} {body rest : Block} {s s' : Store} {result : Result}
      (hz : s.tape.read ≠ 0)
      (hpasses : Eval policy (.passes body s.tape.pointer) s inside (.ok s'))
      (h : Eval policy (.block rest) s' steps result) :
      Eval policy (.block (.loop ip body rest)) s (1 + inside + steps) result
  | loopFails {ip inside i consumed : Nat} {body rest : Block} {s : Store}
      (hz : s.tape.read ≠ 0)
      (hpasses : Eval policy (.passes body s.tape.pointer) s inside (.exhausted i consumed)) :
      Eval policy (.block (.loop ip body rest)) s (1 + inside) (.exhausted i consumed)
  | last {entry steps : Nat} {body : Block} {s s' : Store}
      (hbody : Eval policy (.block body) s steps (.ok s')) (hz : s'.tape.cell entry = 0) :
      Eval policy (.passes body entry) s (steps + 1) (.ok s')
  | again {entry steps more : Nat} {body : Block} {s s' : Store} {result : Result}
      (hbody : Eval policy (.block body) s steps (.ok s')) (hz : s'.tape.cell entry ≠ 0)
      (h : Eval policy (.passes body entry) s' more result) :
      Eval policy (.passes body entry) s (steps + 1 + more) result
  | passFails {entry steps i consumed : Nat} {body : Block} {s : Store}
      (hbody : Eval policy (.block body) s steps (.exhausted i consumed)) :
      Eval policy (.passes body entry) s steps (.exhausted i consumed)

/-- Work has at most one result, and it takes the same number of steps each time. -/
theorem Eval.unique {policy : EofPolicy} {w : Work} {s : Store} {k k' : Nat} {result result' : Result}
    (h : Eval policy w s k result) (h' : Eval policy w s k' result') : k = k' ∧ result = result' := by
  induction h generalizing k' result' with
  | done => cases h'; exact ⟨rfl, rfl⟩
  | plain ha _ ih =>
    cases h' with
    | plain ha' h' =>
      cases ha.symm.trans ha'
      obtain ⟨rfl, rfl⟩ := ih h'
      exact ⟨rfl, rfl⟩
    | plainFails ha' => cases ha.symm.trans ha'
  | plainFails ha =>
    cases h' with
    | plain ha' => cases ha.symm.trans ha'
    | plainFails ha' => cases ha.symm.trans ha'; exact ⟨rfl, rfl⟩
  | stray _ ih =>
    cases h' with
    | stray h' =>
      obtain ⟨rfl, rfl⟩ := ih h'
      exact ⟨rfl, rfl⟩
  | skip hz _ ih =>
    cases h' with
    | skip _ h' =>
      obtain ⟨rfl, rfl⟩ := ih h'
      exact ⟨rfl, rfl⟩
    | loop hz' => exact absurd hz hz'
    | loopFails hz' => exact absurd hz hz'
  | loop hz _ _ ihpasses ih =>
    cases h' with
    | skip hz' => exact absurd hz' hz
    | loop _ hpasses' h' =>
      obtain ⟨rfl, hs⟩ := ihpasses hpasses'
      cases hs
      obtain ⟨rfl, rfl⟩ := ih h'
      exact ⟨rfl, rfl⟩
    | loopFails _ hpasses' => cases (ihpasses hpasses').2
  | loopFails hz _ ihpasses =>
    cases h' with
    | skip hz' => exact absurd hz' hz
    | loop _ hpasses' => cases (ihpasses hpasses').2
    | loopFails _ hpasses' =>
      obtain ⟨rfl, hs⟩ := ihpasses hpasses'
      cases hs
      exact ⟨rfl, rfl⟩
  | last _ hz ihbody =>
    cases h' with
    | last hbody' =>
      obtain ⟨rfl, hs⟩ := ihbody hbody'
      exact ⟨rfl, hs⟩
    | again hbody' hz' =>
      cases (ihbody hbody').2
      exact absurd hz hz'
    | passFails hbody' => cases (ihbody hbody').2
  | again _ hz _ ihbody ih =>
    cases h' with
    | last hbody' hz' =>
      cases (ihbody hbody').2
      exact absurd hz' hz
    | again hbody' _ h' =>
      obtain ⟨rfl, hs⟩ := ihbody hbody'
      cases hs
      obtain ⟨rfl, rfl⟩ := ih h'
      exact ⟨rfl, rfl⟩
    | passFails hbody' => cases (ihbody hbody').2
  | passFails _ ihbody =>
    cases h' with
    | last hbody' => cases (ihbody hbody').2
    | again hbody' => cases (ihbody hbody').2
    | passFails hbody' =>
      obtain ⟨rfl, hs⟩ := ihbody hbody'
      cases hs
      exact ⟨rfl, rfl⟩

end TapeMachine
