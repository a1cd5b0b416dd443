import TapeMachine.Proofs.Block.Evaluation
import TapeMachine.Proofs.Block.Place
set_option autoImplicit false

/-!
# Block: executing a program and evaluating its block

The machine jumps, and keeps the entries of all the loops it is in on one list.  Evaluation recurs on
the loops and knows one entry at a time.  Between the two stands `Work.Stands`: where the machine is
while it does some work, which frames it has, and where and with which frames it is when the work is
done.  The frames of the loops around the work are never touched.

A derivation of `Eval` gives a run that ends (`exists_finish_of_eval`, by induction on the derivation).
A run that ends gives a derivation (`evaluates`, by induction on the number of turns, since every
arrival at a bracket takes one).

Main statement: an accepted program holds exactly one block, and its execution ends if and only if the
evaluation of the block does, after as many steps and with the same outcome
(`execute_iff_eval`).
-/

namespace TapeMachine.Run

/-- A run that is not traced and not asked to stop. -/
def quiet (s : Store) (frames : List Nat) (ip steps : Nat) : Run :=
  ⟨s.machine frames ip, steps, false, none⟩

section Turn

variable {p : Program} {policy : EofPolicy} {s s' : Store} {frames frames' outer : List Nat}
  {ip ip' o c entry : Nat} (steps : Nat)

/-- An instruction that takes effect. -/
theorem turn_quiet (i : Instruction) (hi : p.code[ip]? = some i.char)
    (h : ∃ row, (s.machine frames ip).perform p policy i = .ok (s'.machine frames' ip', row)) :
    (quiet s frames ip steps).turn ⟨p, policy, none⟩ =
      .running (quiet s' frames' ip' (steps + 1)) := by
  obtain ⟨row, hrow⟩ := h
  exact turn_of_perform hi rfl hrow

theorem turn_quiet_plain (frames : List Nat) {a : Plain}
    (hi : p.code[ip]? = some a.instruction.char) (ha : a.apply policy ip s = .ok s') :
    (quiet s frames ip steps).turn ⟨p, policy, none⟩ =
      .running (quiet s' frames (ip + 1) (steps + 1)) :=
  turn_quiet steps a.instruction hi (Machine.perform_plain_ok p frames ha)

theorem turn_quiet_plainFails (frames : List Nat) {a : Plain} {j consumed : Nat}
    (hi : p.code[ip]? = some a.instruction.char) (ha : a.apply policy ip s = .exhausted j consumed) :
    (quiet s frames ip steps).turn ⟨p, policy, none⟩ =
      .ended ⟨.failed (.inputExhausted j consumed), steps, none⟩ :=
  turn_of_fault hi rfl (Machine.perform_plain_exhausted p frames ha)

theorem turn_quiet_stray (policy : EofPolicy) (s : Store) (frames : List Nat)
    (hi : p.code[ip]? = some ']') (hp : p.partner? ip = none) :
    (quiet s frames ip steps).turn ⟨p, policy, none⟩ =
      .running (quiet s frames (ip + 1) (steps + 1)) :=
  turn_quiet steps .again hi (Machine.perform_again_of_stray policy hp)

/-- A loop that is skipped. -/
theorem turn_quiet_skip (policy : EofPolicy) (frames : List Nat) (h : p.IsLoop o c)
    (hz : s.tape.read = 0) :
    (quiet s frames o steps).turn ⟨p, policy, none⟩ =
      .running (quiet s frames (c + 1) (steps + 1)) :=
  turn_quiet steps .enter h.opens (Machine.perform_enter_of_zero policy h.partner_opening hz)

/-- A loop that is entered. -/
theorem turn_quiet_enter (policy : EofPolicy) (frames : List Nat) (h : p.IsLoop o c)
    (hz : s.tape.read ≠ 0) :
    (quiet s frames o steps).turn ⟨p, policy, none⟩ =
      .running (quiet s (s.tape.pointer :: frames) (o + 1) (steps + 1)) :=
  turn_quiet steps .enter h.opens (Machine.perform_enter_of_ne_zero policy h.partner_opening hz)

/-- A loop that is left. -/
theorem turn_quiet_leave (policy : EofPolicy) (outer : List Nat) (h : p.IsLoop o c)
    (hz : s.tape.cell entry = 0) :
    (quiet s (entry :: outer) c steps).turn ⟨p, policy, none⟩ =
      .running (quiet s outer (c + 1) (steps + 1)) :=
  turn_quiet steps .again h.closes (Machine.perform_again_of_zero policy h.partner_closing rfl hz)

/-- A loop that is repeated. -/
theorem turn_quiet_repeat (policy : EofPolicy) (outer : List Nat) (h : p.IsLoop o c)
    (hz : s.tape.cell entry ≠ 0) :
    (quiet s (entry :: outer) c steps).turn ⟨p, policy, none⟩ =
      .running (quiet s (entry :: outer) (o + 1) (steps + 1)) :=
  turn_quiet steps .again h.closes (Machine.perform_again_of_ne_zero policy h.partner_closing rfl hz)

end Turn

section Simulation

variable {p : Program} {policy : EofPolicy} {s s' : Store} {frames frames' outer : List Nat}
  {ip ip' i stop steps m n : Nat} {r r' : Run} {report report' : Report} {w : Work} {result : Result}

/-! ## Over comments to the next turn -/

theorem exists_finish_of_comments (h : p.Comments ip stop)
    (hend : finish ⟨p, policy, none⟩ n (quiet s frames stop steps) = some report) :
    ∃ m, finish ⟨p, policy, none⟩ m (quiet s frames ip steps) = some report := by
  induction h with
  | refl => exact ⟨n, hend⟩
  | step hc hno _ ih =>
    obtain ⟨m, hm⟩ := ih hend
    refine ⟨m + 1, ?_⟩
    rw [finish_succ_of_running (turn_of_comment hc hno)]
    exact hm

theorem exists_finish_of_turn (h : p.Comments ip stop)
    (ht : (quiet s frames stop steps).turn ⟨p, policy, none⟩ = .running r')
    (hend : ∃ m, finish ⟨p, policy, none⟩ m r' = some report) :
    ∃ m, finish ⟨p, policy, none⟩ m (quiet s frames ip steps) = some report := by
  obtain ⟨m, hm⟩ := hend
  have hturn : finish ⟨p, policy, none⟩ (m + 1) (quiet s frames stop steps) = some report := by
    rw [finish_succ_of_running ht, hm]
  exact exists_finish_of_comments h hturn

/-- After a turn of a run that ends there are fewer turns left. -/
theorem exists_lt_finish_of_turn {setup : Setup} (ht : r.turn setup = .running r')
    (h : finish setup n r = some report) : ∃ m < n, finish setup m r' = some report := by
  cases n with
  | zero => cases h
  | succ n =>
    rw [finish_succ_of_running ht] at h
    exact ⟨n, Nat.lt_succ_self n, h⟩

theorem eq_of_finish_of_ended {setup : Setup} (ht : r.turn setup = .ended report')
    (h : finish setup n r = some report) : report = report' := by
  cases n with
  | zero => cases h
  | succ n =>
    rw [finish_succ_of_ended ht] at h
    exact (Option.some.inj h).symm

theorem exists_le_finish_of_comments (h : p.Comments ip stop)
    (hend : finish ⟨p, policy, none⟩ n (quiet s frames ip steps) = some report) :
    ∃ m ≤ n, finish ⟨p, policy, none⟩ m (quiet s frames stop steps) = some report := by
  induction h generalizing n with
  | refl => exact ⟨n, Nat.le_refl n, hend⟩
  | step hc hno _ ih =>
    obtain ⟨m, hm, hnext⟩ := exists_lt_finish_of_turn (turn_of_comment hc hno) hend
    obtain ⟨m', hm', hrest⟩ := ih hnext
    exact ⟨m', Nat.le_trans hm' (Nat.le_of_lt hm), hrest⟩

/-! ## From evaluation to execution -/

/-- How a run ends in which some work has been done: it goes on from `stop` with the frames `outer` and
needs `n` turns at most, or a read has failed. -/
def Ends (p : Program) (policy : EofPolicy) (report : Report) (n : Nat) (outer : List Nat)
    (stop steps : Nat) : Result → Prop
  | .ok s => ∃ m ≤ n, finish ⟨p, policy, none⟩ m (quiet s outer stop steps) = some report
  | .exhausted i consumed => report = ⟨.failed (.inputExhausted i consumed), steps, none⟩

theorem Ends.mono (h : Ends p policy report m outer stop steps result) (hmn : m ≤ n) :
    Ends p policy report n outer stop steps result := by
  cases result with
  | ok s =>
    obtain ⟨m', hle, hm'⟩ := h
    exact ⟨m', Nat.le_trans hle hmn, hm'⟩
  | exhausted i consumed => exact h

/-- A read that fails ends the run wherever the work was to go on. -/
theorem Ends.fails {i consumed : Nat}
    (h : Ends p policy report m outer stop steps (.exhausted i consumed)) (n : Nat)
    (outer' : List Nat) (stop' : Nat) :
    Ends p policy report n outer' stop' steps (.exhausted i consumed) := h

/-- Work that comes to an end is done by the machine. -/
theorem exists_finish_of_eval {k : Nat} (h : Eval policy w s k result)
    (hw : w.Stands p frames ip outer stop)
    (hend : Ends p policy report n outer stop (steps + k) result) :
    ∃ m, finish ⟨p, policy, none⟩ m (quiet s frames ip steps) = some report := by
  induction h generalizing frames ip outer stop steps n with
  | done =>
    obtain ⟨rfl, hcomments⟩ := hw
    obtain ⟨m, -, hm⟩ := hend
    exact exists_finish_of_comments hcomments hm
  | plain ha _ ih =>
    obtain ⟨rfl, hcomments, hi, hrest⟩ := hw
    rw [← Nat.add_assoc] at hend
    exact exists_finish_of_turn hcomments (turn_quiet_plain _ frames hi ha) (ih ⟨rfl, hrest⟩ hend)
  | plainFails ha =>
    obtain ⟨rfl, hcomments, hi, -⟩ := hw
    have hfails := finish_succ_of_ended (turn_quiet_plainFails steps frames hi ha) 0
    exact exists_finish_of_comments hcomments (hfails.trans (congrArg some hend.symm))
  | stray _ ih =>
    obtain ⟨rfl, hcomments, hi, hp, hrest⟩ := hw
    rw [← Nat.add_assoc] at hend
    exact exists_finish_of_turn hcomments (turn_quiet_stray _ policy _ frames hi hp)
      (ih ⟨rfl, hrest⟩ hend)
  | skip hz _ ih =>
    obtain ⟨rfl, hcomments, c, hloop, -, hrest⟩ := hw
    rw [← Nat.add_assoc] at hend
    exact exists_finish_of_turn hcomments (turn_quiet_skip _ policy frames hloop hz)
      (ih ⟨rfl, hrest⟩ hend)
  | loop hz _ _ ihpasses ih =>
    obtain ⟨rfl, hcomments, c, hloop, hbody, hrest⟩ := hw
    rw [← Nat.add_assoc, ← Nat.add_assoc] at hend
    obtain ⟨m, hm⟩ := ih ⟨rfl, hrest⟩ hend
    have hpasses := ihpasses ⟨rfl, _, c, hloop, rfl, rfl, hbody⟩ ⟨m, Nat.le_refl m, hm⟩
    exact exists_finish_of_turn hcomments (turn_quiet_enter _ policy frames hloop hz) hpasses
  | loopFails hz _ ihpasses =>
    obtain ⟨rfl, hcomments, c, hloop, hbody, -⟩ := hw
    rw [← Nat.add_assoc] at hend
    have hpasses := ihpasses ⟨rfl, _, c, hloop, rfl, rfl, hbody⟩ (hend.fails n frames (c + 1))
    exact exists_finish_of_turn hcomments (turn_quiet_enter _ policy frames hloop hz) hpasses
  | last _ hz ihbody =>
    obtain ⟨rfl, o, c, hloop, rfl, rfl, hbody⟩ := hw
    obtain ⟨m, -, hm⟩ := hend
    obtain ⟨m, hm⟩ := exists_finish_of_turn (.refl c) (turn_quiet_leave _ policy outer hloop hz)
      ⟨m, hm⟩
    exact ihbody ⟨rfl, hbody⟩ ⟨m, Nat.le_refl m, hm⟩
  | again _ hz _ ihbody ih =>
    obtain ⟨rfl, o, c, hloop, rfl, rfl, hbody⟩ := hw
    rw [← Nat.add_assoc, ← Nat.add_assoc] at hend
    have hagain := ih ⟨rfl, o, c, hloop, rfl, rfl, hbody⟩ hend
    obtain ⟨m, hm⟩ := exists_finish_of_turn (.refl c) (turn_quiet_repeat _ policy outer hloop hz)
      hagain
    exact ihbody ⟨rfl, hbody⟩ ⟨m, Nat.le_refl m, hm⟩
  | passFails _ ihbody =>
    obtain ⟨rfl, o, c, hloop, rfl, rfl, hbody⟩ := hw
    exact ihbody ⟨rfl, hbody⟩ (hend.fails n _ c)

/-! ## From execution to evaluation -/

/-- Every run that ends within `n` turns does the work `w`, as far as it gets with it. -/
def Evaluates (p : Program) (policy : EofPolicy) (report : Report) (n : Nat) (w : Work) : Prop :=
  ∀ {s : Store} {frames outer : List Nat} {ip stop steps : Nat}, w.Stands p frames ip outer stop →
    finish ⟨p, policy, none⟩ n (quiet s frames ip steps) = some report →
    ∃ k result, Eval policy w s k result ∧ Ends p policy report n outer stop (steps + k) result

/-- The work that is left after a turn, comments in front of it. -/
theorem exists_eval_of_turn (ih : ∀ m < n, ∀ w, Evaluates p policy report m w)
    (hcomments : p.Comments ip i)
    (ht : (quiet s frames i steps).turn ⟨p, policy, none⟩ =
      .running (quiet s' frames' ip' (steps + 1)))
    (hw : w.Stands p frames' ip' outer stop)
    (hend : finish ⟨p, policy, none⟩ n (quiet s frames ip steps) = some report) :
    ∃ m < n, ∃ k result, Eval policy w s' k result ∧
      Ends p policy report m outer stop (steps + 1 + k) result := by
  obtain ⟨l, hl, hturn⟩ := exists_le_finish_of_comments hcomments hend
  obtain ⟨m, hm, hnext⟩ := exists_lt_finish_of_turn ht hturn
  have hless := Nat.lt_of_lt_of_le hm hl
  exact ⟨m, hless, ih m hless w hw hnext⟩

theorem evaluates_block (ih : ∀ m < n, ∀ w, Evaluates p policy report m w) (b : Block) :
    Evaluates p policy report n (.block b) := by
  rintro s frames _ ip stop steps ⟨rfl, hb⟩ hend
  cases b with
  | done =>
    obtain ⟨m, hm, hstop⟩ := exists_le_finish_of_comments hb hend
    exact ⟨0, .ok s, .done, m, hm, hstop⟩
  | plain i a rest =>
    obtain ⟨hcomments, hi, hrest⟩ := hb
    cases ha : a.apply policy i s with
    | exhausted j consumed =>
      obtain ⟨m, -, hturn⟩ := exists_le_finish_of_comments hcomments hend
      have hreport := eq_of_finish_of_ended (turn_quiet_plainFails steps frames hi ha) hturn
      exact ⟨0, .exhausted j consumed, .plainFails ha, hreport⟩
    | ok s' =>
      have ht := turn_quiet_plain steps frames hi ha
      have hw : (Work.block rest).Stands p frames (i + 1) frames stop := ⟨rfl, hrest⟩
      obtain ⟨m, hm, k, result, heval, hends⟩ := exists_eval_of_turn ih hcomments ht hw hend
      refine ⟨1 + k, result, .plain ha heval, ?_⟩
      rw [← Nat.add_assoc]
      exact hends.mono (Nat.le_of_lt hm)
  | stray i rest =>
    obtain ⟨hcomments, hi, hp, hrest⟩ := hb
    have ht := turn_quiet_stray steps policy s frames hi hp
    have hw : (Work.block rest).Stands p frames (i + 1) frames stop := ⟨rfl, hrest⟩
    obtain ⟨m, hm, k, result, heval, hends⟩ := exists_eval_of_turn ih hcomments ht hw hend
    refine ⟨1 + k, result, .stray heval, ?_⟩
    rw [← Nat.add_assoc]
    exact hends.mono (Nat.le_of_lt hm)
  | loop i body rest =>
    obtain ⟨hcomments, c, hloop, hbody, hrest⟩ := hb
    have hw : (Work.block rest).Stands p frames (c + 1) frames stop := ⟨rfl, hrest⟩
    by_cases hz : s.tape.read = 0
    · have ht := turn_quiet_skip steps policy frames hloop hz
      obtain ⟨m, hm, k, result, heval, hends⟩ := exists_eval_of_turn ih hcomments ht hw hend
      refine ⟨1 + k, result, .skip hz heval, ?_⟩
      rw [← Nat.add_assoc]
      exact hends.mono (Nat.le_of_lt hm)
    · have ht := turn_quiet_enter steps policy frames hloop hz
      have hinside : (Work.passes body s.tape.pointer).Stands p (s.tape.pointer :: frames) (i + 1)
          frames (c + 1) := ⟨rfl, i, c, hloop, rfl, rfl, hbody⟩
      obtain ⟨m, hm, inside, passed, hpasses, hends⟩ :=
        exists_eval_of_turn ih hcomments ht hinside hend
      cases passed with
      | exhausted j consumed =>
        refine ⟨1 + inside, _, .loopFails hz hpasses, ?_⟩
        rw [← Nat.add_assoc]
        exact hends.fails n frames stop
      | ok s' =>
        obtain ⟨l, hl, hbehind⟩ := hends
        have hless := Nat.lt_of_le_of_lt hl hm
        obtain ⟨k, result, heval, hends⟩ := ih l hless (.block rest) hw hbehind
        refine ⟨1 + inside + k, result, .loop hz hpasses heval, ?_⟩
        rw [← Nat.add_assoc, ← Nat.add_assoc]
        exact hends.mono (Nat.le_of_lt hless)

theorem evaluates_passes (hblock : ∀ b, Evaluates p policy report n (.block b))
    (ih : ∀ m < n, ∀ w, Evaluates p policy report m w) (body : Block) (entry : Nat) :
    Evaluates p policy report n (.passes body entry) := by
  rintro s _ outer _ _ steps ⟨rfl, o, c, hloop, rfl, rfl, hbody⟩ hend
  obtain ⟨k, passed, hpass, hends⟩ := hblock body ⟨rfl, hbody⟩ hend
  cases passed with
  | exhausted j consumed => exact ⟨k, _, .passFails hpass, hends.fails n outer (c + 1)⟩
  | ok s' =>
    obtain ⟨l, hl, hclosing⟩ := hends
    by_cases hz : s'.tape.cell entry = 0
    · have ht := turn_quiet_leave (steps + k) policy outer hloop hz
      obtain ⟨m, hm, hbehind⟩ := exists_lt_finish_of_turn ht hclosing
      exact ⟨k + 1, .ok s', .last hpass hz, m, Nat.le_of_lt (Nat.lt_of_lt_of_le hm hl), hbehind⟩
    · have ht := turn_quiet_repeat (steps + k) policy outer hloop hz
      obtain ⟨m, hm, hagain⟩ := exists_lt_finish_of_turn ht hclosing
      have hless := Nat.lt_of_lt_of_le hm hl
      obtain ⟨more, result, heval, hends⟩ :=
        ih m hless (.passes body entry) ⟨rfl, o, c, hloop, rfl, rfl, hbody⟩ hagain
      refine ⟨k + 1 + more, result, .again hpass hz heval, ?_⟩
      rw [← Nat.add_assoc, ← Nat.add_assoc]
      exact hends.mono (Nat.le_of_lt hless)

/-- Work that the machine does comes to an end if the run does. -/
theorem evaluates (p : Program) (policy : EofPolicy) (report : Report) (n : Nat) (w : Work) :
    Evaluates p policy report n w := by
  induction n using Nat.strongRecOn generalizing w with
  | _ n ih =>
    cases w with
    | block b => exact evaluates_block ih b
    | passes body entry => exact evaluates_passes (evaluates_block ih) ih body entry

end Simulation

/-! ## Whole programs -/

section Whole

variable {p : Program} {policy : EofPolicy} {input : List UInt8} {b : Block} {report : Report}
  {n k : Nat} {result : Result}

theorem turn_quiet_end (p : Program) (policy : EofPolicy) (s : Store) (frames : List Nat)
    (steps : Nat) : (quiet s frames p.length steps).turn ⟨p, policy, none⟩ =
      .ended ⟨.finished (s.machine frames p.length), steps, none⟩ :=
  turn_of_end (Array.getElem?_eq_none (Nat.le_refl p.code.size))

/-- A program that comes to an end has a block that does so. -/
theorem exists_eval_of_execute (hb : b.Placed p 0 p.length)
    (h : Setup.execute ⟨p, policy, none⟩ n input false none = some report) :
    ∃ result, Eval policy (.block b) (Store.start input) report.steps result ∧
      result.outcome = report.outcome := by
  have hfinish : finish ⟨p, policy, none⟩ n (quiet (Store.start input) [] 0 0) = some report := h
  obtain ⟨k, result, heval, hends⟩ := evaluates p policy report n (.block b) ⟨rfl, hb⟩ hfinish
  rw [Nat.zero_add] at hends
  cases result with
  | ok s =>
    obtain ⟨m, -, hm⟩ := hends
    obtain rfl := eq_of_finish_of_ended (turn_quiet_end p policy s [] k) hm
    exact ⟨.ok s, heval, rfl⟩
  | exhausted i consumed =>
    obtain rfl := hends
    exact ⟨.exhausted i consumed, heval, rfl⟩

/-- A block that comes to an end has a program that does so. -/
theorem exists_execute_of_eval (hb : b.Placed p 0 p.length)
    (h : Eval policy (.block b) (Store.start input) k result) :
    ∃ n report, Setup.execute ⟨p, policy, none⟩ n input false none = some report ∧
      report.steps = k ∧ report.outcome = result.outcome := by
  obtain ⟨report, hends, hsteps, houtcome⟩ : ∃ report,
      Ends p policy report 1 [] p.length (0 + k) result ∧ report.steps = k ∧
        report.outcome = result.outcome := by
    rw [Nat.zero_add]
    cases result with
    | ok s =>
      have hend := finish_succ_of_ended (turn_quiet_end p policy s [] k) 0
      exact ⟨_, ⟨1, Nat.le_refl 1, hend⟩, rfl, rfl⟩
    | exhausted i consumed => exact ⟨_, rfl, rfl, rfl⟩
  obtain ⟨n, hn⟩ := exists_finish_of_eval h ⟨rfl, hb⟩ hends
  exact ⟨n, report, hn, hsteps, houtcome⟩

/-- An accepted source holds exactly one block.  For every input and policy, the execution of the
program with its jumps and its frames ends after `steps` steps with some outcome if and only if the
evaluation of the block does. -/
theorem execute_iff_eval {source : String} (hsource : Program.ofSource source = .ok p) :
    ∃ b, Reads true 0 source.toList b ∧ (∀ b', Reads true 0 source.toList b' → b' = b) ∧
      ∀ policy input steps outcome,
        (∃ turns report, Setup.execute ⟨p, policy, none⟩ turns input false none = some report ∧
          report.steps = steps ∧ report.outcome = outcome) ↔
        ∃ result, Eval policy (.block b) (Store.start input) steps result ∧
          result.outcome = outcome := by
  have hp := Program.paired_of_ofText hsource
  obtain ⟨b, hreads⟩ := exists_reads_code hp
  have hplaced := placed_of_reads_code hp hreads
  rw [Program.toList_code_of_ofText hsource] at hreads
  refine ⟨b, hreads, fun b' hb' => hb'.unique hreads, fun policy input steps outcome => ?_⟩
  constructor
  · rintro ⟨turns, report, hexecute, rfl, rfl⟩
    exact exists_eval_of_execute hplaced hexecute
  · rintro ⟨result, heval, rfl⟩
    exact exists_execute_of_eval hplaced heval

/-- The loop is left with the pointer on cell 1, since cell 0 is zero by then. -/
theorem execute_iff_eval_moved : ∃ p b, Program.ofSource "+[->]," = .ok p ∧
    Reads true 0 "+[->],".toList b ∧
    ∃ result, Eval .error (.block b) (Store.start []) 5 result ∧
      result.outcome = .error (.inputExhausted 5 0) := by
  have hsource : Program.ofSource "+[->]," =
      .ok ⟨#['+', '[', '-', '>', ']', ','], #[none, some 4, none, none, some 1, none]⟩ := rfl
  obtain ⟨b, hreads, -, heval⟩ := execute_iff_eval hsource
  exact ⟨_, b, hsource, hreads, (heval .error [] 5 _).1 ⟨6, _, rfl, rfl, rfl⟩⟩

end Whole

end TapeMachine.Run
