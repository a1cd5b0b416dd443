import TapeMachine.Proofs.Run.Frames
import TapeMachine.Proofs.Run.Progress
set_option autoImplicit false

/-!
# Run: the step limit

What a step limit changes.  A run under a limit does what the unlimited run does until the limit is
met, and whether it meets the limit depends on one number: the limit that the unlimited run demands
(`Report.demand`).  To end with success a run demands as many steps as it completes.  To fail it demands
one step more, since the instruction that fails has to be attempted.

Main statement: the thresholds for success, for a read that finds no input and for the limit, and the
rows that the limited run writes (`ends_within_limit`).
-/

namespace TapeMachine

/-- The least step limit under which a run still ends with this report. -/
def Report.demand (report : Report) : Nat :=
  match report.ending with
  | .finished _ => report.steps
  | .failed _ => report.steps + 1

/-! ## Reading without input is the only fault of a program -/

section Faults

variable {p : Program} {policy : EofPolicy} {maxSteps : Option Nat} {input : List UInt8}

theorem Run.Reached.advance {setup : Setup} {first r r' : Run} {past : List Run}
    (h : Reached setup first past r) {n : Nat} (ha : r.advance setup n = .running r') :
    ∃ past', Reached setup first past' r' := by
  induction n generalizing r past with
  | zero => cases ha; exact ⟨past, h⟩
  | succ n ih =>
    cases ht : r.turn setup with
    | ended report => rw [advance_succ_of_ended ht] at ha; cases ha
    | running next =>
      rw [advance_succ_of_running ht] at ha
      exact ih (h.turn ht) ha

/-- The frames of a run from the start are those of the loops it is in. -/
theorem Run.exists_framed_of_progress (hp : p.Paired) {n : Nat} {r : Run}
    (h : Setup.progress ⟨p, policy, maxSteps⟩ n input false none = .running r) :
    ∃ past, Framed p input past r.machine := by
  have hstart : Run.start input false none = .running ⟨Machine.start input, 0, false, none⟩ := rfl
  obtain ⟨past, hreached⟩ := Reached.advance .start h
  exact ⟨past, framed_of_reached hp hstart hreached⟩

/-- An instruction that fails where the course of a program leads is a read. -/
theorem exhausted_of_perform (hp : p.Paired) {k : Nat} {m : Machine} {i : Instruction}
    {fault : Fault} (hm : (Setup.course ⟨p, policy, maxSteps⟩ input).machine? k = some m)
    (hi : p.code[m.ip]? = some i.char) (h : m.perform p policy i = .error fault) :
    ∃ ip consumed, fault = .inputExhausted ip consumed := by
  -- the machine is reached by a run that nothing stops
  have hfree : (Setup.course ⟨p, policy, none⟩ input).machine? k = some m := hm
  have hclear : Run.Clear ⟨p, policy, none⟩ false none k := fun _ _ => rfl
  obtain ⟨n, hn⟩ := Run.exists_progress Run.capacity_none hfree hclear
  obtain ⟨past, hframed⟩ := Run.exists_framed_of_progress hp hn
  rcases hframed.perform policy hp hi with ⟨_, _, hok, -⟩ | ⟨ip, consumed, herror⟩
  · cases h.symm.trans hok
  · exact ⟨ip, consumed, Except.error.inj (h.symm.trans herror)⟩

end Faults

section Limit

variable {p : Program} {policy : EofPolicy} {input : List UInt8} {trace : Option Sink} {limit : Nat}
  {report report' : Report}

/-! ## With a limit and without -/

/-- A trace that is only looked on never asks a run to stop. -/
theorem askedAt_of_unlimited (htrace : ∀ sink ∈ trace, sink = Sink.unlimited) (k : Nat) :
    Run.askedAt false trace k = false := by
  cases trace with
  | none => rfl
  | some sink => rw [htrace sink rfl]; rfl

theorem fresh_of_unlimited (htrace : ∀ sink ∈ trace, sink = Sink.unlimited) :
    ∀ sink ∈ trace, sink.Fresh := by
  intro sink hsink
  rw [htrace sink hsink]
  exact Sink.fresh_empty none

theorem capacity_of_unlimited (htrace : ∀ sink ∈ trace, sink = Sink.unlimited) :
    ∀ sink ∈ trace, sink.capacity = none :=
  Run.capacity_of_fresh (fresh_of_unlimited htrace)

theorem obstacle?_of_lt {k : Nat} (h : k < limit) :
    Run.obstacle? ⟨p, policy, some limit⟩ false k = none := by
  simp [Run.obstacle?, h]

theorem obstacle?_of_le {k : Nat} (h : limit ≤ k) :
    Run.obstacle? ⟨p, policy, some limit⟩ false k = some (.stepLimit limit) := by
  simp [Run.obstacle?, h]

/-- The end of the program is not an attempt, so the limit does not count there. -/
theorem stop?_of_demand_le {steps : Nat} {m : Machine} {ending : Ending}
    (h : Setup.stop? ⟨p, policy, none⟩ false steps m = some ending)
    (hdemand : Report.demand ⟨ending, steps, trace⟩ ≤ limit) :
    Setup.stop? ⟨p, policy, some limit⟩ false steps m = some ending := by
  rcases Setup.cases_of_stop? h with ⟨hend, rfl⟩ | ⟨i, hi, ⟨_, ho, -⟩ | ⟨-, fault, hp, rfl⟩⟩
  · exact Setup.stop?_of_end hend
  · cases ho
  · exact Setup.stop?_of_fault hi (obstacle?_of_lt hdemand) hp

/-- A run under a limit that is not too small ends like the unlimited run. -/
theorem Setup.Ends.limited (htrace : ∀ sink ∈ trace, sink = Sink.unlimited)
    (h : Ends ⟨p, policy, none⟩ input false trace report) (hdemand : report.demand ≤ limit) :
    Ends ⟨p, policy, some limit⟩ input false trace report := by
  have hcapacity := capacity_of_unlimited htrace
  obtain ⟨⟨m, hm, hstop⟩, -, htrace_eq⟩ := (ends_iff hcapacity).1 h
  have hsteps : report.steps ≤ limit := by
    simp only [Report.demand] at hdemand
    split at hdemand <;> omega
  rw [askedAt_of_unlimited htrace] at hstop
  refine (ends_iff hcapacity).2 ⟨⟨m, hm, ?_⟩, fun k hk => ?_, htrace_eq⟩
  · rw [askedAt_of_unlimited htrace]
    exact stop?_of_demand_le hstop hdemand
  · rw [askedAt_of_unlimited htrace]
    exact obstacle?_of_lt (Nat.lt_of_lt_of_le hk hsteps)

/-- Where the course of an unlimited run stops, the run ends. -/
theorem ends_of_stop? (htrace : ∀ sink ∈ trace, sink = Sink.unlimited) {k : Nat} {m : Machine}
    {ending : Ending} (hm : (Setup.course ⟨p, policy, none⟩ input).machine? k = some m)
    (hstop : Setup.stop? ⟨p, policy, none⟩ false k m = some ending) :
    Setup.Ends ⟨p, policy, none⟩ input false trace
      ⟨ending, k, Run.traceWith trace ((Setup.course ⟨p, policy, none⟩ input).rows k)⟩ := by
  refine (Setup.ends_iff (capacity_of_unlimited htrace)).2 ⟨⟨m, hm, ?_⟩, fun j _ => ?_, rfl⟩
  · rw [askedAt_of_unlimited htrace]
    exact hstop
  · rw [askedAt_of_unlimited htrace]
    rfl

/-- An unlimited run gets as far as it does not end. -/
theorem exists_machine?_of_demand (htrace : ∀ sink ∈ trace, sink = Sink.unlimited)
    (h : ∀ report, Setup.Ends ⟨p, policy, none⟩ input false trace report → limit < report.demand)
    {k : Nat} (hk : k ≤ limit) :
    ∃ m, (Setup.course ⟨p, policy, none⟩ input).machine? k = some m := by
  induction k with
  | zero => exact ⟨_, rfl⟩
  | succ k ih =>
    obtain ⟨m, hm⟩ := ih (Nat.le_of_succ_le hk)
    cases hstop : Setup.stop? ⟨p, policy, none⟩ false k m with
    | none =>
      obtain ⟨done, row, hstep⟩ := Setup.exists_step?_of_stop? input hstop
      exact ⟨_, Course.machine?_succ_of_step? hm hstep⟩
    | some ending =>
      have hdemand := h _ (ends_of_stop? htrace hm hstop)
      simp only [Report.demand] at hdemand
      split at hdemand <;> omega

/-- A run under a limit that is too small ends at the limit. -/
theorem exists_ends_stepLimit (htrace : ∀ sink ∈ trace, sink = Sink.unlimited)
    (h : ∀ report, Setup.Ends ⟨p, policy, none⟩ input false trace report → limit < report.demand) :
    ∃ report, Setup.Ends ⟨p, policy, some limit⟩ input false trace report ∧
      report.ending = .failed (.stepLimit limit) ∧ report.steps = limit := by
  obtain ⟨m, hm⟩ := exists_machine?_of_demand htrace h (Nat.le_refl limit)
  obtain ⟨i, hi⟩ : ∃ i, p.instruction? m.ip = some i := by
    cases hi : p.instruction? m.ip with
    | some i => exact ⟨i, rfl⟩
    | none =>
      have hdemand := h _ (ends_of_stop? htrace hm (Setup.stop?_of_end hi))
      exact absurd hdemand (Nat.lt_irrefl limit)
  refine ⟨⟨.failed (.stepLimit limit), limit,
      Run.traceWith trace ((Setup.course ⟨p, policy, none⟩ input).rows limit)⟩,
    (Setup.ends_iff (capacity_of_unlimited htrace)).2 ⟨⟨m, hm, ?_⟩, fun k hk => ?_, rfl⟩, rfl, rfl⟩
  · rw [askedAt_of_unlimited htrace]
    exact Setup.stop?_of_obstacle hi (obstacle?_of_le (Nat.le_refl limit))
  · rw [askedAt_of_unlimited htrace]
    exact obstacle?_of_lt hk

/-- Without a request to stop, only the limit keeps an instruction from being attempted. -/
theorem stepLimit_of_obstacle {maxSteps : Option Nat} {steps : Nat} {fault : Fault}
    (h : Run.obstacle? ⟨p, policy, maxSteps⟩ false steps = some fault) :
    ∃ limit, maxSteps = some limit ∧ fault = .stepLimit limit := by
  cases maxSteps with
  | none => cases h
  | some limit =>
    rcases Nat.lt_or_ge steps limit with hlt | hle
    · cases (obstacle?_of_lt hlt).symm.trans h
    · cases (obstacle?_of_le hle).symm.trans h
      exact ⟨limit, rfl, rfl⟩

/-- A run that nobody asks to stop ends with success, at a read that finds no input or at its
limit. -/
theorem Setup.Ends.cases_of_uncancelled {maxSteps : Option Nat} (hp : p.Paired)
    (htrace : ∀ sink ∈ trace, sink = Sink.unlimited)
    (h : Ends ⟨p, policy, maxSteps⟩ input false trace report) :
    (∃ m, report.ending = .finished m) ∨
      (∃ ip consumed, report.ending = .failed (.inputExhausted ip consumed)) ∨
      ∃ limit, maxSteps = some limit ∧ report.ending = .failed (.stepLimit limit) := by
  obtain ⟨⟨m, hm, hstop⟩, -, -⟩ := (ends_iff (capacity_of_unlimited htrace)).1 h
  rw [askedAt_of_unlimited htrace] at hstop
  rcases cases_of_stop? hstop with ⟨-, hend⟩ | ⟨i, hi, ⟨_, ho, hend⟩ | ⟨-, fault, hperform, hend⟩⟩
  · exact .inl ⟨m, hend⟩
  · obtain ⟨limit, hlimit, rfl⟩ := stepLimit_of_obstacle ho
    exact .inr (.inr ⟨limit, hlimit, hend⟩)
  · have hchar := Program.instruction?_eq_some_iff.1 hi
    obtain ⟨ip, consumed, rfl⟩ := exhausted_of_perform hp hm hchar hperform
    exact .inr (.inl ⟨ip, consumed, hend⟩)

/-- An unlimited run ends with success or at a read that finds no input. -/
theorem Setup.Ends.cases_of_unlimited (hp : p.Paired)
    (htrace : ∀ sink ∈ trace, sink = Sink.unlimited)
    (h : Ends ⟨p, policy, none⟩ input false trace report) :
    (∃ m, report.ending = .finished m) ∨
      ∃ ip consumed, report.ending = .failed (.inputExhausted ip consumed) := by
  rcases h.cases_of_uncancelled hp htrace with hfinished | hread | ⟨limit, hlimit, -⟩
  · exact .inl hfinished
  · exact .inr hread
  · cases hlimit

/-! ## The two runs compared -/

theorem Report.steps_le_demand (report : Report) : report.steps ≤ report.demand := by
  simp only [demand]
  split <;> omega

theorem Report.demand_le (report : Report) : report.demand ≤ report.steps + 1 := by
  simp only [demand]
  split <;> omega

/-- A run under a limit has ended like the unlimited run, or it has met its limit. -/
theorem Setup.Ends.cases_of_limited (htrace : ∀ sink ∈ trace, sink = Sink.unlimited)
    (h : Ends ⟨p, policy, some limit⟩ input false trace report) :
    (Ends ⟨p, policy, none⟩ input false trace report ∧ report.demand ≤ limit) ∨
      report.steps = limit ∧
        ∀ full, Ends ⟨p, policy, none⟩ input false trace full → limit < full.demand := by
  by_cases hfull : ∃ full, Ends ⟨p, policy, none⟩ input false trace full ∧ full.demand ≤ limit
  · obtain ⟨full, hends, hdemand⟩ := hfull
    obtain rfl := h.unique (hends.limited htrace hdemand)
    exact .inl ⟨hends, hdemand⟩
  · have hlt (full : Report) (hends : Ends ⟨p, policy, none⟩ input false trace full) :
        limit < full.demand :=
      Nat.lt_of_not_le fun hle => hfull ⟨full, hends, hle⟩
    obtain ⟨stopped, hstopped, -, hsteps⟩ := exists_ends_stepLimit htrace hlt
    obtain rfl := h.unique hstopped
    exact .inr ⟨hsteps, hlt⟩

/-- A run under a limit completes as many instructions as the limit and the unlimited run allow. -/
theorem Setup.Ends.steps_eq_min {full : Report} (htrace : ∀ sink ∈ trace, sink = Sink.unlimited)
    (h : Ends ⟨p, policy, some limit⟩ input false trace report)
    (hfull : Ends ⟨p, policy, none⟩ input false trace full) :
    report.steps = min limit full.steps := by
  rcases h.cases_of_limited htrace with ⟨hfree, hdemand⟩ | ⟨hsteps, hlt⟩
  · obtain rfl := hfree.unique hfull
    have := report.steps_le_demand
    omega
  · have := hlt full hfull
    have := full.demand_le
    omega

theorem Setup.Ends.steps_eq_limit (htrace : ∀ sink ∈ trace, sink = Sink.unlimited)
    (h : Ends ⟨p, policy, some limit⟩ input false trace report)
    (hnone : ∀ full, ¬Ends ⟨p, policy, none⟩ input false trace full) : report.steps = limit := by
  rcases h.cases_of_limited htrace with ⟨hfree, -⟩ | ⟨hsteps, -⟩
  · exact absurd hfree (hnone report)
  · exact hsteps

/-- A step limit on an accepted program whose trace, if there is one, is only looked on.  Let the
unlimited run complete `report.steps` instructions:

* if it ends with success, so does the limited run, in the same way, once the limit is not less;
* if a read finds no input, the limited run fails there as well once the limit is greater;
* in every other case the limited run ends at its limit, after exactly so many instructions;
* the limited run has written the head and the first rows of the unlimited trace, as many as the limit
  says, or all of them. -/
theorem Setup.ends_within_limit {source : String} (hsource : Program.ofSource source = .ok p)
    (policy : EofPolicy) (input : List UInt8) (htrace : ∀ sink ∈ trace, sink = Sink.unlimited)
    (limit : Nat) :
    (∀ report m, Ends ⟨p, policy, none⟩ input false trace report → report.ending = .finished m →
      report.steps ≤ limit → Ends ⟨p, policy, some limit⟩ input false trace report) ∧
    (∀ report ip consumed, Ends ⟨p, policy, none⟩ input false trace report →
      report.ending = .failed (.inputExhausted ip consumed) → report.steps + 1 ≤ limit →
      Ends ⟨p, policy, some limit⟩ input false trace report) ∧
    ((∀ report m, Ends ⟨p, policy, none⟩ input false trace report →
        report.ending = .finished m → limit < report.steps) →
      (∀ report ip consumed, Ends ⟨p, policy, none⟩ input false trace report →
        report.ending = .failed (.inputExhausted ip consumed) → limit < report.steps + 1) →
      ∃ report, Ends ⟨p, policy, some limit⟩ input false trace report ∧
        report.ending = .failed (.stepLimit limit) ∧ report.steps = limit) ∧
    ∀ report, Ends ⟨p, policy, some limit⟩ input false trace report → trace = some Sink.unlimited →
      ∃ (sink : Sink) (rows : List Row), report.trace = some sink ∧
        sink.written = (Text.ofLines (Row.table rows)).toUTF8 ∧
        (∀ full, Ends ⟨p, policy, none⟩ input false trace full →
          rows.length = min limit full.steps) ∧
        ((∀ full, ¬Ends ⟨p, policy, none⟩ input false trace full) → rows.length = limit) ∧
        (∃ turns, (progress ⟨p, policy, none⟩ turns input false trace).trace = some sink) ∧
        ∀ turns, ∀ later ∈ (progress ⟨p, policy, none⟩ turns input false trace).trace,
          rows.length ≤ (progress ⟨p, policy, none⟩ turns input false trace).steps →
          ∃ more, later.written = (Text.ofLines (Row.table (rows ++ more))).toUTF8 := by
  have hp := Program.paired_of_ofText hsource
  refine ⟨fun report m hends hfinished hle => ?_, fun report ip consumed hends hread hle => ?_,
    fun hfinished hread => ?_, fun report hends hsink => ?_⟩
  · exact hends.limited htrace (by simpa only [Report.demand, hfinished] using hle)
  · exact hends.limited htrace (by simpa only [Report.demand, hread] using hle)
  · refine exists_ends_stepLimit htrace fun report hends => ?_
    rcases hends.cases_of_unlimited hp htrace with ⟨m, hm⟩ | ⟨ip, consumed, hip⟩
    · simpa only [Report.demand, hm] using hfinished report m hends hm
    · simpa only [Report.demand, hip] using hread report ip consumed hends hip
  · subst hsink
    have hfresh : Sink.unlimited.Fresh := Sink.fresh_empty none
    have ⟨n, hn⟩ := hends
    have hsame : course ⟨p, policy, some limit⟩ input = course ⟨p, policy, none⟩ input := rfl
    have hclear : Run.Clear ⟨p, policy, none⟩ false (some Sink.unlimited)
        (progress ⟨p, policy, some limit⟩ n input false (some Sink.unlimited)).steps :=
      fun _ _ => rfl
    obtain ⟨rows, htaken, hlength, hreached, hlater⟩ :=
      Run.exists_rows_of_clear hfresh hfresh hsame hclear
    rw [execute_eq_some_iff.1 hn] at htaken hlength
    simp only [Turn.steps, Turn.trace] at htaken hlength
    exact ⟨_, rows, htaken, hfresh.written_after _,
      fun full hfull => hlength.trans (hends.steps_eq_min htrace hfull),
      fun hnone => hlength.trans (hends.steps_eq_limit htrace hnone), hreached, hlater⟩

/-- The second read finds no input, but a limit of one step is met before it is attempted. -/
theorem Setup.ends_within_limit_one : ∃ p report limited, Program.ofSource ",," = .ok p ∧
    Ends ⟨p, .error, none⟩ [120] false (some Sink.unlimited) report ∧
    report.ending = .failed (.inputExhausted 1 1) ∧ report.steps = 1 ∧
    Ends ⟨p, .error, some 1⟩ [120] false (some Sink.unlimited) limited ∧
    limited.ending = .failed (.stepLimit 1) ∧ limited.steps = 1 := by
  have hsource : Program.ofSource ",," = .ok ⟨#[',', ','], #[none, none]⟩ := rfl
  have htrace : ∀ sink ∈ some Sink.unlimited, sink = Sink.unlimited := fun sink hsink =>
    (Option.some.inj hsink).symm
  obtain ⟨sink, hends⟩ : ∃ sink, Ends ⟨⟨#[',', ','], #[none, none]⟩, .error, none⟩ [120] false
      (some Sink.unlimited) ⟨.failed (.inputExhausted 1 1), 1, some sink⟩ := ⟨_, 3, rfl⟩
  obtain ⟨limited, hlimited⟩ := (ends_within_limit hsource .error [120] htrace 1).2.2.1
    (fun report m hreport hm => by cases hends.unique hreport; cases hm)
    (fun report ip consumed hreport _ => by cases hends.unique hreport; exact Nat.lt_succ_self 1)
  exact ⟨_, _, limited, hsource, hends, rfl, rfl, hlimited⟩

end Limit

end TapeMachine
