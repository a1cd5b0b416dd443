import TapeMachine.Proofs.Run.Input
import TapeMachine.Proofs.Run.Limit
set_option autoImplicit false

/-!
# Run: the input with zeros behind it

Under the policy that gives zeros past the end, a run gets the bytes that it would get from its input
with zeros behind it.  So the two policies agree, if there are zeros enough for what is read past the
end (`sameRead_pad`).

Main statement: `zero_iff_padded`.  A run under the zero policy ends like the run under the error
policy on the padded input, and the converse holds for every padding that is not used up.
-/

namespace TapeMachine

variable {p : Program} {policy policy' : EofPolicy} {maxSteps : Option Nat}
  {input input' : List UInt8} {trace : Option Sink} {j n turns : Nat} {report : Report}

theorem EofPolicy.SameRead.symm (h : policy.SameRead policy' input input' trace j) :
    policy'.SameRead policy input' input trace j := by
  obtain ⟨b, hb, hb', htold⟩ := h
  exact ⟨b, hb', hb, htold.imp_right Eq.symm⟩

/-- A byte of the input or one of the zeros behind it. -/
theorem getElem?_pad (hj : j < input.length + n) :
    (input ++ List.replicate n 0)[j]? = some (input.getD j 0) := by
  rw [List.getD_eq_getElem?_getD]
  rcases Nat.lt_or_ge j input.length with hlt | hge
  · rw [List.getElem?_append_left hlt, List.getElem?_eq_getElem hlt, Option.getD_some]
  · rw [List.getElem?_append_right hge, List.getElem?_replicate_of_lt (by omega),
      List.getElem?_eq_none hge, Option.getD_none]

/-- As far as the padding reaches, both policies give the same. -/
theorem EofPolicy.sameRead_pad (hj : j < input.length + n) :
    EofPolicy.zero.SameRead .error input (input ++ List.replicate n 0) none j :=
  ⟨input.getD j 0, rfl, getElem?_pad hj, .inl rfl⟩

/-- A read past the end is no fault under the zero policy. -/
theorem Setup.execute_zero_ne_exhausted {cancelled : Bool}
    (h : execute ⟨p, .zero, maxSteps⟩ turns input cancelled trace = some report)
    (ip consumed : Nat) : report.ending ≠ .failed (.inputExhausted ip consumed) := by
  intro hfailed
  cases (exists_read_of_exhausted h hfailed).1

/-- Where the zero policy has given `m` zeros past the end, padding with at least as many makes no
difference. -/
theorem Setup.exists_execute_padded
    (h : execute ⟨p, .zero, maxSteps⟩ turns input false none = some report)
    (hn : readsPastEnd ⟨p, .zero, maxSteps⟩ turns input false none ≤ n) :
    ∃ report',
      execute ⟨p, .error, maxSteps⟩ turns (input ++ List.replicate n 0) false none =
        some report' ∧ report'.outcome = report.outcome ∧ report'.steps = report.steps := by
  rw [readsPastEnd_eq] at hn
  obtain ⟨report', hreport', houtcome, hsteps, -⟩ := execute_withInput h fun j hj =>
    EofPolicy.sameRead_pad (Nat.lt_of_lt_of_le hj (Nat.sub_le_iff_le_add'.1 hn))
  exact ⟨report', hreport', houtcome, hsteps⟩

/-- A padding that is not used up makes no difference. -/
theorem Setup.exists_execute_zero
    (h : execute ⟨p, .error, maxSteps⟩ turns (input ++ List.replicate n 0) false none =
      some report)
    (hne : ∀ ip consumed, report.ending ≠ .failed (.inputExhausted ip consumed)) :
    ∃ report', execute ⟨p, .zero, maxSteps⟩ turns input false none = some report' ∧
      report'.outcome = report.outcome ∧ report'.steps = report.steps := by
  have hended : ∀ other, progress ⟨p, .error, maxSteps⟩ turns (input ++ List.replicate n 0) false
      none = .ended other → ∀ ip consumed, other.ending ≠ .failed (.inputExhausted ip consumed) := by
    intro other hother
    cases (execute_eq_some_iff.1 h).symm.trans hother
    exact hne
  obtain ⟨report', hreport', houtcome, hsteps, -⟩ := execute_withInput h fun j hj => by
    -- the read got a byte, so it was not past the zeros
    obtain ⟨b, hb⟩ := exists_byte?_of_lt_reads hended hj
    refine (EofPolicy.sameRead_pad (Nat.lt_of_not_le fun hle => ?_)).symm
    rw [EofPolicy.byte?_eq_none_iff.2 ⟨rfl, by simpa using hle⟩] at hb
    cases hb
  exact ⟨report', hreport', houtcome, hsteps⟩

/-- The two policies agree up to zeros behind the input, for every accepted source, input and step
limit.

* If a run under the zero policy ends, having executed `m` reads past the end, the run under the
  error policy on the input with `m` or more zeros behind it ends with the same result after the
  same number of steps.
* If for some number of zeros the latter ends, and not for want of input, the run under the zero
  policy ends with that result after the same number of steps.
* A run under the zero policy never ends for want of input, but with success or at its limit. -/
theorem Setup.zero_iff_padded {source : String} (hsource : Program.ofSource source = .ok p)
    (maxSteps : Option Nat) (input : List UInt8) :
    (∀ turns report m, execute ⟨p, .zero, maxSteps⟩ turns input false none = some report →
      readsPastEnd ⟨p, .zero, maxSteps⟩ turns input false none = m → ∀ n, m ≤ n →
      ∃ report',
        execute ⟨p, .error, maxSteps⟩ turns (input ++ List.replicate n 0) false none =
          some report' ∧ report'.outcome = report.outcome ∧ report'.steps = report.steps) ∧
    (∀ turns n report,
      execute ⟨p, .error, maxSteps⟩ turns (input ++ List.replicate n 0) false none =
        some report →
      (∀ ip consumed, report.ending ≠ .failed (.inputExhausted ip consumed)) →
      ∃ report', execute ⟨p, .zero, maxSteps⟩ turns input false none = some report' ∧
        report'.outcome = report.outcome ∧ report'.steps = report.steps) ∧
    ∀ report, Ends ⟨p, .zero, maxSteps⟩ input false none report →
      (∃ output, report.outcome = .ok output) ∨
        ∃ limit, maxSteps = some limit ∧ report.outcome = .error (.stepLimit limit) := by
  refine ⟨?_, fun turns n report => exists_execute_zero, ?_⟩
  · rintro turns report m hreport rfl n hn
    exact exists_execute_padded hreport hn
  · intro report hends
    have hp := Program.paired_of_ofText hsource
    have htrace : ∀ sink ∈ (none : Option Sink), sink = Sink.unlimited := by simp
    unfold Report.outcome
    rcases hends.cases_of_uncancelled hp htrace with
      ⟨m, hm⟩ | ⟨ip, consumed, hfailed⟩ | ⟨limit, hlimit, hfailed⟩
    · rw [hm]
      exact .inl ⟨m.output, rfl⟩
    · obtain ⟨turns, hturns⟩ := hends
      exact absurd hfailed (execute_zero_ne_exhausted hturns ip consumed)
    · rw [hfailed]
      exact .inr ⟨limit, hlimit, rfl⟩

/-- One zero past the end ends the loop, and two more would not be read. -/
theorem Setup.zero_iff_padded_three : ∃ p report, Program.ofSource ",[.,]" = .ok p ∧
    execute ⟨p, .zero, some 5⟩ 6 [65] false none = some report ∧
    readsPastEnd ⟨p, .zero, some 5⟩ 6 [65] false none = 1 ∧ report.outcome = .ok #[65] ∧
    ∃ report', execute ⟨p, .error, some 5⟩ 6 [65, 0, 0, 0] false none = some report' ∧
      report'.outcome = .ok #[65] ∧ report'.steps = 5 := by
  have hsource : Program.ofSource ",[.,]" =
      .ok ⟨#[',', '[', '.', ',', ']'], #[none, some 4, none, none, some 1]⟩ := rfl
  have hexecute : ∃ report, execute ⟨⟨#[',', '[', '.', ',', ']'],
      #[none, some 4, none, none, some 1]⟩, .zero, some 5⟩ 6 [65] false none = some report ∧
      report.outcome = .ok #[65] ∧ report.steps = 5 := ⟨_, rfl, rfl, rfl⟩
  obtain ⟨report, hreport, houtcome, hsteps⟩ := hexecute
  obtain ⟨report', hreport', hsame, hsteps'⟩ := (zero_iff_padded hsource (some 5) [65]).1
    6 report 1 hreport (by decide) 3 (by decide)
  exact ⟨_, report, hsource, hreport, by decide, houtcome, report', hreport',
    hsame.trans houtcome, hsteps'.trans hsteps⟩

end TapeMachine
