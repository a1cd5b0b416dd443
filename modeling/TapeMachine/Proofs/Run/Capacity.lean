import TapeMachine.Proofs.Run.Progress
set_option autoImplicit false

/-!
# Run: a trace that becomes full

What happens when the trace takes a number of bytes and no more.  The run is compared with the one
whose trace takes everything.  Both go in step while the lines fit (`advance_capped`), and the first
line that does not fit is cut where the capacity is reached and ends the run, whatever the program
would have done later.

`Setup.Writes` says which bytes a trace that takes everything has at some time.  Of two such times
the earlier bytes are the beginning of the later ones, so the cut trace is the beginning of them
all.

Main statement: a trace that never exceeds the capacity is not affected by it, and otherwise the run
ends with the fault of the line that holds the first byte too many (`capped_or_ends_traceWrite`).
-/

namespace TapeMachine

/-- The sink that has taken the same and takes `capacity` bytes in all. -/
def Sink.capped (capacity : Nat) (s : Sink) : Sink := { s with capacity := some capacity }

/-- The run whose trace has a capacity. -/
def Run.capped (capacity : Nat) (r : Run) : Run :=
  { r with trace := r.trace.map (Sink.capped capacity) }

/-- The report of a run whose trace has a capacity. -/
def Report.capped (capacity : Nat) (report : Report) : Report :=
  { report with trace := report.trace.map (Sink.capped capacity) }

/-- What a turn leads to if the trace has a capacity. -/
def Turn.capped (capacity : Nat) : Turn → Turn
  | running r => .running (r.capped capacity)
  | ended report => .ended (report.capped capacity)

/-- The bytes of the head of every trace. -/
def Row.head : ByteArray := (Text.ofLines (table [])).toUTF8

/-- The trace takes everything and has not taken more than `capacity` bytes so far. -/
def Turn.Fits (capacity : Nat) (t : Turn) : Prop :=
  ∀ sink ∈ t.trace, sink.capacity = none ∧ sink.written.size ≤ capacity

/-- With its next turn the run completes the instruction it stands at, and byte number `n` of the
trace, counted from 0, is in the row of this instruction. -/
def Run.WritesByte (setup : Setup) (n : Nat) (r : Run) : Prop :=
  ∃ (r' : Run) (row : Row) (before after : Sink),
    r.turn setup = .running r' ∧ r'.steps = r.steps + 1 ∧
    row.ip = r.machine.ip ∧ setup.program.code[r.machine.ip]? = some row.instruction.char ∧
    r.trace = some before ∧ r'.trace = some after ∧
    after.written = before.written ++ ((row.line r.steps).push '\n').toUTF8 ∧
    before.written.size ≤ n ∧ n < after.written.size

/-- The next turn of the run writes byte number `capacity` of the trace.  If the trace has this
capacity, the turn ends the run instead, and `full` is what has become of the trace. -/
structure Run.Overflows (setup : Setup) (capacity : Nat) (r : Run) (full : Sink) : Prop where
  writesByte : r.WritesByte setup capacity
  turn_capped_eq : (r.capped capacity).turn setup =
    .ended ⟨.failed (.traceWrite r.machine.ip Sink.refusal), r.steps, some full⟩
  written_eq : ∀ r', r.turn setup = .running r' → ∀ after ∈ r'.trace,
    full.written = after.written.extract 0 capacity

/-- At some time these are the bytes that the run has written to a trace that takes everything. -/
def Setup.Writes (setup : Setup) (input : List UInt8) (cancelled : Bool) (cancelAt : Option Nat)
    (bytes : ByteArray) : Prop :=
  ∃ (n : Nat) (sink : Sink),
    (setup.progress n input cancelled (some (Sink.empty none cancelAt))).trace = some sink ∧
    sink.written = bytes

/-! ## The beginning of bytes -/

/-- What is cut off within the first part does not depend on the rest. -/
theorem extract_append_of_le {a b : ByteArray} {n : Nat} (h : n ≤ a.size) :
    (a ++ b).extract 0 n = a.extract 0 n := by
  have hrest : b.extract 0 (n - a.size) = ByteArray.empty := by
    rw [Nat.sub_eq_zero_of_le h]
    exact ByteArray.extract_eq_empty_iff.2 (by omega)
  rw [ByteArray.extract_append, Nat.zero_sub, hrest, ByteArray.append_empty]

theorem extract_append_of_ge {a b : ByteArray} {n : Nat} (h : a.size ≤ n) :
    (a ++ b).extract 0 n = a ++ b.extract 0 (n - a.size) := by
  have hfirst : a.extract 0 n = a := by
    rw [← ByteArray.extract_zero_size (b := a), ByteArray.extract_extract]
    simp [h]
  rw [ByteArray.extract_append, Nat.zero_sub, hfirst]

/-! ## A sink that becomes full -/

namespace Sink

variable {s : Sink} {capacity : Nat}

theorem written_after_singleton (s : Sink) (line : String) :
    (s.after [line]).written = s.written ++ (line.push '\n').toUTF8 := by
  have hline : Text.ofLines [line] = line.push '\n' := by
    simpa using Text.ofLines_concat [] line
  simp only [after, hline]

theorem writeLine_of_unlimited (h : s.capacity = none) (line : String) :
    s.writeLine line = (s.after [line], true) := by
  have hwrite := writeLine_after h [] line
  rwa [after_nil, List.nil_append] at hwrite

/-- A line that fits is taken. -/
theorem writeLine_capped {line : String} (h : (s.after [line]).written.size ≤ capacity) :
    (s.capped capacity).writeLine line = ((s.after [line]).capped capacity, true) := by
  rw [written_after_singleton, ByteArray.size_append] at h
  have hroom : (s.capped capacity).room (line.push '\n').toUTF8.size =
      (line.push '\n').toUTF8.size := by
    simp only [room, capped]
    omega
  simp only [writeLine, hroom, if_pos]
  simp only [capped, ← written_after_singleton]
  rfl

/-- A line that does not fit is cut where the capacity is reached. -/
theorem exists_writeLine_capped_of_lt {line : String} (hsize : s.written.size ≤ capacity)
    (h : capacity < (s.after [line]).written.size) :
    ∃ full : Sink, (s.capped capacity).writeLine line = (full, false) ∧
      full.written = (s.after [line]).written.extract 0 capacity := by
  rw [written_after_singleton] at h ⊢
  rw [ByteArray.size_append] at h
  have hroom : (s.capped capacity).room (line.push '\n').toUTF8.size =
      capacity - s.written.size := by
    simp only [room, capped]
    omega
  have hless : capacity - s.written.size ≠ (line.push '\n').toUTF8.size := by omega
  rw [extract_append_of_ge hsize]
  refine ⟨{ s.capped capacity with written := s.written ++
    (line.push '\n').toUTF8.extract 0 (capacity - s.written.size) }, ?_, rfl⟩
  simp only [writeLine, hroom, if_neg hless]
  rfl

theorem after_after (s : Sink) (a b : List String) : (s.after a).after b = s.after (a ++ b) := by
  simp only [after, Text.ofLines_append, String.toUTF8_eq_toByteArray, String.toByteArray_append,
    ByteArray.append_assoc, List.length_append, Nat.add_assoc]

theorem asksToCancel_capped (s : Sink) (capacity : Nat) :
    (s.capped capacity).asksToCancel = s.asksToCancel := rfl

end Sink

/-! ## One turn -/

namespace Run

variable {setup : Setup} {capacity : Nat} {r : Run}

/-- Completing an instruction with a capacity and without comes to the same if the row fits, and
otherwise ends the run. -/
theorem complete_capped (machine : Machine) (steps : Nat) (cancelled : Bool) {trace : Option Sink}
    (row : Row) (h : ∀ sink ∈ trace, sink.capacity = none ∧ sink.written.size ≤ capacity) :
    (complete machine steps cancelled (trace.map (Sink.capped capacity)) row =
        (complete machine steps cancelled trace row).capped capacity ∧
      (complete machine steps cancelled trace row).Fits capacity) ∨
    ∃ (r' : Run) (before full : Sink), complete machine steps cancelled trace row = .running r' ∧
      trace = some before ∧ r'.trace = some (before.after [row.line steps]) ∧
      capacity < (before.after [row.line steps]).written.size ∧
      complete machine steps cancelled (trace.map (Sink.capped capacity)) row =
        .ended ⟨.failed (.traceWrite row.ip Sink.refusal), steps, some full⟩ ∧
      full.written = (before.after [row.line steps]).written.extract 0 capacity := by
  cases trace with
  | none => exact .inl ⟨rfl, nofun⟩
  | some sink =>
    obtain ⟨hcapacity, hsize⟩ := h sink rfl
    have hwrite := Sink.writeLine_of_unlimited hcapacity (row.line steps)
    rcases Nat.lt_or_ge capacity (sink.after [row.line steps]).written.size with hover | hfits
    · right
      obtain ⟨full, hfull, hwritten⟩ := Sink.exists_writeLine_capped_of_lt hsize hover
      refine ⟨⟨machine, steps + 1, cancelled || (sink.after [row.line steps]).asksToCancel,
        some (sink.after [row.line steps])⟩, sink, full, ?_, rfl, rfl, hover, ?_, hwritten⟩
      · simp only [complete, hwrite]
      · simp only [complete, Option.map_some, hfull]
    · left
      have hcapped := Sink.writeLine_capped hfits
      simp only [complete, Option.map_some, hwrite, hcapped, Sink.asksToCancel_capped]
      refine ⟨rfl, ?_⟩
      intro later hlater
      cases hlater
      exact ⟨hcapacity, hfits⟩

/-- A turn with a capacity and without comes to the same if its row fits. -/
theorem turn_capped (setup : Setup) (h : (Turn.running r).Fits capacity) :
    ((r.capped capacity).turn setup = (r.turn setup).capped capacity ∧
      (r.turn setup).Fits capacity) ∨ ∃ full, Overflows setup capacity r full := by
  rcases cases_of_turn setup r with ⟨hc, ht⟩ | ⟨c, hc, hno, ht⟩ | ⟨i, hi, hattempt⟩
  · rw [ht]
    exact .inl ⟨turn_of_end (r := r.capped capacity) hc, h⟩
  · rw [ht]
    exact .inl ⟨turn_of_comment (r := r.capped capacity) hc hno, h⟩
  · rcases hattempt with ⟨fault, ho, ht⟩ | ⟨ho, ⟨fault, hp, ht⟩ | ⟨machine, row, hp, ht⟩⟩
    · rw [ht]
      exact .inl ⟨turn_of_obstacle (r := r.capped capacity) hi ho, h⟩
    · rw [ht]
      exact .inl ⟨turn_of_fault (r := r.capped capacity) hi ho hp, h⟩
    · have hcapped := turn_of_perform (r := r.capped capacity) hi ho hp
      rcases complete_capped machine r.steps r.cancelled row h with
        hsame | ⟨r', before, full, hgoes, hbefore, hafter, hover, hends, hwritten⟩
      · left
        rwa [hcapped, ht]
      · right
        obtain ⟨hip, -, -, hinstruction⟩ := Machine.row_of_perform hp
        have hrow : setup.program.code[r.machine.ip]? = some row.instruction.char := by
          rw [hi, hinstruction]
        refine ⟨full, ?_, hcapped.trans (hip ▸ hends), ?_⟩
        · exact ⟨r', row, before, _, ht.trans hgoes, (machine_of_complete hgoes).2, hip, hrow,
            hbefore, hafter, Sink.written_after_singleton before _, (h before hbefore).2, hover⟩
        · intro next hnext after hmem
          cases (ht.trans hgoes).symm.trans hnext
          cases hafter.symm.trans hmem
          exact hwritten

/-! ## Many turns -/

/-- Two runs, of which one has a capacity, are in step up to the first row that does not fit. -/
theorem advance_capped (setup : Setup) (h : (Turn.running r).Fits capacity) (n : Nat) :
    ((r.capped capacity).advance setup n = (r.advance setup n).capped capacity ∧
      (r.advance setup n).Fits capacity) ∨
    ∃ (m : Nat) (last : Run) (full : Sink), r.advance setup m = .running last ∧
      (r.capped capacity).advance setup m = .running (last.capped capacity) ∧
      Overflows setup capacity last full := by
  induction n generalizing r with
  | zero => exact .inl ⟨rfl, h⟩
  | succ n ih =>
    rcases turn_capped setup h with ⟨hsame, hfits⟩ | ⟨full, hover⟩
    · cases ht : r.turn setup with
      | ended report =>
        rw [ht] at hsame hfits
        rw [advance_succ_of_ended ht, advance_succ_of_ended hsame]
        exact .inl ⟨rfl, hfits⟩
      | running next =>
        rw [ht] at hsame hfits
        rw [advance_succ_of_running ht, advance_succ_of_running hsame]
        rcases ih hfits with hrest | ⟨m, last, full, hlast, hcapped, hover⟩
        · exact .inl hrest
        · right
          refine ⟨m + 1, last, full, ?_, ?_, hover⟩
          · rw [advance_succ_of_running ht, hlast]
          · rw [advance_succ_of_running hsame, hcapped]
    · exact .inr ⟨0, r, full, rfl, rfl, hover⟩

/-! ## The head -/

theorem written_after_head (cancelAt : Option Nat) :
    ((Sink.empty none cancelAt).after [Row.headings, Row.ruler]).written = Row.head :=
  (Sink.fresh_empty cancelAt).written_after _

/-- Starting with a capacity and without comes to the same if the head fits, and otherwise the run
ends before its first turn. -/
theorem start_capped (input : List UInt8) (cancelled : Bool) (cancelAt : Option Nat)
    (capacity : Nat) :
    (Row.head.size ≤ capacity ∧
      start input cancelled (some (Sink.empty (some capacity) cancelAt)) =
        (start input cancelled (some (Sink.empty none cancelAt))).capped capacity) ∨
    (capacity < Row.head.size ∧ ∃ full : Sink,
      start input cancelled (some (Sink.empty (some capacity) cancelAt)) =
        .ended ⟨.failed (.traceWrite 0 Sink.refusal), 0, some full⟩ ∧
      full.written = Row.head.extract 0 capacity) := by
  have hcapped : Sink.empty (some capacity) cancelAt =
      (Sink.empty none cancelAt).capped capacity := rfl
  have hboth : ((Sink.empty none cancelAt).after [Row.headings]).after [Row.ruler] =
      (Sink.empty none cancelAt).after [Row.headings, Row.ruler] := Sink.after_after _ _ _
  have hhead : Row.head = ((Sink.empty none cancelAt).after [Row.headings]).written ++
      (Row.ruler.push '\n').toUTF8 := by
    rw [← Sink.written_after_singleton, hboth, written_after_head]
  have hempty : (Sink.empty none cancelAt).written.size ≤ capacity := Nat.zero_le capacity
  rw [hcapped]
  rcases Nat.lt_or_ge capacity ((Sink.empty none cancelAt).after [Row.headings]).written.size with
    hfirst | hfirst
  · -- already the names of the columns do not fit
    right
    obtain ⟨full, hfull, hwritten⟩ := Sink.exists_writeLine_capped_of_lt hempty hfirst
    refine ⟨?_, full, ?_, ?_⟩
    · rw [hhead, ByteArray.size_append]
      omega
    · simp only [start, hfull]
    · rw [hwritten, hhead, extract_append_of_le (Nat.le_of_lt hfirst)]
  · have hnames := Sink.writeLine_capped hfirst
    rcases Nat.lt_or_ge capacity Row.head.size with hover | hfits
    · right
      have hover' : capacity <
          (((Sink.empty none cancelAt).after [Row.headings]).after [Row.ruler]).written.size := by
        rwa [hboth, written_after_head]
      obtain ⟨full, hfull, hwritten⟩ := Sink.exists_writeLine_capped_of_lt hfirst hover'
      refine ⟨hover, full, ?_, ?_⟩
      · simp only [start, hnames, hfull]
      · rw [hwritten, hboth, written_after_head]
    · left
      have hfits' :
          (((Sink.empty none cancelAt).after [Row.headings]).after [Row.ruler]).written.size ≤
            capacity := by
        rwa [hboth, written_after_head]
      have hruler := Sink.writeLine_capped hfits'
      have hnames' := Sink.writeLine_of_unlimited (s := Sink.empty none cancelAt) rfl Row.headings
      have hruler' := Sink.writeLine_of_unlimited
        (s := (Sink.empty none cancelAt).after [Row.headings]) rfl Row.ruler
      refine ⟨hfits, ?_⟩
      simp only [start, hnames, hruler, hnames', hruler', Sink.asksToCancel_capped]
      rfl

end Run

/-! ## All that is written -/

section Writes

variable {setup : Setup} {input : List UInt8} {cancelled : Bool} {cancelAt : Option Nat}
  {a b : ByteArray}

theorem Row.exists_table_append {rows more : List Row} (h : rows <+: more) :
    ∃ lines, table more = table rows ++ lines := by
  obtain ⟨rest, rfl⟩ := h
  exact ⟨_, by rw [table, table, List.mapIdx_append]; rfl⟩

/-- What is written is the table of some first rows of the course. -/
theorem Setup.Writes.exists_rows (h : setup.Writes input cancelled cancelAt a) :
    ∃ k, a = (Text.ofLines (Row.table ((setup.course input).rows k))).toUTF8 := by
  obtain ⟨n, sink, hsink, rfl⟩ := h
  have htrace : ∀ sink ∈ some (Sink.empty none cancelAt), sink.Fresh := by
    intro first hfirst
    cases hfirst
    exact Sink.fresh_empty cancelAt
  exact ⟨_, Run.written_of_progress htrace setup n input cancelled sink hsink⟩

/-- The table of fewer instructions is written first. -/
theorem exists_append_of_le (c : Course) {j k : Nat} (h : j ≤ k) :
    ∃ rest, (Text.ofLines (Row.table (c.rows k))).toUTF8 =
      (Text.ofLines (Row.table (c.rows j))).toUTF8 ++ rest := by
  have hrows := Course.rows_prefix c h
  obtain ⟨lines, hlines⟩ := Row.exists_table_append hrows
  refine ⟨(Text.ofLines lines).toUTF8, ?_⟩
  rw [hlines, Text.ofLines_append]
  exact String.toByteArray_append

/-- What is written at two times begins with the same bytes. -/
theorem Setup.Writes.extract_eq (ha : setup.Writes input cancelled cancelAt a)
    (hb : setup.Writes input cancelled cancelAt b) {n : Nat} (hna : n ≤ a.size) (hnb : n ≤ b.size) :
    a.extract 0 n = b.extract 0 n := by
  obtain ⟨j, rfl⟩ := ha.exists_rows
  obtain ⟨k, rfl⟩ := hb.exists_rows
  rcases Nat.le_total j k with hjk | hkj
  · obtain ⟨rest, hrest⟩ := exists_append_of_le (setup.course input) hjk
    rw [hrest, extract_append_of_le hna]
  · obtain ⟨rest, hrest⟩ := exists_append_of_le (setup.course input) hkj
    rw [hrest, extract_append_of_le hnb]

/-- A run whose trace takes everything starts with its head written. -/
theorem Run.exists_start_written (input : List UInt8) (cancelled : Bool) (cancelAt : Option Nat) :
    ∃ (r : Run) (sink : Sink),
      start input cancelled (some (Sink.empty none cancelAt)) = .running r ∧
      r.trace = some sink ∧ sink.capacity = none ∧ sink.written = Row.head := by
  have htrace : ∀ sink ∈ some (Sink.empty none cancelAt), sink.capacity = none := by
    intro sink hsink
    cases hsink
    rfl
  exact ⟨_, _, start_eq htrace input cancelled, rfl, rfl, written_after_head cancelAt⟩

theorem Setup.writes_head (setup : Setup) (input : List UInt8) (cancelled : Bool)
    (cancelAt : Option Nat) : setup.Writes input cancelled cancelAt Row.head := by
  obtain ⟨r, sink, hstart, hsink, -, hwritten⟩ :=
    Run.exists_start_written input cancelled cancelAt
  exact ⟨0, sink, by simp only [progress, hstart]; exact hsink, hwritten⟩

/-- The run with a capacity and the run without are in step, or there is a first row that does not
fit. -/
theorem Setup.progress_capped (setup : Setup) (input : List UInt8) (cancelled : Bool)
    (cancelAt : Option Nat) {capacity : Nat} (hhead : Row.head.size ≤ capacity)
    (hstart : Run.start input cancelled (some (Sink.empty (some capacity) cancelAt)) =
      (Run.start input cancelled (some (Sink.empty none cancelAt))).capped capacity) (n : Nat) :
    (setup.progress n input cancelled (some (Sink.empty (some capacity) cancelAt)) =
        (setup.progress n input cancelled (some (Sink.empty none cancelAt))).capped capacity ∧
      (setup.progress n input cancelled (some (Sink.empty none cancelAt))).Fits capacity) ∨
    ∃ (m : Nat) (last : Run) (full : Sink),
      setup.progress m input cancelled (some (Sink.empty none cancelAt)) = .running last ∧
      setup.progress m input cancelled (some (Sink.empty (some capacity) cancelAt)) =
        .running (last.capped capacity) ∧
      last.Overflows setup capacity full := by
  obtain ⟨first, sink, hfirst, hsink, hunlimited, hwritten⟩ :=
    Run.exists_start_written input cancelled cancelAt
  have hfits : (Turn.running first).Fits capacity := by
    intro other hother
    cases hsink.symm.trans hother
    exact ⟨hunlimited, hwritten ▸ hhead⟩
  rw [hfirst] at hstart
  have hstart' : Run.start input cancelled (some (Sink.empty (some capacity) cancelAt)) =
      .running (first.capped capacity) := hstart
  simp only [progress, hfirst, hstart']
  exact Run.advance_capped setup hfits n

/-- Where a trace would exceed the capacity, the run that nothing limits goes on to write more
bytes. -/
theorem Run.Overflows.exists_writes {capacity : Nat} {last : Run} {full : Sink} {n : Nat}
    (h : last.Overflows setup capacity full)
    (hlast : setup.progress n input cancelled (some (Sink.empty none cancelAt)) = .running last) :
    ∃ bytes, setup.Writes input cancelled cancelAt bytes ∧ capacity < bytes.size ∧
      full.written = bytes.extract 0 capacity := by
  obtain ⟨r', row, before, after, hturn, -, -, -, -, hafter, -, -, hover⟩ := h.writesByte
  refine ⟨after.written, ⟨n + 1, after, ?_, rfl⟩, hover, h.written_eq r' hturn after hafter⟩
  rw [Setup.progress_succ hlast, hturn]
  exact hafter

end Writes

/-- A run whose trace takes `capacity` bytes in all, next to the same run with a trace that takes
everything.

* If the latter never writes more, both are in step all the time, and the trace is the same.
* If at some time it has written more, the former ends with the fault of a line that could not be
  written, and in no other way.  Its trace has the first `capacity` bytes.  The fault points at 0 if
  the head does not fit, and else at the instruction whose row holds byte number `capacity`. -/
theorem Setup.capped_or_ends_traceWrite (setup : Setup) (input : List UInt8) (cancelled : Bool)
    (cancelAt : Option Nat) (capacity : Nat) :
    ((∀ bytes, setup.Writes input cancelled cancelAt bytes → bytes.size ≤ capacity) →
      ∀ n, setup.progress n input cancelled (some (Sink.empty (some capacity) cancelAt)) =
        (setup.progress n input cancelled (some (Sink.empty none cancelAt))).capped capacity) ∧
    ∀ bytes, setup.Writes input cancelled cancelAt bytes → capacity < bytes.size →
      ∃ (report : Report) (ip : Nat) (sink : Sink),
        setup.Ends input cancelled (some (Sink.empty (some capacity) cancelAt)) report ∧
        (∀ other, setup.Ends input cancelled (some (Sink.empty (some capacity) cancelAt)) other →
          other = report) ∧
        report.outcome = .error (.traceWrite ip Sink.refusal) ∧
        report.trace = some sink ∧ sink.written = bytes.extract 0 capacity ∧
        (capacity < Row.head.size ∧ ip = 0 ∨
          Row.head.size ≤ capacity ∧ ∃ n r,
            setup.progress n input cancelled (some (Sink.empty none cancelAt)) = .running r ∧
            r.WritesByte setup capacity ∧ ip = r.machine.ip) := by
  have hwrites := setup.writes_head input cancelled cancelAt
  rcases Run.start_capped input cancelled cancelAt capacity with
    ⟨hhead, hstart⟩ | ⟨hhead, full, hstart, hfull⟩
  · have hcapped := setup.progress_capped input cancelled cancelAt hhead hstart
    constructor
    · intro hall n
      rcases hcapped n with ⟨hsame, -⟩ | ⟨m, last, full, hlast, -, hover⟩
      · exact hsame
      · obtain ⟨bytes, hbytes, hmore, -⟩ := hover.exists_writes hlast
        exact absurd hmore (Nat.not_lt_of_le (hall bytes hbytes))
    · intro bytes hbytes hmore
      obtain ⟨n, sink, hsink, rfl⟩ := hbytes
      rcases hcapped n with ⟨-, hfits⟩ | ⟨m, last, full, hlast, hlast', hover⟩
      · exact absurd hmore (Nat.not_lt_of_le (hfits sink hsink).2)
      · have hended := (progress_succ hlast').trans hover.turn_capped_eq
        have hends : setup.Ends input cancelled (some (Sink.empty (some capacity) cancelAt)) _ :=
          ⟨m + 1, execute_eq_some_iff.2 hended⟩
        obtain ⟨others, hothers, hmore', hfull⟩ := hover.exists_writes hlast
        refine ⟨_, last.machine.ip, full, hends, fun other hother => hother.unique hends, rfl, rfl,
          ?_, .inr ⟨hhead, m, last, hlast, hover.writesByte, rfl⟩⟩
        rw [hfull]
        exact hothers.extract_eq ⟨n, sink, hsink, rfl⟩ (Nat.le_of_lt hmore') (Nat.le_of_lt hmore)
  · constructor
    · intro hall
      exact absurd hhead (Nat.not_lt_of_le (hall _ hwrites))
    · intro bytes hbytes hmore
      have hends : setup.Ends input cancelled (some (Sink.empty (some capacity) cancelAt)) _ :=
        ⟨0, by rw [execute, hstart]⟩
      refine ⟨_, 0, full, hends, fun other hother => hother.unique hends, rfl, rfl, ?_,
        .inl ⟨hhead, rfl⟩⟩
      rw [hfull]
      exact hwrites.extract_eq hbytes (Nat.le_of_lt hhead) (Nat.le_of_lt hmore)

end TapeMachine
