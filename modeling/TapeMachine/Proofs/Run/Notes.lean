import TapeMachine.Proofs.Machine.Input
import TapeMachine.Proofs.Run.Progress
import TapeMachine.Proofs.Trace.Reading
set_option autoImplicit false

/-!
# Run: the notes about its input

The row of a read notes how many bytes have been consumed and which byte was stored.  As long as
there is input, this is the number of the byte and the byte itself.  A read past the end that stores
a zero consumes nothing, and its row has the same words, with the number of the last byte, or with 0
if there never was one.

The notes are found in the text of a trace (`Text.notes`), so that nothing has to be known about the
run that wrote it.

Main statement: the notes of a run number the bytes of the input and then repeat its length, and
they tell the truth exactly as long as there are no more of them than bytes (`notes_of_progress`).
-/

namespace TapeMachine

/-! ## Notes in a text -/

namespace Text

/-- What is behind the first `count` separators. -/
def behind? (sep : Char) : Nat → List Char → Option (List Char)
  | 0, text => some text
  | count + 1, text => (cutAt? sep text).bind fun cut => behind? sep count cut.2

/-- What is behind these words at the start of the text. -/
def after? (words text : List Char) : Option (List Char) :=
  if words <+: text then some (text.drop words.length) else none

/-- The number of the byte and its value in the line of a read: behind the fifth bar the line says
`Read input byte #`, and an arrow is between the two numbers. -/
def note? (line : List Char) : Option (Nat × Nat) := do
  let action ← behind? '|' 5 line
  let numbers ← after? " Read input byte #".toList action
  let (number, arrow) ← cutAt? ' ' numbers
  let value ← after? "-> ".toList arrow
  return (← Decimal.read? number, ← Decimal.read? value)

/-- The notes in the lines of a text. -/
def notes (text : List Char) : List (Nat × Nat) := (pieces '\n' text).filterMap note?

end Text

/-- What the row of a read notes. -/
def Action.note? : Action → Option (Nat × Nat)
  | got position value => some (position, value.toNat)
  | _ => none

/-- The notes tell the truth about an input: they number its bytes from 1 on, and the value beside a
number is the byte with this number. -/
def TrueOf (input : List UInt8) (notes : List (Nat × Nat)) : Prop :=
  ∀ j k v, notes[j]? = some (k, v) →
    k = j + 1 ∧ k ≤ input.length ∧ (input[k - 1]?).map UInt8.toNat = some v

/-- What is noted about read number `j`, counted from 0. -/
def noteOf (input : List UInt8) (j : Nat) : Nat × Nat :=
  (min (j + 1) input.length, (input.getD j 0).toNat)

namespace Text

theorem behind?_append {sep : Char} {a : List Char} (h : sep ∉ a) (count : Nat) (b : List Char) :
    behind? sep (count + 1) (a ++ sep :: b) = behind? sep count b := by
  rw [behind?, cutAt?_append h, Option.bind_some]

theorem after?_append (words text : List Char) : after? words (words ++ text) = some text := by
  rw [after?, if_pos (List.prefix_append words text), List.drop_left]

/-- The sixth field of the line of a row is its action in words, after a blank. -/
theorem behind?_line (step : Nat) (r : Row) :
    behind? '|' 5 (r.line step).toList = some (' ' :: r.action.text.toList) := by
  have hnumber := Row.notMem_number (c := '|') (by decide) (by decide)
  have hchar : '|' ∉ column 2 [r.instruction.char] 4 := by
    cases r.instruction <;> decide
  rw [Row.toList_line, behind?_append (hnumber _ _ _), behind?_append (hnumber _ _ _),
    behind?_append (hnumber _ _ _), behind?_append (hnumber _ _ _), behind?_append hchar, behind?]

end Text

theorem Action.text_got (position : Nat) (value : UInt8) : (got position value).text.toList =
    "Read input byte #".toList ++ (Nat.toDigits 10 position ++ ' ' ::
      ("-> ".toList ++ Nat.toDigits 10 value.toNat)) := by
  have hself (s : String) : toString s = s := rfl
  unfold text
  simp [hself]

/-- The words for everything but a read start with another letter. -/
theorem Action.head?_text {a : Action} (h : a.note? = none) : a.text.toList.head? ≠ some 'R' := by
  have hself (s : String) : toString s = s := rfl
  unfold text
  cases a with
  | got position value => cases h
  | _ => simp [hself]

theorem Action.after?_text {a : Action} (h : a.note? = none) :
    Text.after? " Read input byte #".toList (' ' :: a.text.toList) = none := by
  refine if_neg fun hprefix => ?_
  obtain ⟨rest, hrest⟩ := (List.cons_prefix_cons.1 hprefix).2
  exact head?_text h (hrest ▸ rfl)

/-- What is found in the line of a row is what the row notes. -/
theorem Text.note?_line (step : Nat) (r : Row) : note? (r.line step).toList = r.action.note? := by
  rw [note?, behind?_line, Option.bind_eq_bind, Option.bind_some]
  cases haction : r.action with
  | got position value =>
    have hnumber : ' ' ∉ Nat.toDigits 10 position := Decimal.notMem_toDigits (by decide) position
    rw [Action.text_got, ← List.cons_append,
      show ' ' :: "Read input byte #".toList = " Read input byte #".toList from rfl, after?_append]
    simp only [Option.bind_eq_bind, Option.bind_some, cutAt?_append hnumber, after?_append,
      Decimal.read?_toDigits]
    rfl
  | _ =>
    rw [Action.after?_text rfl]
    rfl

/-- What is found in the text of a table is what its rows note. -/
theorem Text.notes_table (rows : List Row) :
    notes (ofLines (Row.table rows)).toList = rows.filterMap fun r => r.action.note? := by
  have hlines : ((rows.mapIdx Row.line).map String.toList).map note? =
      rows.map fun r => r.action.note? := by
    refine List.ext_getElem? fun step => ?_
    simp only [List.getElem?_map, List.getElem?_mapIdx, Option.map_map]
    exact Option.map_congr fun r _ => note?_line step r
  have hheadings : note? Row.headings.toList = none := by decide
  have hruler : note? Row.ruler.toList = none := by decide
  have hend : [[]].filterMap note? = [] := rfl
  rw [notes, Row.pieces_table, Row.table, List.filterMap_append, List.map_cons, List.map_cons,
    List.filterMap_cons_none hheadings, List.filterMap_cons_none hruler, hend, List.append_nil]
  calc ((rows.mapIdx Row.line).map String.toList).filterMap note?
      = (((rows.mapIdx Row.line).map String.toList).map note?).filterMap id :=
        (List.filterMap_map (f := note?) (g := id)).symm
    _ = (rows.map fun r => r.action.note?).filterMap id := by rw [hlines]
    _ = rows.filterMap fun r => r.action.note? := List.filterMap_map

/-! ## Notes of a run -/

theorem Machine.note?_of_perform {p : Program} {policy : EofPolicy} {i : Instruction}
    {m done : Machine} {row : Row} (hi : i ≠ .get) (h : m.perform p policy i = .ok (done, row)) :
    row.action.note? = none := by
  cases i with
  | get => exact absurd rfl hi
  | left =>
    simp only [perform] at h
    cases h
    split <;> rfl
  | enter =>
    simp only [perform] at h
    repeat' split at h
    all_goals cases h <;> rfl
  | again =>
    simp only [perform] at h
    repeat' split at h
    all_goals cases h <;> rfl
  | _ => cases h; rfl

/-- What is noted about the first reads, and what is left of the input behind them. -/
structure Course.Noted (c : Course) (input : List UInt8) (k : Nat) (m : Machine) (reads : Nat) :
    Prop where
  input_eq : m.input = Input.after input reads
  notes_eq : ((c.rows k).filterMap fun r => r.action.note?) =
    (List.range reads).map (noteOf input)
  le_length : c.policy = .error → reads ≤ input.length

theorem noteOf_eq {policy : EofPolicy} {input : List UInt8} {reads : Nat} {b : UInt8}
    (h : policy.byte? input reads = some b) :
    noteOf input reads = ((Input.after input (reads + 1)).position, b.toNat) := by
  have hb : input.getD reads 0 = b := by
    cases policy with
    | error => rw [List.getD_eq_getElem?_getD, show input[reads]? = some b from h, Option.getD_some]
    | zero => exact Option.some.inj h
  rw [noteOf, hb]
  rfl

namespace Course

variable {c : Course} {input : List UInt8} {k reads : Nat} {m m' : Machine} {row : Row}

/-- One instruction adds the note about its read, if it is one. -/
theorem Noted.step (h : c.Noted input k m reads) (hm : c.machine? k = some m)
    (hstep : c.step? m = some (m', row)) :
    ∃ reads', c.Noted input (k + 1) m' reads' := by
  obtain ⟨i, -, hp⟩ := step?_eq_some_iff.1 hstep
  have hrows : ((c.rows (k + 1)).filterMap fun r => r.action.note?) =
      (List.range reads).map (noteOf input) ++ row.action.note?.toList := by
    rw [rows_succ_of_step? hm hstep, List.filterMap_append, h.notes_eq]
    cases hnote : row.action.note? <;> simp [hnote]
  by_cases hi : i = .get
  · subst hi
    cases hb : c.policy.byte? input reads with
    | none =>
      rw [Machine.perform_get_of_exhausted c.program h.input_eq hb] at hp
      cases hp
    | some b =>
      rw [Machine.perform_get_of_byte? c.program h.input_eq hb] at hp
      cases hp
      refine ⟨reads + 1, rfl, ?_, fun herror => ?_⟩
      · rw [hrows, List.range_succ, List.map_append, List.map_singleton, noteOf_eq hb]
        rfl
      · rw [herror] at hb
        exact (List.getElem?_eq_some_iff.1 hb).1
  · refine ⟨reads, (Machine.input_of_perform hi hp).trans h.input_eq, ?_, h.le_length⟩
    rw [hrows, Machine.note?_of_perform hi hp, Option.toList_none, List.append_nil]

/-- The notes of all instructions that a machine has completed. -/
theorem exists_noted (hstart : c.start.input = Input.ofBytes input) (h : c.machine? k = some m) :
    ∃ reads, c.Noted input k m reads := by
  induction k generalizing m with
  | zero =>
    cases h
    exact ⟨0, hstart.trans (Input.after_zero input).symm, rfl, fun _ => Nat.zero_le _⟩
  | succ k ih =>
    obtain ⟨m', done, row, hm', hstep, rfl⟩ := exists_step?_of_machine?_succ h
    obtain ⟨reads, hnoted⟩ := ih hm'
    obtain ⟨reads', hinput, hnotes, hle⟩ := hnoted.step hm' hstep
    exact ⟨reads', hinput, hnotes, hle⟩

end Course

theorem getElem?_map_noteOf {input : List UInt8} {reads j : Nat} {note : Nat × Nat} :
    ((List.range reads).map (noteOf input))[j]? = some note ↔
      j < reads ∧ noteOf input j = note := by
  rw [List.getElem?_map, Option.map_eq_some_iff]
  simp only [List.getElem?_eq_some_iff, List.length_range, List.getElem_range]
  constructor
  · rintro ⟨_, ⟨hlt, rfl⟩, hnote⟩
    exact ⟨hlt, hnote⟩
  · rintro ⟨hlt, hnote⟩
    exact ⟨j, ⟨hlt, rfl⟩, hnote⟩

/-- The notes about the first reads are true exactly if there is a byte for each of them. -/
theorem trueOf_iff (input : List UInt8) (reads : Nat) :
    TrueOf input ((List.range reads).map (noteOf input)) ↔ reads ≤ input.length := by
  constructor
  · intro h
    refine Nat.le_of_not_lt fun hlt => ?_
    -- the first note past the end has the number of the last byte once more
    have hnumber : min (input.length + 1) input.length = input.length + 1 :=
      (h _ _ _ (getElem?_map_noteOf.2 ⟨hlt, rfl⟩)).1
    omega
  · intro hle j k v hnote
    obtain ⟨hlt, hnote⟩ := getElem?_map_noteOf.1 hnote
    have hj : j < input.length := Nat.lt_of_lt_of_le hlt hle
    rw [noteOf, Nat.min_eq_left hj] at hnote
    cases hnote
    refine ⟨rfl, hj, ?_⟩
    show (input[j]?).map UInt8.toNat = some (input.getD j 0).toNat
    rw [List.getD_eq_getElem?_getD, List.getElem?_eq_getElem hj]
    rfl

/-- A trace that nothing keeps from being written is the table of the completed instructions. -/
theorem Setup.exists_written_empty (setup : Setup) (n : Nat) (input : List UInt8)
    (cancelled : Bool) (cancelAt : Option Nat) :
    ∃ (sink : Sink) (m : Machine) (k : Nat),
      (setup.progress n input cancelled (some (Sink.empty none cancelAt))).trace = some sink ∧
      (setup.progress n input cancelled (some (Sink.empty none cancelAt))).steps = k ∧
      (setup.course input).machine? k = some m ∧
      sink.written = (Text.ofLines (Row.table ((setup.course input).rows k))).toUTF8 := by
  have hfresh := Sink.fresh_empty cancelAt
  have hcourse := Run.onCourse_progress
    (Run.capacity_of_fresh fun _ hsink => Option.some.inj hsink ▸ hfresh) setup n input cancelled
  obtain ⟨m, hm⟩ := hcourse.exists_machine?
  exact ⟨_, m, _, hcourse.trace_eq, rfl, hm, hfresh.written_after _⟩

/-- What a run has noted about its input, at any time and whatever its program, its policy and its
control: note number `j`, counted from 0, has the number `j + 1` and the byte with this number, and
past the end it has the number of bytes and a zero.  So the notes tell the truth exactly if there
are no more of them than bytes, which is always so if a read past the end is a fault. -/
theorem Setup.notes_of_progress (setup : Setup) (n : Nat) (input : List UInt8) (cancelled : Bool)
    (cancelAt : Option Nat) :
    ∃ (sink : Sink) (text : String) (reads : Nat),
      (setup.progress n input cancelled (some (Sink.empty none cancelAt))).trace = some sink ∧
      sink.written = text.toUTF8 ∧
      Text.notes text.toList = (List.range reads).map (noteOf input) ∧
      (TrueOf input (Text.notes text.toList) ↔ reads ≤ input.length) ∧
      (setup.policy = .error → TrueOf input (Text.notes text.toList)) := by
  obtain ⟨sink, m, k, hsink, -, hm, hwritten⟩ :=
    setup.exists_written_empty n input cancelled cancelAt
  obtain ⟨reads, -, hnotes, hle⟩ := Course.exists_noted rfl hm
  rw [← Text.notes_table] at hnotes
  refine ⟨sink, _, reads, hsink, hwritten, hnotes, ?_, fun herror => ?_⟩
  · rw [hnotes, trueOf_iff]
  · rw [hnotes, trueOf_iff]
    exact hle herror

/-- Where a zero is stored past the end, one read without any input notes a byte number 0. -/
theorem Setup.notes_untrue_past_end :
    ∃ p, Program.ofText [','] = .ok p ∧ ∃ (sink : Sink) (text : String),
      (Setup.progress ⟨p, .zero, none⟩ 2 [] false (some Sink.unlimited)).trace = some sink ∧
      sink.written = text.toUTF8 ∧
      Text.pieces '\n' text.toList = [Row.headings.toList, Row.ruler.toList,
        "0    | 0   | 0   | 0    |  ,    | Read input byte #0 -> 0".toList, []] ∧
      Text.notes text.toList = [(0, 0)] ∧ ¬TrueOf [] (Text.notes text.toList) := by
  let setup : Setup := ⟨⟨#[','], #[none]⟩, .zero, none⟩
  obtain ⟨sink, -, k, hsink, rfl, -, hwritten⟩ := setup.exists_written_empty 2 [] false none
  have hrows : (setup.course []).rows
      (setup.progress 2 [] false (some (Sink.empty none none))).steps =
    [⟨0, 0, 0, .get, .got 0 0⟩] := rfl
  rw [hrows] at hwritten
  have hnotes := Text.notes_table [⟨0, 0, 0, .get, .got 0 0⟩]
  refine ⟨_, rfl, sink, _, hsink, hwritten, ?_, hnotes, ?_⟩
  · exact (Row.pieces_table _).trans (by decide +kernel)
  · rw [hnotes]
    intro h
    exact absurd (h 0 0 0 rfl).1 (by decide)

end TapeMachine
