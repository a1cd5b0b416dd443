import Mathlib.Data.List.TakeWhile
import TapeMachine.Proofs.Command.Channel
import TapeMachine.Proofs.Diagnostic.Window
set_option autoImplicit false

/-!
# Command: the caret

What a user is shown about a fault ends with a caret line, and the caret has to stand under the
character that the fault points at.  The window is printed as it stands in the program, so it need
not be one line, and the caret line takes no account of that: an end of a line before the place
moves the place away from its column, and one at the place or behind it moves the caret line away.

Main statement: the caret stands under its character exactly if the window is one line
(`caret_below_iff`).
-/

namespace TapeMachine

/-! ## Lines and columns -/

namespace Text

/-- How many lines of a text end before a position. -/
def lineOf (text : List Char) (index : Nat) : Nat := (text.take index).count '\n'

/-- How many characters stand before a position in its line. -/
def columnOf (text : List Char) (index : Nat) : Nat :=
  ((text.take index).reverse.takeWhile (· != '\n')).length

/-- The second position is on the next line, in the column of the first. -/
def Below (text : List Char) (upper lower : Nat) : Prop :=
  lineOf text lower = lineOf text upper + 1 ∧ columnOf text lower = columnOf text upper

instance (text : List Char) (upper lower : Nat) : Decidable (Below text upper lower) :=
  inferInstanceAs (Decidable (_ ∧ _))

section

variable {text a : List Char} {index : Nat}

theorem getElem?_append_cons {α : Type} (a : List α) (x : α) (b : List α) (index : Nat) :
    (a ++ x :: b)[a.length + 1 + index]? = b[index]? := by
  rw [List.getElem?_append_right (by omega), Nat.add_assoc, Nat.add_sub_cancel_left,
    Nat.add_comm 1, List.getElem?_cons_succ]

theorem lineOf_append_cons (a b : List Char) (index : Nat) :
    lineOf (a ++ '\n' :: b) (a.length + 1 + index) = a.count '\n' + 1 + lineOf b index := by
  rw [lineOf, Nat.add_assoc, List.take_length_add_append, Nat.add_comm 1, List.take_succ_cons,
    List.count_append, List.count_cons_self, lineOf]
  omega

theorem takeWhile_append_newline (a b : List Char) :
    (a ++ '\n' :: b).takeWhile (· != '\n') = a.takeWhile (· != '\n') := by
  induction a with
  | nil => rfl
  | cons c a ih => rw [List.cons_append, List.takeWhile_cons, List.takeWhile_cons, ih]

theorem columnOf_append_cons (a b : List Char) (index : Nat) :
    columnOf (a ++ '\n' :: b) (a.length + 1 + index) = columnOf b index := by
  rw [columnOf, Nat.add_assoc, List.take_length_add_append, Nat.add_comm 1, List.take_succ_cons,
    List.reverse_append, List.reverse_cons, List.append_assoc, List.singleton_append,
    takeWhile_append_newline, columnOf]

theorem lineOf_append_left (b : List Char) (h : index ≤ a.length) :
    lineOf (a ++ b) index = lineOf a index := by
  rw [lineOf, List.take_append_of_le_length h, lineOf]

theorem columnOf_append_left (b : List Char) (h : index ≤ a.length) :
    columnOf (a ++ b) index = columnOf a index := by
  rw [columnOf, List.take_append_of_le_length h, columnOf]

theorem lineOf_eq_zero (h : '\n' ∉ text.take index) : lineOf text index = 0 :=
  List.count_eq_zero.2 h

/-- A position is in the column of its number exactly if it is on the first line. -/
theorem columnOf_eq_iff (h : index ≤ text.length) :
    columnOf text index = index ↔ '\n' ∉ text.take index := by
  have hlength : (text.take index).reverse.length = index := by
    rw [List.length_reverse, List.length_take, Nat.min_eq_left h]
  constructor
  · intro hcolumn hmem
    have hall := List.takeWhile_eq_self_iff.1
      ((List.takeWhile_prefix _).eq_of_length (hcolumn.trans hlength.symm))
    exact absurd (hall '\n' (List.mem_reverse.2 hmem)) (by decide)
  · intro hmem
    have hall : ∀ c ∈ (text.take index).reverse, (c != '\n') = true := fun c hc =>
      bne_iff_ne.2 fun heq => hmem (heq ▸ List.mem_reverse.1 hc)
    rw [columnOf, List.takeWhile_eq_self_iff.2 hall, hlength]

/-- Of two texts with a line end between them, equally far positions are one below the other exactly
if the first text has no other line end. -/
theorem below_iff (head : List Char) {shown under : List Char} {index : Nat}
    (hshown : index ≤ shown.length) (hunder : index ≤ under.length)
    (hline : '\n' ∉ under.take index) :
    Below (head ++ '\n' :: (shown ++ '\n' :: under)) (head.length + 1 + index)
        (head.length + 1 + (shown.length + 1 + index)) ↔ '\n' ∉ shown := by
  have hcolumn : columnOf under index = index := (columnOf_eq_iff hunder).2 hline
  have hcount : shown.count '\n' = lineOf shown index + (shown.drop index).count '\n' := by
    rw [lineOf, ← List.count_append, List.take_append_drop]
  have hmem : '\n' ∉ shown ↔ '\n' ∉ shown.take index ∧ '\n' ∉ shown.drop index := by
    rw [← not_or, ← List.mem_append, List.take_append_drop]
  rw [Below, lineOf_append_cons, lineOf_append_cons, lineOf_append_cons, columnOf_append_cons,
    columnOf_append_cons, columnOf_append_cons, lineOf_append_left _ hshown,
    columnOf_append_left _ hshown, lineOf_eq_zero hline, hcolumn, hmem, hcount,
    ← columnOf_eq_iff hshown, ← List.count_eq_zero]
  -- a line end behind the position puts lines in between, and one before it moves the column
  omega

example : Below "c[\n ^".toList 1 4 ∧ ¬Below "c[\n   ^".toList 1 6 := by decide

end

end Text

/-! ## The place and the caret -/

namespace Diagnostic

/-- The first of the lines about a fault at a place. -/
def headlineAt (name : String) (fault : Fault) (pos : Nat) : String :=
  fault.headline (some name) ++ " at instruction " ++ toString pos

/-- What is printed about a place in a program, under this first line. -/
def printed (headline : String) (code : List Char) (pos : Nat) : String :=
  layout headline (String.ofList (around code pos)) (caretAt pos)

/-- The position of the place in what is printed about it. -/
def placeIndex (headline : String) (pos : Nat) : Nat := headline.length + 1 + (2 + min pos 32)

/-- The position of the caret: it is the last character of the last line. -/
def caretIndex (text : String) : Nat := text.length - 2

/-- The caret stands right under the place. -/
def CaretUnder (headline : String) (pos : Nat) (text : String) : Prop :=
  Text.Below text.toList (placeIndex headline pos) (caretIndex text)

section

variable {code : List Char} {pos : Nat}

theorem lt_length_around (h : pos < code.length) : min pos 32 < (around code pos).length := by
  have hsome := (getElem?_around h).trans (List.getElem?_eq_getElem h)
  exact (List.getElem?_eq_some_iff.1 hsome).1

theorem mem_of_mem_around {c : Char} (h : c ∈ around code pos) : c ∈ code :=
  List.mem_of_mem_drop (List.mem_of_mem_take h)

/-- The three lines, each with its end, and the blanks before the second and the third. -/
theorem toList_printed (headline : String) (code : List Char) (pos : Nat) :
    (printed headline code pos).toList = headline.toList ++ '\n' ::
      (' ' :: ' ' :: around code pos ++ '\n' ::
        (List.replicate (2 + min pos 32) ' ' ++ ['^', '\n'])) := by
  rw [Nat.add_comm 2, List.replicate_succ, List.replicate_succ]
  simp [printed, layout, caretAt]

theorem caretIndex_printed (headline : String) (code : List Char) (pos : Nat) :
    caretIndex (printed headline code pos) =
      headline.length + 1 + ((' ' :: ' ' :: around code pos).length + 1 + (2 + min pos 32)) := by
  rw [caretIndex, ← String.length_toList, toList_printed, ← String.length_toList]
  simp only [List.length_append, List.length_cons, List.length_replicate, List.length_nil]
  omega

/-- The two positions hold the character of the program and the caret. -/
theorem getElem?_printed (headline : String) (h : pos < code.length) :
    (printed headline code pos).toList[placeIndex headline pos]? = code[pos]? ∧
    (printed headline code pos).toList[caretIndex (printed headline code pos)]? = some '^' := by
  have hlt := lt_length_around h
  constructor
  · rw [toList_printed, placeIndex, ← String.length_toList, Text.getElem?_append_cons,
      List.getElem?_append_left (by simp only [List.length_cons]; omega), Nat.add_comm 2,
      List.getElem?_cons_succ, List.getElem?_cons_succ, getElem?_around h]
  · rw [caretIndex_printed, toList_printed, ← String.length_toList, Text.getElem?_append_cons,
      Text.getElem?_append_cons, List.getElem?_append_right (by simp), List.length_replicate,
      Nat.sub_self]
    rfl

/-- The caret stands under the place exactly if the window is one line. -/
theorem caretUnder_printed_iff (headline : String) (h : pos < code.length) :
    CaretUnder headline pos (printed headline code pos) ↔ '\n' ∉ around code pos := by
  have hshown : 2 + min pos 32 ≤ (' ' :: ' ' :: around code pos).length := by
    have hlt := lt_length_around h
    simp only [List.length_cons]
    omega
  have hunder : 2 + min pos 32 ≤ (List.replicate (2 + min pos 32) ' ' ++ ['^', '\n']).length := by
    simp
  have hline : '\n' ∉
      (List.replicate (2 + min pos 32) ' ' ++ ['^', '\n']).take (2 + min pos 32) := by
    rw [List.take_append_of_le_length (by simp)]
    simp
  rw [CaretUnder, caretIndex_printed, toList_printed, placeIndex, ← String.length_toList,
    Text.below_iff headline.toList hshown hunder hline]
  simp

theorem describe?_eq_printed {name : String} {fault : Fault}
    (hplace : fault.instruction? = some pos) (hpos : pos ≤ UInt64.size - 34) :
    describe? (some name) code fault = some (printed (headlineAt name fault pos) code pos) := by
  rw [describe?, hplace]
  simp only [context?_eq_around _ (add_reach_lt_size hpos), Option.map_some, Context.render_plain,
    Context.caretLine_eq]
  rfl

end

end Diagnostic

/-! ## What is reported -/

namespace Command

/-- The program reports a fault in this text, which it was given to check or to run. -/
inductive Reports (world : World) (turns : Job → Nat) (name : String) (words : List String)
    (source : List Char) (fault : Fault) : Prop
  /-- A check does not accept the text. -/
  | checked {c : CheckOptions} (hparse : Invocation.parse words = .ok ⟨false, some (.check c)⟩)
    (hhelp : c.help = false) (hsource : Supplies world c.file c.code source)
    (hfault : Program.ofText source = .error fault)
  /-- A run does not accept the text. -/
  | refused {o : RunOptions} {input : List UInt8}
    (hparse : Invocation.parse words = .ok ⟨false, some (.run o)⟩) (hhelp : o.help = false)
    (hsource : Supplies world o.file o.code source) (hinput : Feeds world o.input o.inputFile input)
    (hfault : Program.ofText source = .error fault)
  /-- A run of the text ends with the fault. -/
  | failed {o : RunOptions} {p : Program} {input : List UInt8} {report : Report}
    (hparse : Invocation.parse words = .ok ⟨false, some (.run o)⟩)
    (hready : o.Ready world source p input)
    (hreport : (o.job world name source p input).execute
      (turns (o.job world name source p input)) = some report)
    (hending : report.ending = .failed fault)

section

variable {world : World} {turns : Job → Nat} {name : String} {words : List String}
  {source : List Char} {fault : Fault} {pos : Nat}

/-- A fault that points at a place is described in the end of a run like in the end of a check. -/
theorem Job.complaint_of_place (job : Job) (h : fault.instruction? = some pos) :
    job.complaint (.failed fault) =
      (Diagnostic.describe? (some job.name) job.source fault).getD "" := by
  cases fault with
  | unclosedLoop => rfl
  | inputExhausted => rfl
  | stepLimit => cases h
  | cancelled => cases h
  | traceWrite => rfl

theorem Reports.stderr_eq (h : Reports world turns name words source fault)
    (hplace : fault.instruction? = some pos) :
    (invoke world turns name words).stderr =
      (Diagnostic.describe? (some name) source fault).getD "" := by
  cases h with
  | checked hparse hhelp hsource hfault =>
    rw [invoke_of_error (prepare_eq_check hparse), run_check_of_supplies name hhelp hsource, hfault]
    rfl
  | refused hparse hhelp hsource hinput hfault =>
    have hprepare := run_prepareRun_of_supplies name hhelp hsource hinput
    rw [← prepare_eq_run hparse, hfault] at hprepare
    rw [invoke_of_error hprepare]
    rfl
  | failed hparse hready hreport hending =>
    rw [invoke_of_report (hready.run_prepare hparse) hreport]
    exact (congrArg _ hending).trans (Job.complaint_of_place _ hplace)

theorem Reports.stderr_eq_printed (h : Reports world turns name words source fault)
    (hplace : fault.instruction? = some pos) (hpos : pos ≤ UInt64.size - 34) :
    (invoke world turns name words).stderr =
      Diagnostic.printed (Diagnostic.headlineAt name fault pos) source pos := by
  rw [h.stderr_eq hplace, Diagnostic.describe?_eq_printed hplace hpos, Option.getD_some]

/-- A world with a program in the file `p.bf`. -/
def World.holding (text : String) : World :=
  (FileTree.mk [(["p.bf"], text.toUTF8)] []).world (fun _ => none) ByteArray.empty

/-- A program in the file that is not accepted is reported by a check of the file. -/
theorem Reports.of_holding {text : String}
    (h : Program.ofText text.toList = .error fault) :
    Reports (World.holding text) (fun _ => 0) "bfi" ["check", "-f", "p.bf"] text.toList fault :=
  .checked (c := ⟨false, some "p.bf", []⟩) rfl rfl
    (.of_toUTF8 (show _ = Except.ok text.toUTF8 from rfl)) h

/-- A reported fault that points at a character of the program: what is on standard error, where the
character and the caret are in it, and that the caret stands right under the character exactly if
nothing from 32 characters before it to 32 behind it is the end of a line.  In a program of one line
it always does. -/
theorem caret_below_iff (hreports : Reports world turns name words source fault)
    (hplace : fault.instruction? = some pos) (hin : pos < source.length)
    (hpos : pos ≤ UInt64.size - 34) :
    ∃ headline : String,
      headline = fault.headline (some name) ++ " at instruction " ++ toString pos ∧
      (invoke world turns name words).stderr = Diagnostic.printed headline source pos ∧
      (invoke world turns name words).stderr.toList[Diagnostic.placeIndex headline pos]? =
        source[pos]? ∧
      (invoke world turns name words).stderr.toList[
        Diagnostic.caretIndex (invoke world turns name words).stderr]? = some '^' ∧
      (Diagnostic.CaretUnder headline pos (invoke world turns name words).stderr ↔
        '\n' ∉ Diagnostic.around source pos) ∧
      ('\n' ∉ source →
        Diagnostic.CaretUnder headline pos (invoke world turns name words).stderr) := by
  have hiff := Diagnostic.caretUnder_printed_iff (Diagnostic.headlineAt name fault pos) hin
  obtain ⟨hcharacter, hcaret⟩ :=
    Diagnostic.getElem?_printed (Diagnostic.headlineAt name fault pos) hin
  have hstderr := hreports.stderr_eq_printed hplace hpos
  rw [← hstderr] at hiff hcharacter hcaret
  exact ⟨_, rfl, hstderr, hcharacter, hcaret, hiff,
    fun hline => hiff.2 fun hmem => hline (Diagnostic.mem_of_mem_around hmem)⟩

end

/-- A program of two lines, with the end of the first one too far before the place to matter. -/
theorem caret_below_iff_farLine :
    Reports (World.holding "a\n++++++++++++++++++++++++++++++++[") (fun _ => 0) "bfi"
      ["check", "-f", "p.bf"] "a\n++++++++++++++++++++++++++++++++[".toList (.unclosedLoop 34) ∧
    (invoke (World.holding "a\n++++++++++++++++++++++++++++++++[") (fun _ => 0) "bfi"
        ["check", "-f", "p.bf"]).stderr =
      "bfi: Parse error: unmatched bracket '[' at instruction 34\n" ++
        "  ++++++++++++++++++++++++++++++++[\n" ++
        "                                  ^\n" ∧
    Diagnostic.CaretUnder "bfi: Parse error: unmatched bracket '[' at instruction 34" 34
      (invoke (World.holding "a\n++++++++++++++++++++++++++++++++[") (fun _ => 0) "bfi"
        ["check", "-f", "p.bf"]).stderr := by
  have hreports := Reports.of_holding
    (show Program.ofText "a\n++++++++++++++++++++++++++++++++[".toList =
      .error (.unclosedLoop 34) from rfl)
  obtain ⟨_, rfl, hstderr, -, -, hiff, -⟩ :=
    caret_below_iff hreports rfl (by decide) (by decide)
  exact ⟨hreports, hstderr.trans (by decide +kernel), hiff.2 (by decide)⟩

/-- A program of two lines with the place on the second: the caret line comes right after the line
of the place, but the caret is not in its column. -/
theorem caret_not_below_secondLine :
    Reports (World.holding "a[b]\nc[") (fun _ => 0) "bfi" ["check", "-f", "p.bf"]
      "a[b]\nc[".toList (.unclosedLoop 6) ∧
    (invoke (World.holding "a[b]\nc[") (fun _ => 0) "bfi" ["check", "-f", "p.bf"]).stderr =
      "bfi: Parse error: unmatched bracket '[' at instruction 6\n  a[b]\nc[\n        ^\n" ∧
    ¬Diagnostic.CaretUnder "bfi: Parse error: unmatched bracket '[' at instruction 6" 6
      (invoke (World.holding "a[b]\nc[") (fun _ => 0) "bfi" ["check", "-f", "p.bf"]).stderr := by
  have hreports := Reports.of_holding
    (show Program.ofText "a[b]\nc[".toList = .error (.unclosedLoop 6) from rfl)
  have hstderr := hreports.stderr_eq_printed rfl (by decide)
  refine ⟨hreports, hstderr.trans (by decide +kernel), ?_⟩
  rw [hstderr]
  exact mt (Diagnostic.caretUnder_printed_iff _ (by decide)).1 (by decide)

end Command

end TapeMachine
