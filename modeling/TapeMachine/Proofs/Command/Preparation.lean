import TapeMachine.Command.FileTree
import TapeMachine.Command.Job
set_option autoImplicit false

/-!
# Command: preparation

What a command line has to come with before its program can run.  Which text and which bytes are
given is said by two relations, `Supplies` and `Feeds`, that mention none of the functions that look
for them.  Those functions are sound and complete for the relations (`run_loadCode_eq_ok_iff`,
`run_loadInput_eq_ok_iff`), and whatever keeps them from an answer leads to an exit that puts
nothing on standard output.

So a check and a run go the same way up to the brackets: `run_check_of_supplies` and
`run_prepareRun_of_supplies` have the same question in the middle, whether the text is a program.
-/

namespace TapeMachine.Command

/-- A world without files and variables. -/
def World.bare (standardInput : ByteArray) : World :=
  (FileTree.mk [] []).world (fun _ => none) standardInput

/-- A program is given in no way or in two. -/
def Misgiven (file : Option String) (code : List String) : Prop :=
  file = none ∧ code = [] ∨ file ≠ none ∧ code ≠ []

/-- The text of a program that is given by words or by a file. -/
inductive Supplies (world : World) : Option String → List String → List Char → Prop
  /-- The words are put together as they are. -/
  | words {code : List String} (h : code ≠ []) :
    Supplies world none code (code.flatMap String.toList)
  /-- The file can be read and is text. -/
  | file {path text : String} {bytes : ByteArray} (hread : (world.readFile path).run = .ok bytes)
    (htext : String.fromUTF8? bytes = some text) : Supplies world (some path) [] text.toList

/-- The bytes that are given to a program by a text, by a file or on standard input. -/
inductive Feeds (world : World) : Option String → Option String → List UInt8 → Prop
  | text (text : String) (path : Option String) :
    Feeds world (some text) path text.toUTF8.data.toList
  | file {path : String} {bytes : ByteArray} (hread : (world.readFile path).run = .ok bytes) :
    Feeds world none (some path) bytes.data.toList
  | standardInput {bytes : ByteArray} (hread : world.standardInput.run = .ok bytes) :
    Feeds world none none bytes.data.toList

theorem Feeds.bare (bytes : ByteArray) : Feeds (World.bare bytes) none none bytes.data.toList :=
  .standardInput rfl

/-- The settings that hold for a run in this world. -/
def RunOptions.settings (world : World) (o : RunOptions) : Settings :=
  o.resolve (loadSettings world).run

/-- The run that the options ask for, of this text on these bytes. -/
def RunOptions.job (world : World) (name : String) (o : RunOptions) (text : List Char)
    (p : Program) (input : List UInt8) : Job :=
  ⟨name, text, p, o.settings world, input, o.debug⟩

/-- All that a run asks for is there: its text is a program, and its input can be read. -/
structure RunOptions.Ready (world : World) (o : RunOptions) (text : List Char) (p : Program)
    (input : List UInt8) : Prop where
  help : o.help = false
  supplies : Supplies world o.file o.code text
  feeds : Feeds world o.input o.inputFile input
  accepted : Program.ofText text = .ok p

/-- All that a check asks for is there, and its text is a program. -/
def CheckOptions.Accepts (world : World) (o : CheckOptions) : Prop :=
  o.help = false ∧ ∃ text p, Supplies world o.file o.code text ∧ Program.ofText text = .ok p

section

variable {world : World} {name usage : String} {file : Option String} {code : List String}
  {text text' : List Char} {input : List UInt8}

/-! ## The program -/

theorem Supplies.not_misgiven (h : Supplies world file code text) : ¬Misgiven file code := by
  cases h with
  | words hcode => simp [Misgiven, hcode]
  | file => simp [Misgiven]

/-- There is at most one text. -/
theorem Supplies.unique (h : Supplies world file code text) (h' : Supplies world file code text') :
    text' = text := by
  cases h with
  | words => cases h'; rfl
  | file hread htext =>
    cases h' with
    | file hread' htext' =>
      cases hread'.symm.trans hread
      cases htext'.symm.trans htext
      rfl

/-- What becomes of the question for the text of the program. -/
theorem run_loadCode_cases (world : World) (name usage : String) (file : Option String)
    (code : List String) :
    (Misgiven file code ∧
      ∃ stderr, (loadCode world name usage file code).run = .error (.silent 2 stderr)) ∨
    (¬Misgiven file code ∧ (∀ text, ¬Supplies world file code text) ∧
      ∃ stderr, (loadCode world name usage file code).run = .error (.silent 1 stderr)) ∨
    ∃ text, Supplies world file code text ∧
      (loadCode world name usage file code).run = .ok text := by
  unfold loadCode
  cases file with
  | none =>
    cases code with
    | nil => exact .inl ⟨.inl ⟨rfl, rfl⟩, _, rfl⟩
    | cons w code => exact .inr (.inr ⟨_, .words (List.cons_ne_nil w code), rfl⟩)
  | some path =>
    cases code with
    | cons w code => exact .inl ⟨.inr ⟨Option.some_ne_none path, List.cons_ne_nil w code⟩, _, rfl⟩
    | nil =>
      have hgiven : ¬Misgiven (some path) [] := by simp [Misgiven]
      simp only [Id.run_bind]
      cases hread : (world.readFile path).run with
      | error fault =>
        refine .inr (.inl ⟨hgiven, fun text h => ?_, _, rfl⟩)
        cases h with
        | file hok => cases hread.symm.trans hok
      | ok bytes =>
        simp only
        cases htext : String.fromUTF8? bytes with
        | none =>
          refine .inr (.inl ⟨hgiven, fun text h => ?_, _, rfl⟩)
          cases h with
          | file hok hsome =>
            cases hread.symm.trans hok
            cases htext.symm.trans hsome
        | some text => exact .inr (.inr ⟨_, .file hread htext, rfl⟩)

/-- The text is found exactly where it is given. -/
theorem run_loadCode_eq_ok_iff :
    (loadCode world name usage file code).run = .ok text ↔ Supplies world file code text := by
  rcases run_loadCode_cases world name usage file code with
    ⟨hmis, stderr, hload⟩ | ⟨-, hnone, stderr, hload⟩ | ⟨found, hfound, hload⟩
  · rw [hload]
    exact ⟨nofun, fun h => absurd hmis h.not_misgiven⟩
  · rw [hload]
    exact ⟨nofun, fun h => absurd h (hnone text)⟩
  · rw [hload]
    exact ⟨fun h => Except.ok.inj h ▸ hfound, fun h => congrArg Except.ok (h.unique hfound)⟩

/-! ## The input -/

/-- Reading all bytes ends in silence unless the source gives them. -/
theorem run_readInput_cases (source : Id (Except ReadFault ByteArray)) (failed : String) :
    ((∀ bytes, source.run ≠ .ok bytes) ∧
      ∃ stderr, (readInput source failed).run = .error (.silent 1 stderr)) ∨
    ∃ bytes, source.run = .ok bytes ∧ (readInput source failed).run = .ok bytes.data.toList := by
  unfold readInput
  simp only [Id.run_bind]
  cases source.run with
  | error fault => exact .inl ⟨nofun, _, rfl⟩
  | ok bytes => exact .inr ⟨bytes, rfl, rfl⟩

/-- What becomes of the question for the input. -/
theorem run_loadInput_cases (world : World) (name : String) (o : RunOptions) :
    ((∀ input, ¬Feeds world o.input o.inputFile input) ∧
      ∃ stderr, (loadInput world name o).run = .error (.silent 1 stderr)) ∨
    ∃ input, Feeds world o.input o.inputFile input ∧ (loadInput world name o).run = .ok input := by
  unfold loadInput
  cases o.input with
  | some text => exact .inr ⟨_, .text text _, rfl⟩
  | none =>
    cases o.inputFile with
    | none =>
      rcases run_readInput_cases world.standardInput s!"{name}: failed reading stdin" with
        ⟨hnone, stderr, hload⟩ | ⟨bytes, hread, hload⟩
      · refine .inl ⟨fun input h => ?_, stderr, hload⟩
        cases h with
        | standardInput hread => exact hnone _ hread
      · exact .inr ⟨_, .standardInput hread, hload⟩
    | some path =>
      rcases run_readInput_cases (world.readFile path) s!"{name}: failed to read input file" with
        ⟨hnone, stderr, hload⟩ | ⟨bytes, hread, hload⟩
      · refine .inl ⟨fun input h => ?_, stderr, hload⟩
        cases h with
        | file hread => exact hnone _ hread
      · exact .inr ⟨_, .file hread, hload⟩

/-- There is at most one input. -/
theorem Feeds.unique {text? path? : Option String} {input' : List UInt8}
    (h : Feeds world text? path? input) (h' : Feeds world text? path? input') : input' = input := by
  cases h with
  | text => cases h'; rfl
  | standardInput hread =>
    cases h' with
    | standardInput hread' => cases hread'.symm.trans hread; rfl
  | file hread =>
    cases h' with
    | file hread' => cases hread'.symm.trans hread; rfl

/-- The input is found exactly where it is given. -/
theorem run_loadInput_eq_ok_iff {o : RunOptions} :
    (loadInput world name o).run = .ok input ↔ Feeds world o.input o.inputFile input := by
  rcases run_loadInput_cases world name o with ⟨hnone, stderr, hload⟩ | ⟨found, hfound, hload⟩
  · rw [hload]
    exact ⟨nofun, fun h => absurd h (hnone input)⟩
  · rw [hload]
    exact ⟨fun h => Except.ok.inj h ▸ hfound, fun h => congrArg Except.ok (hfound.unique h).symm⟩

/-! ## Up to the brackets -/

/-- A check of a text that is given asks only for its brackets. -/
theorem run_check_of_supplies (name : String) {c : CheckOptions} (hhelp : c.help = false)
    (h : Supplies world c.file c.code text) :
    (check world name c).run =
      match Program.ofText text with
      | .error fault => faultExit name text fault
      | .ok _ => ⟨0, "ok\n".toUTF8, ""⟩ := by
  simp only [check, hhelp, Bool.false_eq_true, if_false, Id.run_bind, run_loadCode_eq_ok_iff.2 h]
  cases Program.ofText text <;> rfl

/-- So does a run once it has its input. -/
theorem run_prepareRun_of_supplies (name : String) {o : RunOptions} (hhelp : o.help = false)
    (h : Supplies world o.file o.code text) (hinput : Feeds world o.input o.inputFile input) :
    (prepareRun world name o).run =
      match Program.ofText text with
      | .error fault => .error (faultExit name text fault)
      | .ok p => .ok (o.job world name text p input) := by
  simp only [prepareRun, hhelp, Bool.false_eq_true, if_false, Id.run_bind,
    run_loadCode_eq_ok_iff.2 h, run_loadInput_eq_ok_iff.2 hinput]
  cases Program.ofText text <;> rfl

/-- What becomes of a check. -/
theorem run_check_cases (world : World) (name : String) {o : CheckOptions}
    (hhelp : o.help = false) :
    (Misgiven o.file o.code ∧ ∃ stderr, (check world name o).run = .silent 2 stderr) ∨
    (¬Misgiven o.file o.code ∧ ¬o.Accepts world ∧
      ∃ stderr, (check world name o).run = .silent 1 stderr) ∨
    (o.Accepts world ∧ (check world name o).run = ⟨0, "ok\n".toUTF8, ""⟩) := by
  rcases run_loadCode_cases world name (Usage.check name) o.file o.code with
    ⟨hmis, stderr, hload⟩ | ⟨hgiven, hnone, stderr, hload⟩ | ⟨text, htext, -⟩
  · refine .inl ⟨hmis, stderr, ?_⟩
    simp only [check, hhelp, Bool.false_eq_true, if_false, Id.run_bind, hload, Id.run_pure]
  · refine .inr (.inl ⟨hgiven, ?_, stderr, ?_⟩)
    · rintro ⟨-, text, p, htext, -⟩
      exact hnone text htext
    · simp only [check, hhelp, Bool.false_eq_true, if_false, Id.run_bind, hload, Id.run_pure]
  · rw [run_check_of_supplies name hhelp htext]
    cases hprogram : Program.ofText text with
    | error fault =>
      refine .inr (.inl ⟨htext.not_misgiven, ?_, _, rfl⟩)
      rintro ⟨-, text', p, htext', hp⟩
      cases htext.unique htext'
      cases hprogram.symm.trans hp
    | ok p => exact .inr (.inr ⟨⟨hhelp, text, p, htext, hprogram⟩, rfl⟩)

/-- What becomes of the preparation of a run. -/
theorem run_prepareRun_cases (world : World) (name : String) {o : RunOptions}
    (hhelp : o.help = false) :
    (Misgiven o.file o.code ∧ ∃ stderr, (prepareRun world name o).run = .error (.silent 2 stderr)) ∨
    (¬Misgiven o.file o.code ∧ (∀ text p input, ¬o.Ready world text p input) ∧
      ∃ stderr, (prepareRun world name o).run = .error (.silent 1 stderr)) ∨
    ∃ text p input, o.Ready world text p input ∧
      (prepareRun world name o).run = .ok (o.job world name text p input) := by
  rcases run_loadCode_cases world name (Usage.run name) o.file o.code with
    ⟨hmis, stderr, hload⟩ | ⟨hgiven, hnone, stderr, hload⟩ | ⟨text, htext, hload⟩
  · refine .inl ⟨hmis, stderr, ?_⟩
    simp only [prepareRun, hhelp, Bool.false_eq_true, if_false, Id.run_bind, hload, Id.run_pure]
  · refine .inr (.inl ⟨hgiven, fun text p input hready => hnone text hready.supplies, stderr, ?_⟩)
    simp only [prepareRun, hhelp, Bool.false_eq_true, if_false, Id.run_bind, hload, Id.run_pure]
  rcases run_loadInput_cases world name o with ⟨hnone, stderr, hinput⟩ | ⟨input, hinput, -⟩
  · refine .inr (.inl ⟨htext.not_misgiven,
      fun text p input hready => hnone input hready.feeds, stderr, ?_⟩)
    simp only [prepareRun, hhelp, Bool.false_eq_true, if_false, Id.run_bind, hload, hinput,
      Id.run_pure]
  rw [run_prepareRun_of_supplies name hhelp htext hinput]
  cases hprogram : Program.ofText text with
  | error fault =>
    refine .inr (.inl ⟨htext.not_misgiven, fun text' p input' hready => ?_, _, rfl⟩)
    cases htext.unique hready.supplies
    cases hprogram.symm.trans hready.accepted
  | ok p => exact .inr (.inr ⟨text, p, input, ⟨hhelp, htext, hinput, hprogram⟩, rfl⟩)

theorem RunOptions.Ready.not_misgiven {o : RunOptions} {p : Program}
    (h : o.Ready world text p input) : ¬Misgiven o.file o.code :=
  h.supplies.not_misgiven

theorem CheckOptions.Accepts.not_misgiven {o : CheckOptions} (h : o.Accepts world) :
    ¬Misgiven o.file o.code := by
  obtain ⟨-, text, p, htext, -⟩ := h
  exact htext.not_misgiven

/-- All that a run asks for is there in one way. -/
theorem RunOptions.Ready.unique {o : RunOptions} {p p' : Program} {input' : List UInt8}
    (h : o.Ready world text p input) (h' : o.Ready world text' p' input') :
    text' = text ∧ p' = p ∧ input' = input := by
  obtain rfl := h.supplies.unique h'.supplies
  obtain rfl := h.feeds.unique h'.feeds
  exact ⟨rfl, Except.ok.inj (h'.accepted.symm.trans h.accepted), rfl⟩

end

end TapeMachine.Command
