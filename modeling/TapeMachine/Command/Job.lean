import TapeMachine.Command.Host
import TapeMachine.Command.Usage
import TapeMachine.Command.Words
import TapeMachine.Diagnostic.Context
import TapeMachine.Session
import TapeMachine.Settings.File
set_option autoImplicit false

/-!
# Command: jobs

From a command line to an exit.  `prepare` reads the command line and asks the host for what it needs;
it leads either straight to an exit or to a `Job`, a program that is ready to run with its input and
its limits.  `Job.conclude` turns the report of the run into an exit.

The order of questions is part of the behaviour: help before everything else, the program before its
input, its input before the settings, and the brackets last.  Nothing but the answer to a check goes
to standard output before a run.
-/

namespace TapeMachine.Command

/-- How the program ends. -/
structure Exit where
  code : UInt32
  stdout : ByteArray
  stderr : String
  deriving DecidableEq, Inhabited

namespace Exit

/-- Nothing on standard output. -/
def silent (code : UInt32) (stderr : String) : Exit := ⟨code, ByteArray.empty, stderr⟩

end Exit

/-- What is said of a command line that is refused. -/
def ArgFault.message : ArgFault → String
  | unknownOption => "error: unexpected argument found\n"
  | unexpectedWord => "error: unexpected argument found\n"
  | unknownCommand => "error: unrecognized subcommand\n"
  | missingValue => "error: a value is required for an option but none was supplied\n"
  | flagWithValue => "error: unexpected value for a flag\n"
  | badChoice => "error: invalid value for an option [possible values: error, zero]\n"
  | badNumber => "error: invalid value for an option: not a number of 64 bits\n"
  | repeated => "error: an option cannot be used multiple times\n"
  | exclusive => "error: --input cannot be used with --input-file\n"

/-- A program that is ready to run. -/
structure Job where
  /-- The name that faults are reported under. -/
  name : String
  source : List Char
  program : Program
  settings : Settings
  input : List UInt8
  debug : Bool
  deriving Inhabited

section Prepare

variable {m : Type → Type} [Monad m]

/-- The text of the program, from its words or from a file, but not from both. -/
def loadCode (host : Host m) (name usage : String) (file : Option String) (code : List String) :
    m (Except Exit (List Char)) :=
  match file, code with
  | none, [] => pure (.error (.silent 2 usage))
  | some _, _ :: _ =>
    pure (.error (.silent 2
      (s!"{name}: cannot use positional code together with --file\n" ++ usage)))
  | none, words => pure (.ok (words.flatMap String.toList))
  | some path, [] => do
    let failed (reason : String) : Except Exit (List Char) :=
      .error (.silent 1 s!"{name}: failed to read code file as UTF-8: {reason}\n")
    match ← host.readFile path with
    | .error fault => pure (failed fault.message)
    | .ok bytes =>
      match String.fromUTF8? bytes with
      | some text => pure (.ok text.toList)
      | none => pure (failed notTextMessage)

/-- All bytes of a source of input, or the exit that says what failed and why. -/
def readInput (source : m (Except ReadFault ByteArray)) (failed : String) :
    m (Except Exit (List UInt8)) := do
  match ← source with
  | .error fault => pure (.error (.silent 1 s!"{failed}: {fault.message}\n"))
  | .ok bytes => pure (.ok bytes.data.toList)

/-- The bytes that the program reads. -/
def loadInput (host : Host m) (name : String) (options : RunOptions) :
    m (Except Exit (List UInt8)) :=
  match options.input, options.inputFile with
  | some text, _ => pure (.ok text.toUTF8.data.toList)
  | none, some path => readInput (host.readFile path) s!"{name}: failed to read input file"
  | none, none => readInput host.standardInput s!"{name}: failed reading stdin"

/-- The settings of the settings file; the default ones if there is no such file or if it is not
text. -/
def loadSettingsFile (host : Host m) : m Settings := do
  let directory ← do
    match ← host.getVariable "XDG_CONFIG_HOME" with
    | some directory => pure (some directory)
    | none => pure ((← host.getVariable "HOME").map fun home => joinPath home ".config")
  match directory with
  | none => pure Settings.default
  | some directory =>
    match ← host.readFile (joinPath directory "bfi.toml") with
    | .error _ => pure Settings.default
    | .ok bytes =>
      match String.fromUTF8? bytes with
      | some text => pure (Settings.ofFile text.toList)
      | none => pure Settings.default

/-- The settings of the settings file and of the environment. -/
def loadSettings (host : Host m) : m Settings := do
  let settings ← loadSettingsFile host
  let eof ← host.getVariable Settings.eofVariable
  let maxSteps ← host.getVariable Settings.maxStepsVariable
  let timeoutMs ← host.getVariable Settings.timeoutVariable
  pure (settings.applyVariables eof maxSteps timeoutMs)

/-- The exit for a fault that a user is shown together with the program.  Only a place near the top of
the 64-bit words, where no program reaches, would leave nothing to show. -/
def faultExit (name : String) (source : List Char) (fault : Fault) : Exit :=
  .silent 1 ((Diagnostic.describe? (some name) source fault).getD "")

/-- What comes before the run of a program. -/
def prepareRun (host : Host m) (name : String) (options : RunOptions) : m (Except Exit Job) :=
  if options.help then pure (.error (.silent 0 (Usage.run name)))
  else do
    match ← loadCode host name (Usage.run name) options.file options.code with
    | .error exit => pure (.error exit)
    | .ok source =>
      match ← loadInput host name options with
      | .error exit => pure (.error exit)
      | .ok input =>
        let settings := options.resolve (← loadSettings host)
        match Program.ofText source with
        | .error fault => pure (.error (faultExit name source fault))
        | .ok program => pure (.ok ⟨name, source, program, settings, input, options.debug⟩)

/-- The whole check of a program. -/
def check (host : Host m) (name : String) (options : CheckOptions) : m Exit :=
  if options.help then pure (.silent 0 (Usage.check name))
  else do
    match ← loadCode host name (Usage.check name) options.file options.code with
    | .error exit => pure exit
    | .ok source =>
      match Program.ofText source with
      | .error fault => pure (faultExit name source fault)
      | .ok _ => pure ⟨0, "ok\n".toUTF8, ""⟩

/-- From the words of the command line to an exit or to a program that is ready to run. -/
def prepare (host : Host m) (name : String) (words : List String) : m (Except Exit Job) :=
  match Invocation.parse words with
  | .error fault => pure (.error (.silent 2 fault.message))
  | .ok ⟨true, _⟩ => pure (.error (.silent 0 (Usage.top name)))
  | .ok ⟨false, none⟩ => pure (.error (.silent 2 (Usage.top name)))
  | .ok ⟨false, some (.run options)⟩ => prepareRun host name options
  | .ok ⟨false, some (.check options)⟩ => do pure (.error (← check host name options))

end Prepare

namespace Job

/-- What stays fixed during the run. -/
def setup (job : Job) : Setup :=
  ⟨job.program, job.settings.eof, job.settings.maxSteps.map UInt64.toNat⟩

/-- The trace of the run before it starts. -/
def sink? (job : Job) : Option Sink := if job.debug then some .unlimited else none

/-- The run before its first turn. -/
def start (job : Job) : Turn := Run.start job.input false job.sink?

/-- The report of the run, if it ends within `turns` turns. -/
def execute (job : Job) (turns : Nat) : Option Report :=
  job.setup.execute turns job.input false job.sink?

/-- What a run of the program says on standard error. -/
def complaint (job : Job) : Ending → String
  | .finished _ => ""
  | .failed (.stepLimit limit) => s!"Execution aborted: step limit exceeded ({limit})\n"
  | .failed .cancelled => "Execution aborted: interrupted\n"
  | .failed fault => (Diagnostic.describe? (some job.name) job.source fault).getD ""

/-- What a run of the program puts on standard output: the trace, the output of a run that finished,
and the end of the line. -/
def display (report : Report) : ByteArray :=
  let trace := match report.trace with
    | some sink => sink.written
    | none => ByteArray.empty
  let output := match report.ending with
    | .finished machine => ⟨machine.output⟩
    | .failed _ => ByteArray.empty
  trace ++ output ++ "\n".toUTF8

/-- The exit after a run. -/
def conclude (job : Job) (report : Report) : Exit :=
  let code := match report.ending with
    | .finished _ => 0
    | .failed _ => 1
  ⟨code, display report, job.complaint report.ending⟩

/-- The exit after a run that was still going on when its time was over. -/
def expire (job : Job) : Exit :=
  let ms := (job.settings.timeoutMs.getD 0).toNat
  ⟨1, "\n".toUTF8, s!"Execution aborted: wall-clock timeout exceeded ({ms} ms)\n"⟩

end Job

/-- The exit of the program in a world where the clock allows a job so many turns. -/
def invoke (world : World) (turns : Job → Nat) (name : String) (words : List String) : Exit :=
  match Id.run (prepare world name words) with
  | .error exit => exit
  | .ok job =>
    match job.execute (turns job) with
    | some report => job.conclude report
    | none => job.expire

end TapeMachine.Command
