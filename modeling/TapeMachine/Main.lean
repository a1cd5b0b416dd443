import TapeMachine.Command.Job
set_option autoImplicit false

/-!
# The program

The command line program on a real system.  All that is decided here is how the questions of
`Command.prepare` are put to the system, and how a run is interrupted when its time is over: it goes in
portions of turns, and the clock is looked at between them.  The lines of a trace are passed on after
each portion.
-/

namespace TapeMachine.Command

/-- The number of the reason that the system gives, which may come with either sign. -/
def reasonNumber (code : UInt32) : Nat :=
  if code.toNat < 0x80000000 then code.toNat else 0x100000000 - code.toNat

/-- Why the system gives no bytes. -/
def ReadFault.ofError : IO.Error → ReadFault
  | .noFileOrDirectory _ _ _ => .notFound
  | .inappropriateType _ code reason =>
    if reasonNumber code = 21 then .isDirectory
    else if reasonNumber code = 20 then .notDirectory
    else .other reason
  | .permissionDenied _ _ _ => .other "Permission denied (os error 13)"
  | error => .other (toString error)

/-- All bytes up to the end of a stream. -/
partial def readToEnd (stream : IO.FS.Stream) (bytes : ByteArray) : IO ByteArray := do
  let more ← stream.read 65536
  if more.isEmpty then return bytes
  readToEnd stream (bytes ++ more)

/-- The stream is not open for reading. -/
def isNotOpen : IO.Error → Bool
  | .invalidArgument _ code _ => reasonNumber code = 9
  | _ => false

/-- The system that the program runs on.  A terminal has nothing to read, and neither has a standard
input that is not open. -/
def systemHost : Host IO where
  getVariable name := IO.getEnv name
  readFile path := do
    try
      return .ok (← IO.FS.readBinFile path)
    catch error =>
      return .error (ReadFault.ofError error)
  standardInput := do
    let stream ← IO.getStdin
    if ← stream.isTty then return .ok ByteArray.empty
    try
      return .ok (← readToEnd stream ByteArray.empty)
    catch error =>
      if isNotOpen error then return .ok ByteArray.empty
      return .error (ReadFault.ofError error)

/-- The number of turns between two looks at the clock. -/
def portion : Nat := 100000

/-- Passes on the lines of a trace. -/
def passOn (run : Run) : IO Run := do
  match run.trace with
  | none => return run
  | some sink =>
    let (bytes, sink) := sink.drain
    (← IO.getStdout).write bytes
    return { run with trace := some sink }

/-- Goes on with a run until it ends or its time is over. -/
partial def work (job : Job) (deadline : Option Nat) (run : Run) : IO Exit := do
  match run.advance job.setup portion with
  | .ended report => return job.conclude report
  | .running run =>
    let run ← passOn run
    match deadline with
    | some moment =>
      if moment ≤ (← IO.monoMsNow) then return job.expire
      work job deadline run
    | none => work job deadline run

/-- Runs the program under a name with the words of a command line. -/
def runProgram (name : String) (words : List String) : IO Exit := do
  match ← prepare systemHost name words with
  | .error exit => return exit
  | .ok job =>
    let now ← IO.monoMsNow
    let deadline := job.settings.timeoutMs.map fun ms => now + ms.toNat
    match job.start with
    | .ended report => return job.conclude report
    | .running run => work job deadline run

end TapeMachine.Command

/-- The program. -/
def main (words : List String) : IO UInt32 := do
  let exit ← TapeMachine.Command.runProgram "bfi" words
  let stdout ← IO.getStdout
  stdout.write exit.stdout
  stdout.flush
  IO.eprint exit.stderr
  return exit.code
