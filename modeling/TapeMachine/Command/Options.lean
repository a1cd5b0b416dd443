import TapeMachine.Settings.Basic
set_option autoImplicit false

/-!
# Command: options

What a command line can say.  A flag stands for itself and a field takes a value; `Given` is one of
either with its value understood.  `RunOptions` and `CheckOptions` collect what was given to the two
subcommands, and `Invocation` is a whole command line.  `ArgFault` is why a command line says nothing.
-/

namespace TapeMachine.Command

/-- An option that stands for itself. -/
inductive Flag
  | help
  | debug
  deriving DecidableEq, Repr, Inhabited

/-- An option that takes a value. -/
inductive Field
  | file
  | input
  | inputFile
  | eof
  | timeout
  | maxSteps
  deriving DecidableEq, Repr, Inhabited

/-- What an option word can name. -/
inductive Name
  | flag (flag : Flag)
  | field (field : Field)
  deriving DecidableEq, Repr, Inhabited

/-- Why a command line is refused. -/
inductive ArgFault
  /-- A word looks like an option and names none. -/
  | unknownOption
  /-- A word stands where none is expected. -/
  | unexpectedWord
  /-- A word stands for a subcommand and names none. -/
  | unknownCommand
  /-- A field is named without a value. -/
  | missingValue
  /-- A flag is named with a value. -/
  | flagWithValue
  /-- A value is none of those that a field can have. -/
  | badChoice
  /-- A value is not a number that fits in a 64-bit word. -/
  | badNumber
  /-- A flag or field is named a second time. -/
  | repeated
  /-- Two fields are named of which only one can be. -/
  | exclusive
  deriving DecidableEq, Repr, Inhabited

/-- A flag, or a field with its value. -/
inductive Given
  | flag (flag : Flag)
  | file (path : String)
  | input (text : String)
  | inputFile (path : String)
  | eof (policy : EofPolicy)
  | timeout (ms : UInt64)
  | maxSteps (n : UInt64)
  deriving DecidableEq, Repr, Inhabited

/-- What was named for this to be given. -/
def Given.name : Given → Name
  | flag f => .flag f
  | file _ => .field .file
  | input _ => .field .input
  | inputFile _ => .field .inputFile
  | eof _ => .field .eof
  | timeout _ => .field .timeout
  | maxSteps _ => .field .maxSteps

/-- What is given by a field with this value. -/
def Field.read (field : Field) (value : String) : Except ArgFault Given :=
  let number (make : UInt64 → Given) : Except ArgFault Given :=
    match Text.Decimal.readWord? value.toList with
    | some n => .ok (make n)
    | none => .error .badNumber
  match field with
  | file => .ok (.file value)
  | input => .ok (.input value)
  | inputFile => .ok (.inputFile value)
  | eof =>
    match EofPolicy.ofName? value with
    | some policy => .ok (.eof policy)
    | none => .error .badChoice
  | timeout => number .timeout
  | maxSteps => number .maxSteps

/-- The name of an option after two dashes. -/
def Name.long : Name → String
  | flag .help => "help"
  | flag .debug => "debug"
  | field .file => "file"
  | field .input => "input"
  | field .inputFile => "input-file"
  | field .eof => "eof"
  | field .timeout => "timeout"
  | field .maxSteps => "max-steps"

/-- The name of an option after one dash. -/
def Name.short? : Name → Option Char
  | flag .help => some 'h'
  | flag .debug => some 'd'
  | field .file => some 'f'
  | field .input => some 'i'
  | _ => none

/-- What was given to the subcommand that runs a program. -/
structure RunOptions where
  help : Bool
  debug : Bool
  file : Option String
  input : Option String
  inputFile : Option String
  eof : Option EofPolicy
  timeoutMs : Option UInt64
  maxSteps : Option UInt64
  /-- The words that make up the program. -/
  code : List String
  deriving DecidableEq, Repr, Inhabited

namespace RunOptions

/-- Nothing was given but the words of the program. -/
def ofCode (code : List String) : RunOptions :=
  ⟨false, false, none, none, none, none, none, none, code⟩

/-- The options with one more thing given. -/
def add (o : RunOptions) : Given → RunOptions
  | .flag .help => { o with help := true }
  | .flag .debug => { o with debug := true }
  | .file path => { o with file := some path }
  | .input text => { o with input := some text }
  | .inputFile path => { o with inputFile := some path }
  | .eof policy => { o with eof := some policy }
  | .timeout ms => { o with timeoutMs := some ms }
  | .maxSteps n => { o with maxSteps := some n }

/-- The settings of the run: what was given, and `s` for the rest. -/
def resolve (o : RunOptions) (s : Settings) : Settings := s.replace o.eof o.maxSteps o.timeoutMs

end RunOptions

/-- What was given to the subcommand that checks a program. -/
structure CheckOptions where
  help : Bool
  file : Option String
  /-- The words that make up the program. -/
  code : List String
  deriving DecidableEq, Repr, Inhabited

namespace CheckOptions

/-- Nothing was given but the words of the program. -/
def ofCode (code : List String) : CheckOptions := ⟨false, none, code⟩

/-- The options with one more thing given. -/
def add (o : CheckOptions) : Given → CheckOptions
  | .flag .help => { o with help := true }
  | .file path => { o with file := some path }
  | _ => o

end CheckOptions

/-- A subcommand with its options. -/
inductive Subcommand
  | run (options : RunOptions)
  | check (options : CheckOptions)
  deriving DecidableEq, Repr, Inhabited

/-- A whole command line. -/
structure Invocation where
  /-- Help was asked for before any subcommand. -/
  help : Bool
  command : Option Subcommand
  deriving DecidableEq, Repr, Inhabited

end TapeMachine.Command
