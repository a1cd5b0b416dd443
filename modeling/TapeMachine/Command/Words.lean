import TapeMachine.Command.Options
import TapeMachine.Text.Piece
set_option autoImplicit false

/-!
# Command: words

Reading a command line word by word.

A word of at least two characters that starts with a dash names options: after two dashes one option
by its long name, with its value after an equals sign or in the next word; after one dash any number
of flags by their short names, of which the last may be a field with its value in the rest of the
word or in the next one.  Two dashes alone end the options.  Every other word is plain.

`scan` reads options up to the first plain word or the end of the options.  A field whose value is a
word of its own is only looked at when the next word has been recognised, so that an unknown option
after it is noticed first.  The words after the options are never looked at: they are the program,
however they are spelled.
-/

namespace TapeMachine.Command

/-- A word of the command line by its shape. -/
inductive Word
  /-- Two dashes alone. -/
  | endOfOptions
  /-- One option by its long name, with the value after the equals sign if there is one. -/
  | long (name : String) (value : Option String)
  /-- Options by their short names. -/
  | short (names : List Char)
  | plain
  deriving DecidableEq, Repr, Inhabited

/-- The shape of a word. -/
def Word.ofString (word : String) : Word :=
  match word.toList with
  | '-' :: '-' :: [] => endOfOptions
  | '-' :: '-' :: rest =>
    match Text.cutAt? '=' rest with
    | some (name, value) => long (String.ofList name) (some (String.ofList value))
    | none => long (String.ofList rest) none
  | '-' :: c :: rest => short (c :: rest)
  | _ => plain

/-- The field that is being given in two words. -/
inductive Pending
  | nothing
  /-- The field has been named. -/
  | named (field : Field)
  /-- The field has been named and its value has followed. -/
  | valued (field : Field) (value : String)
  deriving DecidableEq, Repr, Inhabited

/-- Adds what is given by a flag. -/
def addFlag (given : List Given) (flag : Flag) : Except ArgFault (List Given) :=
  if given.any fun g => g.name = .flag flag then .error .repeated
  else .ok (given ++ [.flag flag])

/-- Adds what is given by a field with its value. -/
def addField (given : List Given) (field : Field) (value : String) :
    Except ArgFault (List Given) :=
  if given.any fun g => g.name = .field field then .error .repeated
  else (field.read value).map fun g => given ++ [g]

/-- Adds what is being given in two words. -/
def settle (given : List Given) : Pending → Except ArgFault (List Given)
  | .nothing => .ok given
  | .named _ => .error .missingValue
  | .valued field value => addField given field value

/-- Reads a row of short names. -/
def scanShort (names : List Name) (given : List Given) (pending : Pending) :
    List Char → Except ArgFault (List Given × Pending)
  | [] => .ok (given, pending)
  | c :: rest =>
    match names.find? fun n => n.short? = some c with
    | none => .error .unknownOption
    | some (.flag flag) => do
      let given ← addFlag (← settle given pending) flag
      scanShort names given .nothing rest
    | some (.field field) => do
      let given ← settle given pending
      match rest with
      | [] => .ok (given, .named field)
      | '=' :: value => return (← addField given field (String.ofList value), .nothing)
      | value => return (← addField given field (String.ofList value), .nothing)

/-- Reads an option by its long name. -/
def scanLong (names : List Name) (given : List Given) (pending : Pending) (name : String)
    (value : Option String) : Except ArgFault (List Given × Pending) :=
  match names.find? fun n => n.long = name, value with
  | none, _ => .error .unknownOption
  | some (.flag _), some _ => .error .flagWithValue
  | some (.flag flag), none => return (← addFlag (← settle given pending) flag, .nothing)
  | some (.field field), some value =>
    return (← addField (← settle given pending) field value, .nothing)
  | some (.field field), none => return (← settle given pending, .named field)

/-- What ended the options. -/
inductive Stop
  /-- The end of the command line. -/
  | finished
  /-- Two dashes, followed by these words. -/
  | escaped (rest : List String)
  /-- A plain word, followed by these words. -/
  | word (word : String) (rest : List String)
  deriving DecidableEq, Repr, Inhabited

/-- Reads the options at the front of a command line. -/
def scan (names : List Name) (given : List Given) (pending : Pending) :
    List String → Except ArgFault (List Given × Stop)
  | [] => return (← settle given pending, .finished)
  | w :: rest =>
    match Word.ofString w with
    | .endOfOptions => return (← settle given pending, .escaped rest)
    | .long name value => do
      let (given, pending) ← scanLong names given pending name value
      scan names given pending rest
    | .short cs => do
      let (given, pending) ← scanShort names given pending cs
      scan names given pending rest
    | .plain =>
      match pending with
      | .named field => scan names given (.valued field w) rest
      | _ => return (← settle given pending, .word w rest)

/-- The words after the options. -/
def Stop.words : Stop → List String
  | finished => []
  | escaped rest => rest
  | word w rest => w :: rest

/-- The options of the subcommand that runs a program. -/
def runNames : List Name :=
  [.flag .debug, .field .file, .field .input, .field .inputFile, .field .eof, .field .timeout,
    .field .maxSteps, .flag .help]

/-- The options of the subcommand that checks a program. -/
def checkNames : List Name := [.field .file, .flag .help]

namespace RunOptions

/-- What the words after the subcommand that runs a program say. -/
def parse (words : List String) : Except ArgFault RunOptions := do
  let (given, stop) ← scan runNames [] .nothing words
  let options := given.foldl add (ofCode stop.words)
  if options.input.isSome ∧ options.inputFile.isSome then .error .exclusive else .ok options

end RunOptions

namespace CheckOptions

/-- What the words after the subcommand that checks a program say. -/
def parse (words : List String) : Except ArgFault CheckOptions := do
  let (given, stop) ← scan checkNames [] .nothing words
  .ok (given.foldl add (ofCode stop.words))

end CheckOptions

/-- The subcommand of this name with the options that the words say. -/
def Subcommand.parse (name : String) (words : List String) : Except ArgFault Subcommand :=
  if name = "run" then (RunOptions.parse words).map .run
  else if name = "check" then (CheckOptions.parse words).map .check
  else .error .unknownCommand

/-- What the words of a command line say. -/
def Invocation.parse (words : List String) : Except ArgFault Invocation := do
  let (given, stop) ← scan [.flag .help] [] .nothing words
  let help := given.any fun g => g = .flag .help
  match stop with
  | .finished | .escaped [] => .ok ⟨help, none⟩
  | .escaped (_ :: _) => .error .unexpectedWord
  | .word name rest => return ⟨help, some (← Subcommand.parse name rest)⟩

end TapeMachine.Command
