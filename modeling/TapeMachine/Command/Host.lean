set_option autoImplicit false

/-!
# Command: host

What the program asks of the system it runs on: the text of a variable, the bytes of a file and the
bytes on standard input.  A `Host` answers in any monad, so that the program is the same whether it
runs on a real system or in a `World`, whose answers are plain values.
-/

namespace TapeMachine.Command

/-- Why a file or standard input gives no bytes. -/
inductive ReadFault
  | notFound
  | isDirectory
  | notDirectory
  /-- Any other reason, in the words of the system. -/
  | other (reason : String)
  deriving DecidableEq, Repr, Inhabited

/-- The reason in the words of the system. -/
def ReadFault.message : ReadFault → String
  | notFound => "No such file or directory (os error 2)"
  | isDirectory => "Is a directory (os error 21)"
  | notDirectory => "Not a directory (os error 20)"
  | other reason => reason

/-- What is said of a file that is not UTF-8 text. -/
def notTextMessage : String := "stream did not contain valid UTF-8"

/-- What the program asks of the system. -/
structure Host (m : Type → Type) where
  getVariable : String → m (Option String)
  readFile : String → m (Except ReadFault ByteArray)
  /-- A terminal is read without getting any bytes. -/
  standardInput : m (Except ReadFault ByteArray)

/-- A system whose answers are all known beforehand. -/
abbrev World := Host Id

/-- The name of a file in a directory.  The empty name stands for the directory the program runs
in. -/
def joinPath (directory name : String) : String :=
  if directory = "" ∨ directory.toList.getLast? = some '/' then directory ++ name
  else directory ++ "/" ++ name

end TapeMachine.Command
