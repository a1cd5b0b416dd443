import TapeMachine.Command.Host
import TapeMachine.Text.Piece
set_option autoImplicit false

/-!
# Command: file tree

A finite set of files as a `World` sees them.  The directories are those that the files stand in, and
those on the way to the working directory.  A path is followed component by component: an empty
component or a dot stays where it is, two dots go up, and a file cannot be gone through.
-/

namespace TapeMachine.Command

/-- Some files under absolute names, and the directory that relative paths start from. -/
structure FileTree where
  files : List (List String × ByteArray)
  workingDirectory : List String
  deriving Inhabited

namespace FileTree

/-- There is a directory of this name. -/
def hasDirectory (t : FileTree) (name : List String) : Bool :=
  name.isPrefixOf t.workingDirectory ||
    t.files.any fun file => name.isPrefixOf file.1 && name != file.1

/-- Follows the components of a path from a directory.  Only the last one may lead to a file. -/
def follow (t : FileTree) (directory : List String) :
    List String → Except ReadFault (List String)
  | [] => .ok directory
  | part :: rest =>
    if part = "" ∨ part = "." then follow t directory rest
    else if part = ".." then follow t directory.dropLast rest
    else
      let name := directory ++ [part]
      if t.hasDirectory name then follow t name rest
      else if t.files.any fun file => file.1 == name then
        if rest = [] then .ok name else .error .notDirectory
      else .error .notFound

/-- The bytes of the file that a path leads to. -/
def read (t : FileTree) (path : String) : Except ReadFault ByteArray :=
  if path = "" then .error .notFound
  else
    let start := if path.toList.head? = some '/' then [] else t.workingDirectory
    match t.follow start ((Text.pieces '/' path.toList).map String.ofList) with
    | .error fault => .error fault
    | .ok name =>
      match t.files.lookup name with
      | some bytes => .ok bytes
      | none => .error .isDirectory

/-- The world with these files, variables and bytes on standard input, which can be read. -/
def world (t : FileTree) (getVariable : String → Option String) (standardInput : ByteArray) :
    World :=
  ⟨getVariable, t.read, .ok standardInput⟩

end FileTree

end TapeMachine.Command
