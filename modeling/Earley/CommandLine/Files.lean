import Earley.Text.Quoted
import Earley.Text.Split

/-!
# Files

Opening a path gives a file or the reason why there is none.  A file that was opened is read piece
by piece, and the system may break the reading off.  `Directory.openPath` opens paths in a directory
that holds only files and empty directories.  Every step of a path but the last has to lead to a
directory, and an empty step or a single point leads nowhere else.
-/

set_option autoImplicit false

namespace Earley.CommandLine

inductive FileError where
  | notFound
  | notADirectory
  | isADirectory
  | nameTooLong
  | permissionDenied
  | other (number : Nat) (description : String)
  deriving DecidableEq

namespace FileError

def number : FileError → Nat
  | notFound => 2
  | notADirectory => 20
  | isADirectory => 21
  | nameTooLong => 36
  | permissionDenied => 13
  | other number _ => number

def description : FileError → String
  | notFound => "No such file or directory"
  | notADirectory => "Not a directory"
  | isADirectory => "Is a directory"
  | nameTooLong => "File name too long"
  | permissionDenied => "Permission denied"
  | other _ description => description

/-- The wording of an error in a file that was opened, which names no path. -/
def message (error : FileError) : String :=
  "[Errno " ++ toString error.number ++ "] " ++ error.description

def messageFor (path : String) (error : FileError) : String :=
  error.message ++ ": " ++ Text.quoted path

end FileError

/-- What an opened file gives: pieces of its content, until its end or until an error breaks the
reading off. -/
structure OpenedFile where
  pieces : List (List UInt8)
  broken : Option FileError := none

namespace OpenedFile

def pieceSize : Nat := 8192

def cutPieces (bytes : List UInt8) : List (List UInt8) :=
  if bytes = [] then [] else bytes.take pieceSize :: cutPieces (bytes.drop pieceSize)
termination_by bytes.length
decreasing_by
  have positive : 0 < bytes.length := List.length_pos_iff.mpr ‹_›
  rw [List.length_drop, pieceSize]
  omega

def ofBytes (bytes : List UInt8) : OpenedFile where
  pieces := cutPieces bytes

end OpenedFile

inductive Entry where
  | file (bytes : List UInt8)
  | directory

/-- A directory, in which each name is used once. -/
structure Directory where
  entries : List (String × Entry)

inductive Place where
  | file (bytes : List UInt8)
  | here
  | inside
  /-- A directory above it, of which nothing else is known. -/
  | above

namespace Directory

def pathLimit : Nat := 4095

def stepLimit : Nat := 255

def step (directory : Directory) (place : Place) (name : String) : Except FileError Place :=
  match place with
  | .file _ => .error .notADirectory
  | .here =>
    if name = "" ∨ name = "." then .ok .here
    else if name = ".." then .ok .above
    else if stepLimit < name.utf8ByteSize then .error .nameTooLong
    else match directory.entries.lookup name with
      | some (.file bytes) => .ok (.file bytes)
      | some .directory => .ok .inside
      | none => .error .notFound
  | .inside =>
    if name = "" ∨ name = "." then .ok .inside
    else if name = ".." then .ok .here
    else if stepLimit < name.utf8ByteSize then .error .nameTooLong
    else .error .notFound
  | .above =>
    if name = "" ∨ name = "." ∨ name = ".." then .ok .above
    else if stepLimit < name.utf8ByteSize then .error .nameTooLong
    else .error .notFound

/-- A path that begins with a slash starts above the directory. -/
def openPath (directory : Directory) (path : String) : Except FileError OpenedFile :=
  if path = "" then .error .notFound
  else if pathLimit < path.utf8ByteSize then .error .nameTooLong
  else do
    let start : Place := if path.toList.head? = some '/' then .above else .here
    match ← (Text.split "/" path).foldlM directory.step start with
    | .file bytes => return .ofBytes bytes
    | _ => throw .isADirectory

end Directory

end Earley.CommandLine
