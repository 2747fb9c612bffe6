import Earley.CommandLine.Files
import Earley.Grammar.Loading
import Earley.Text.Utf8

/-!
# Reading a grammar file

A file is read piece by piece.  The bytes of a piece are decoded behind those that an earlier piece
left of a character, and the text is cut into lines behind what an earlier piece left of a line.  A
finished line is added to the grammar before the next piece is read, so what is wrong with it comes
before what is wrong with a later piece.  The end of the file finishes the last line.
-/

set_option autoImplicit false

namespace Earley.CommandLine

inductive LoadError where
  | nullInName
  | unopened (error : FileError)
  | broken (error : FileError)
  | undecodable (failure : Text.Utf8.Failure)
  | malformed (error : GrammarError)

/-- The state of the reading between two pieces: the bytes of a character and the characters of a
line that are not finished, and the grammar of the lines before. -/
structure Reader where
  pending : List UInt8 := []
  held : List Char := []
  grammar : Grammar := .empty

namespace Reader

def addLines (grammar : Grammar) (lines : List (List Char)) : Except LoadError Grammar :=
  ((lines.map String.ofList).foldlM Grammar.addLine grammar).mapError .malformed

def take (reader : Reader) (piece : List UInt8) : Except LoadError Reader := do
  let (text, pending) ← (Text.Utf8.decode (reader.pending ++ piece)).ready.mapError
    LoadError.undecodable
  let (lines, held) := Text.cutFinished Text.isNewline (reader.held ++ text)
  let grammar ← addLines reader.grammar lines
  return { pending, held, grammar }

def finish (reader : Reader) : Except LoadError Grammar := do
  let text ← (Text.Utf8.decode reader.pending).complete.mapError LoadError.undecodable
  addLines reader.grammar (Text.allLines Text.isNewline (reader.held ++ text))

end Reader

def loadFile (file : OpenedFile) : Except LoadError Grammar := do
  let reader ← file.pieces.foldlM Reader.take {}
  match file.broken with
  | some error => throw (.broken error)
  | none => reader.finish

def loadBytes (bytes : List UInt8) : Except LoadError Grammar :=
  loadFile (.ofBytes bytes)

def load (path : String) (opened : Except FileError OpenedFile) : Except LoadError Grammar :=
  if '\x00' ∈ path.toList then .error .nullInName
  else do loadFile (← opened.mapError .unopened)

end Earley.CommandLine
