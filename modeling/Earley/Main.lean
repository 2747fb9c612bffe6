import Earley.CommandLine.Run

/-!
# The program

`main` opens the grammar file, asks for a word where none is given, and writes the report.  All
decisions are made by the functions it calls.
-/

set_option autoImplicit false

namespace Earley.CommandLine

/-- The reason for a failure to read a file.  A step that is no directory fails the opening,
which names the path; a directory is opened and then fails to be read. -/
def FileError.ofIOError : IO.Error → FileError
  | .inappropriateType (some _) _ _ => .notADirectory
  | .inappropriateType none _ _ => .isADirectory
  | .invalidArgument _ _ _ => .nameTooLong
  | .permissionDenied _ _ _ => .permissionDenied
  | .resourceExhausted _ code description => .other code.toNat description
  | .hardwareFault code description => .other code.toNat description
  | .otherError code description => .other code.toNat description
  | _ => .notFound

def readFile (handle : IO.FS.Handle) : IO (Except FileError OpenedFile) := do
  try
    return .ok (.ofBytes (← handle.readBinToEnd).toList)
  catch error =>
    match FileError.ofIOError error with
    | .isADirectory => return .error .isADirectory
    | broken => return .ok ⟨[], some broken⟩

def openFile (path : String) : IO (Except FileError OpenedFile) := do
  try
    readFile (← IO.FS.Handle.mk path .read)
  catch error => return .error (.ofIOError error)

/-- Writes a report, of which the first part of the output may have been shown already, and
gives the exit status. -/
def Report.deliver (report : Report) (shown : String) : IO UInt32 := do
  IO.print (String.ofList (report.output.toList.drop shown.length))
  IO.eprint report.errors
  match report.status with
  | .ok status => return UInt32.ofNat status
  | .error escape =>
    IO.eprintln escape.message
    return 1

def readInput : IO Input := do
  try
    return .text (← (← IO.getStdin).getLine)
  catch _ => return .closed

def askAndJudge (options : Options) (grammar : Grammar) : IO UInt32 := do
  IO.print prompt
  (← IO.getStdout).flush
  (judgeGiven options grammar (← readInput)).deliver prompt

def perform (options : Options) : IO UInt32 := do
  match load options.grammarFile (← openFile options.grammarFile) with
  | .error error => (error.report options.grammarFile).deliver ""
  | .ok grammar =>
    if options.word.isSome then (judgeGiven options grammar .closed).deliver ""
    else askAndJudge options grammar

end Earley.CommandLine

open Earley.CommandLine in
def main (arguments : List String) : IO UInt32 :=
  match parse arguments with
  | .error interruption => interruption.report.deliver ""
  | .ok options => perform options
