import Earley.Text.CodeRanges

/-!
# Lines

A text is cut at its line breaks.  Two sets of breaks are in use: a file is cut at line feed and
carriage return only, a text in memory also at the other line and paragraph boundaries.  In both
a carriage return followed by a line feed is one break, and a break at the very end opens no
further line.  The standard input is not cut so: its first line goes up to the first line feed.
-/

set_option autoImplicit false

namespace Earley.Text

def isNewline (c : Char) : Bool :=
  c == '\n' || c == '\r'

/-- Line feed, vertical tab, form feed, carriage return, the separators of files, groups and
records, next line, and the line and paragraph separators. -/
def isLineBoundary (c : Char) : Bool :=
  inRanges [(0x000A, 0x000D), (0x001C, 0x001E), (0x0085, 0x0085), (0x2028, 0x2029)] c

def cutLines (isBreak : Char → Bool) : List Char → List (List Char) × List Char
  | [] => ([], [])
  | '\r' :: '\n' :: rest =>
    let (lines, remainder) := cutLines isBreak rest
    ([] :: lines, remainder)
  | c :: rest =>
    let (lines, remainder) := cutLines isBreak rest
    if isBreak c then ([] :: lines, remainder)
    else match lines with
      | [] => ([], c :: remainder)
      | line :: others => ((c :: line) :: others, remainder)

/-- All lines of a text; an empty remainder is no line. -/
def allLines (isBreak : Char → Bool) (text : List Char) : List (List Char) :=
  let (lines, remainder) := cutLines isBreak text
  if remainder.isEmpty then lines else lines ++ [remainder]

/-- A carriage return at the end, which may be half a break, is split off. -/
def holdReturn (start : List Char) : List Char × List Char :=
  if start.getLast? = some '\r' then (start.dropLast, ['\r']) else (start, [])

/-- The lines known to be finished when only the start of a text has been read, and what is left
of it. -/
def cutFinished (isBreak : Char → Bool) (start : List Char) : List (List Char) × List Char :=
  let (front, back) := holdReturn start
  let (lines, remainder) := cutLines isBreak front
  (lines, remainder ++ back)

def splitLines (text : String) : List String :=
  (allLines isLineBoundary text.toList).map String.ofList

def fileLines (text : String) : List String :=
  (allLines isNewline text.toList).map String.ofList

def finishedFileLines (start : String) : List String :=
  (cutFinished isNewline start.toList).1.map String.ofList

/-- A line that is read by itself ends at a line feed only. -/
def firstLine (text : String) : String :=
  String.ofList (text.toList.takeWhile (· ≠ '\n'))

end Earley.Text
