/-!
# Faults

Items and charts may be built with any numbers, so an operation on them can ask for something
that is not there.  Each constructor is one such cause.
-/

set_option autoImplicit false

namespace Earley

/-- What an operation asked for in vain. -/
inductive Fault where
  | hugeIndex
  /-- A column of a chart or an item of a column that does not exist. -/
  | noEntry
  | noSymbol
  | hugeDot
  | dotAtEnd
  /-- The dot lies beyond the end, so no symbol stands before it. -/
  | nothingBeforeDot
  /-- A node is to be drawn that is the source of an edge and not in the chart. -/
  | unplacedNode
  deriving DecidableEq

def Fault.message : Fault → String
  | .hugeIndex => "cannot fit 'int' into an index-sized integer"
  | .noEntry => "list index out of range"
  | .noSymbol => "tuple index out of range"
  | .hugeDot => "Python int too large to convert to C ssize_t"
  | .dotAtEnd => "Dot position exceeds symbols amount"
  | .nothingBeforeDot => "'NoneType' object has no attribute 'is_terminal'"
  | .unplacedNode => "'layer'"

end Earley
