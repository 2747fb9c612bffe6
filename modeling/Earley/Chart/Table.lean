import Earley.Chart.Basic

/-!
# Tables

The items of a chart form a table with one row for each.  In print every cell stands at the right
of its field.  A field is as wide as its longest cell or its heading, and the field of a number
has one more place in front.
-/

set_option autoImplicit false

namespace Earley

structure Row where
  column : Nat
  lhs : String
  rhs : String
  dot : Int
  origin : Int
  deriving DecidableEq

namespace Chart

def row (number : Nat) (item : Item) : Except Fault Row :=
  item.dotted.map fun rhs => ⟨number, item.production.head, rhs, item.dot, item.origin⟩

def rows (chart : Chart) : Except Fault (List Row) := do
  let blocks ← chart.numbered.mapM fun (number, column) => column.items.mapM (row number)
  return blocks.flatten

end Chart

namespace Table

/-- A heading, whether numbers stand under it, and the cell of a row under it. -/
structure Field where
  heading : String
  numeric : Bool
  cell : Row → String

/-- Tab, line feed and carriage return stand in a cell as a backslash and a letter. -/
def cellText (text : String) : String :=
  String.ofList (text.toList.flatMap fun c =>
    if c = '\t' then ['\\', 't']
    else if c = '\n' then ['\\', 'n']
    else if c = '\r' then ['\\', 'r']
    else [c])

def fields : List Field := [
  ⟨"column", true, fun row => toString row.column⟩,
  ⟨"lhs", false, fun row => cellText row.lhs⟩,
  ⟨"rhs", false, fun row => cellText row.rhs⟩,
  ⟨"dot", true, fun row => toString row.dot⟩,
  ⟨"origin", true, fun row => toString row.origin⟩]

def headings : List String := fields.map Field.heading

def Field.width (field : Field) (rows : List Row) : Nat :=
  (field.heading :: rows.map field.cell).foldl (fun width cell => max width cell.length) 0
    + (if field.numeric then 1 else 0)

def pad (width : Nat) (cell : String) : String :=
  String.ofList (List.replicate (width - cell.length) ' ') ++ cell

def line (widths : List Nat) (cells : List String) : String :=
  String.intercalate " " (List.zipWith pad widths cells)

def render (rows : List Row) : String :=
  let widths := fields.map fun field => field.width rows
  String.intercalate "\n" (line widths headings ::
    rows.map fun row => line widths (fields.map fun field => field.cell row))

end Table

end Earley
