import Earley.Chart.Column

/-!
# Charts

A chart for a word of `n` characters has columns `0` to `n`.  Column `0` starts with the item that
has the whole start symbol before it, and the word is accepted when the last column has the item
that has it behind it.  Columns are named by indices from either end.
-/

set_option autoImplicit false

namespace Earley

/-- The columns of a word and the start symbol they were made for. -/
structure Chart where
  start : String
  columns : Array Column

namespace Chart

def seed (start : String) : Item := .fresh (.augmented start) 0

def ofLength (length : Nat) (start : String) : Chart where
  start := start
  columns := ((Column.empty.add (seed start)).column :: List.replicate length .empty).toArray

theorem size_ofLength (length : Nat) (start : String) :
    (ofLength length start).columns.size = length + 1 := by
  simp [ofLength]

/-- The same for any number; a negative length leaves no column for the first item. -/
def ofLength? (length : Int) (start : String) : Except Fault Chart :=
  if length < 0 then .error .noEntry else .ok (ofLength length.toNat start)

/-- The item that shows the start symbol recognized from the beginning. -/
def finalItem (chart : Chart) : Item := (seed chart.start).moved

def accepted (chart : Chart) : Bool :=
  match chart.columns.back? with
  | some column => chart.finalItem ∈ column.items
  | none => false

def place (chart : Chart) (index : Int) : Except Fault Nat :=
  position .noEntry chart.columns.size index

def column (chart : Chart) (index : Int) : Except Fault Column := do
  let place ← chart.place index
  match chart.columns[place]? with
  | some column => .ok column
  | none => .error .noEntry

/-- Takes several items into the column at an index, up to the first fault.  Where there is
nothing to take in, the index is not looked at. -/
def addAll (chart : Chart) (index : Int) (items : List Item) : Chart × Option Fault :=
  if items.isEmpty then (chart, none)
  else match chart.place index with
    | .error fault => (chart, some fault)
    | .ok place =>
      match chart.columns[place]? with
      | none => (chart, some .noEntry)
      | some column =>
        let (grown, fault) := column.addAll items
        ({ chart with columns := chart.columns.setIfInBounds place grown }, fault)

def add (chart : Chart) (index : Int) (item : Item) : Chart × Except Fault Bool :=
  match chart.column index with
  | .error fault => (chart, .error fault)
  | .ok column =>
    let (grown, fault) := chart.addAll index [item]
    (grown, match fault with
      | some fault => .error fault
      | none => .ok (item ∉ column.items))

def numbered (chart : Chart) : List (Nat × Column) :=
  chart.columns.toList.zipIdx.map fun (column, number) => (number, column)

def heading (number : Nat) : String :=
  "------ State set " ++ toString number ++ " ------"

def render (chart : Chart) : Except Fault String := do
  let blocks ← chart.numbered.mapM fun (number, column) => do
    return heading number :: (← column.items.mapM Item.render)
  return String.intercalate "\n" blocks.flatten

end Chart

end Earley
