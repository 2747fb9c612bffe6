import Earley.Chart.Operations

/-!
# Closing a column

A column is closed by one pass over its items, in which items taken in during the pass get their
turn as well.  A complete item is completed, an item before a nonterminal predicts, and any other
is left alone.

The pass ends.  Every item it adds has a production of the chart or of the grammar, an origin of
the chart or the column's own index, and a dot within a body's length of zero; `itemBound` is
larger than the number of these and the items at hand, and serves as fuel.
-/

set_option autoImplicit false

namespace Earley.Chart

/-- The outcome of a pass and the number of items that had their turn. -/
structure Closing extends Outcome where
  visited : Nat

def visit (chart : Chart) (grammar : Grammar) (item : Item) (index : Int) : Outcome :=
  if item.isComplete then chart.complete item index
  else match item.next with
    | .error fault => ⟨chart, false, some fault⟩
    | .ok (some (.nonterminal _)) => chart.predict grammar item index
    | .ok _ => ⟨chart, false, none⟩

def dotPlaces (productions : List Production) : Nat :=
  productions.foldl (fun n p => n + (p.body.length + 1)) 0

def dotPlacesOf (columns : List Column) : Nat :=
  columns.foldl
    (fun n column => column.items.foldl (fun n item => n + (item.body.length + 1)) n) 0

/-- More items than a closed column can have: for each place of a dot, counted from either end,
and each origin there is one item at most, and there are no more origins than places. -/
def itemBound (chart : Chart) (grammar : Grammar) : Nat :=
  let places := dotPlacesOf chart.columns.toList + dotPlaces grammar.productions
  2 * places * (places + 1) + places + 1

/-- The pass over the column at `place`, which the index means, from the item after the visited
ones on. -/
def closeFrom (grammar : Grammar) (index : Int) (place : Nat) :
    Nat → Nat → Bool → Chart → Closing
  | 0, visited, consulted, chart => ⟨⟨chart, consulted, none⟩, visited⟩
  | fuel + 1, visited, consulted, chart =>
    match chart.columns[place]?.bind fun column => column.items[visited]? with
    | none => ⟨⟨chart, consulted, none⟩, visited⟩
    | some item =>
      match chart.visit grammar item index with
      | ⟨chart, read, some fault⟩ => ⟨⟨chart, consulted || read, some fault⟩, visited + 1⟩
      | ⟨chart, read, none⟩ =>
        closeFrom grammar index place fuel (visited + 1) (consulted || read) chart

def close (chart : Chart) (grammar : Grammar) (index : Int) : Closing :=
  match chart.place index with
  | .error fault => ⟨⟨chart, false, some fault⟩, 0⟩
  | .ok place =>
    closeFrom grammar.withNullable index place (chart.itemBound grammar) 0 false chart

end Earley.Chart
