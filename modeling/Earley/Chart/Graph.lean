import Earley.Chart.Basic

/-!
# The graph of a chart

The nodes are the items of the columns.  An edge leads into an item from an item it comes from:

* a prediction from an item before the head, in the same column, to an item begun there;
* a scan from the item with the dot before a terminal, in the column before;
* a completion from the item with the dot before a nonterminal in column `k`, either because `k`
  is the item's own column, or because the item's column has that nonterminal complete since `k`.

An item whose origin is negative may lead to a column named from the end; its node is then not
among the placed ones.
-/

set_option autoImplicit false

namespace Earley

structure Node where
  column : Int
  item : Item
  deriving DecidableEq

inductive Step where
  | predict
  | scan
  | complete
  deriving DecidableEq

structure Edge where
  source : Node
  target : Node
  step : Step
  deriving DecidableEq

structure PlacedNode where
  node : Node
  label : String
  row : Nat

structure Graph where
  placed : List PlacedNode
  edges : List Edge

namespace Graph

/-- Sources of edges that are no items of the chart, in order of discovery. -/
def unplaced (graph : Graph) : List Node :=
  (graph.edges.map Edge.source).foldl
    (fun nodes node => if graph.placed.any (·.node = node) then nodes else appendNew nodes node) []

def nodes (graph : Graph) : List Node :=
  graph.placed.map PlacedNode.node ++ graph.unplaced

/-- The edges from node to node: for each source in order, its edges in order of discovery. -/
def outgoing (graph : Graph) : List Edge :=
  graph.nodes.flatMap fun node => graph.edges.filter (·.source = node)

end Graph

namespace Chart

def placedNodes (number : Nat) (column : Column) : Except Fault (List PlacedNode) :=
  column.items.zipIdx.mapM fun (item, row) => do
    return ⟨⟨number, item⟩, ← item.render, row⟩

def predictions (number : Nat) (column : Column) (item : Item) : Except Fault (List Edge) := do
  let parents ← column.items.mapM fun parent => do
    return (parent, ← parent.next)
  return parents.filterMap fun (parent, next) =>
    if next = some item.lhs ∧ item.origin = number then
      some ⟨⟨number, parent⟩, ⟨number, item⟩, .predict⟩
    else none

def scans (chart : Chart) (number : Nat) (item : Item) : List Edge :=
  match number with
  | 0 => []
  | before + 1 =>
    match chart.columns[before]? with
    | some column =>
      if item.retreated ∈ column.items then
        [⟨⟨before, item.retreated⟩, ⟨number, item⟩, .scan⟩]
      else []
    | none => []

def completes (column : Column) (head : Symbol) (origin : Int) : Bool :=
  column.items.any fun item => item.isComplete && item.lhs = head && item.origin = origin

def completionFrom (chart : Chart) (number : Nat) (column : Column) (item : Item) (crossed : Symbol)
    (k : Int) : Except Fault (List Edge) := do
  let source ← chart.column k
  return if item.retreated ∈ source.items ∧ (k = number ∨ completes column crossed k) then
    [⟨⟨k, item.retreated⟩, ⟨number, item⟩, .complete⟩]
  else []

/-- The completions that lead to an item, from the columns between its origin and its own.  If
the first of them does not exist, no other is looked at. -/
def completions (chart : Chart) (number : Nat) (column : Column) (item : Item) (crossed : Symbol) :
    Except Fault (List Edge) := do
  if number < item.origin then
    return []
  else
    let _ ← chart.column item.origin
    let edges ← (List.range ((number - item.origin).toNat + 1)).mapM fun (distance : Nat) =>
      chart.completionFrom number column item crossed (item.origin + distance)
    return edges.flatten

def edgesInto (chart : Chart) (number : Nat) (column : Column) (item : Item) :
    Except Fault (List Edge) := do
  if item.dot = 0 then
    predictions number column item
  else
    match ← item.retreated.next with
    | none => throw .nothingBeforeDot
    | some crossed =>
      if crossed.isTerminal then return chart.scans number item
      else chart.completions number column item crossed

/-- The graph of a chart.  All items are written first, then the edges are looked for. -/
def graph (chart : Chart) : Except Fault Graph := do
  let placed ← chart.numbered.mapM fun (number, column) => placedNodes number column
  let edges ← chart.numbered.mapM fun (number, column) =>
    column.items.mapM (chart.edgesInto number column)
  return ⟨placed.flatten, edges.flatten.flatten⟩

end Chart

end Earley
