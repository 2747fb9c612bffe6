import Earley.Chart.Graph

/-!
# Drawings

In a drawing of a chart's graph each column is an upright lane, three units from the next, with
its items below one another.  The colour of an edge shows its step.
-/

set_option autoImplicit false

namespace Earley

def Step.colour : Step → String
  | .scan => "tab:blue"
  | .predict => "tab:gray"
  | .complete => "tab:green"

structure DrawnNode where
  node : Node
  label : String
  x : Int
  y : Int

structure Drawing where
  nodes : List DrawnNode
  edgeColours : List String

def PlacedNode.drawn (placed : PlacedNode) : DrawnNode :=
  ⟨placed.node, placed.label, 3 * placed.node.column, -(placed.row : Int)⟩

/-- The drawing of a graph.  A node without a place cannot be drawn. -/
def Graph.drawing (graph : Graph) : Except Fault Drawing :=
  if graph.unplaced.isEmpty then
    .ok ⟨graph.placed.map PlacedNode.drawn, graph.outgoing.map fun edge => edge.step.colour⟩
  else .error .unplacedNode

def Chart.drawing (chart : Chart) : Except Fault Drawing := do
  (← chart.graph).drawing

end Earley
