import Earley.Chart.Basic
import Earley.Grammar.Basic

/-!
# Prediction, completion and scanning

Each operation looks at an item or a column and takes a batch of items into one column.
Prediction adds the productions of the symbol after the dot, begun here, and moves the dot over
the symbol if it is nullable; so an empty recognition never has to be completed.  Completion moves
the dot over the head in the items that wait for it where the completed item began.  Scanning
moves the dot over a terminal into the next column.
-/

set_option autoImplicit false

namespace Earley

/-- What an operation leaves: the chart, whether the nullable set of the grammar was read, and
the fault that ended the operation. -/
structure Outcome where
  chart : Chart
  consulted : Bool
  fault : Option Fault

/-- Stands for the character after the last one.  It is longer than a character, so no character
equals it. -/
def endMark : String := "eof"

namespace Outcome

def ofAddition (result : Chart × Option Fault) : Outcome := ⟨result.1, false, result.2⟩

end Outcome

namespace Chart

def predicted (grammar : Grammar) (index : Int) : Option Symbol → List Item
  | some s => (grammar.rulesFor s).map (Item.fresh · index)
  | none => []

/-- The item with its dot behind the symbol, if the symbol is nullable. -/
def skipped (grammar : Grammar) (item : Item) : Option Symbol → List Item
  | some s => if s ∈ grammar.nullable then [item.moved] else []
  | none => []

def predict (chart : Chart) (grammar : Grammar) (item : Item) (index : Int) : Outcome :=
  match item.next with
  | .error fault => ⟨chart, false, some fault⟩
  | .ok s =>
    match chart.addAll index (predicted grammar index s) with
    | (chart, some fault) => ⟨chart, false, some fault⟩
    | (chart, none) =>
      let (chart, fault) := chart.addAll index (skipped grammar item s)
      ⟨chart, true, fault⟩

def complete (chart : Chart) (item : Item) (index : Int) : Outcome :=
  match chart.column item.origin with
  | .error fault => ⟨chart, false, some fault⟩
  | .ok column => .ofAddition (chart.addAll index ((column.waitingOn item.lhs).map Item.moved))

def scan (chart : Chart) (item : Item) (index : Int) (character : String) : Outcome :=
  match item.next with
  | .error fault => ⟨chart, false, some fault⟩
  | .ok s => .ofAddition (chart.addAll (index + 1)
      (if s = some (.terminal character) then [item.moved] else []))

/-- Scans a character from every item that waits on it in the column at an index.  The end mark
is never scanned. -/
def scanColumn (chart : Chart) (index : Int) (character : String) : Outcome :=
  if character = endMark then ⟨chart, false, none⟩
  else match chart.column index with
    | .error fault => ⟨chart, false, some fault⟩
    | .ok column => .ofAddition (chart.addAll (index + 1)
        ((column.waitingOn (.terminal character)).map Item.moved))

end Chart

end Earley
