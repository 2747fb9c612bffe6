import Earley.Recognition

/-!
# Recognition without the index of waiting items

Here completion and scanning go over all items of a column, one after the other, and ask each of
them whether it waits on the symbol in question.  Otherwise the algorithm is that of
`Recognition.build`.
-/

set_option autoImplicit false

namespace Earley.Unindexed

/-- Works through several items in turn, up to the first fault. -/
def each (step : Chart → Item → Outcome) : List Item → Chart → Outcome
  | [], chart => ⟨chart, false, none⟩
  | item :: rest, chart =>
    match step chart item with
    | ⟨chart, read, some fault⟩ => ⟨chart, read, some fault⟩
    | ⟨chart, _, none⟩ => each step rest chart

def advance (s : Symbol) (index : Int) (chart : Chart) (item : Item) : Outcome :=
  match item.next with
  | .error fault => ⟨chart, false, some fault⟩
  | .ok next => .ofAddition (chart.addAll index (if next = some s then [item.moved] else []))

/-- Completes an item in the column at an index, asking every item of the column where it began. -/
def complete (chart : Chart) (item : Item) (index : Int) : Outcome :=
  match chart.column item.origin with
  | .error fault => ⟨chart, false, some fault⟩
  | .ok column => each (advance item.lhs index) column.items chart

def visit (chart : Chart) (grammar : Grammar) (item : Item) (index : Int) : Outcome :=
  if item.isComplete then complete chart item index
  else chart.visit grammar item index

def closeFrom (grammar : Grammar) (index : Int) (place : Nat) : Nat → Nat → Chart → Outcome
  | 0, _, chart => ⟨chart, false, none⟩
  | fuel + 1, visited, chart =>
    match chart.columns[place]?.bind fun column => column.items[visited]? with
    | none => ⟨chart, false, none⟩
    | some item =>
      match visit chart grammar item index with
      | ⟨chart, read, some fault⟩ => ⟨chart, read, some fault⟩
      | ⟨chart, _, none⟩ => closeFrom grammar index place fuel (visited + 1) chart

def close (chart : Chart) (grammar : Grammar) (index : Int) : Outcome :=
  match chart.place index with
  | .error fault => ⟨chart, false, some fault⟩
  | .ok place => closeFrom grammar index place (chart.itemBound grammar) 0 chart

def scanColumn (chart : Chart) (index : Int) (character : String) : Outcome :=
  if character = endMark then ⟨chart, false, none⟩
  else match chart.column index with
    | .error fault => ⟨chart, false, some fault⟩
    | .ok column => each (fun chart item => chart.scan item index character) column.items chart

def readFrom (grammar : Grammar) (number : Nat) : List Char → Chart → Outcome
  | [], chart =>
    match close chart grammar number with
    | ⟨chart, read, some fault⟩ => ⟨chart, read, some fault⟩
    | ⟨chart, _, none⟩ => scanColumn chart number endMark
  | c :: rest, chart =>
    match close chart grammar number with
    | ⟨chart, read, some fault⟩ => ⟨chart, read, some fault⟩
    | ⟨chart, _, none⟩ =>
      match scanColumn chart number (String.singleton c) with
      | ⟨chart, read, some fault⟩ => ⟨chart, read, some fault⟩
      | ⟨chart, _, none⟩ => readFrom grammar (number + 1) rest chart

def build (grammar : Grammar) (word start : String) : Outcome :=
  readFrom grammar 0 word.toList (.ofLength word.toList.length start)

end Earley.Unindexed
