import Earley.AppendNew
import Earley.Item
import Earley.SymbolIndex

/-!
# Columns

A column is a set of items in the order of their arrival, with an index of the items that wait
on each symbol.  The index always gives the same items as a search through the column.  An item
whose next symbol cannot be read is kept in the column and waits on nothing, and its arrival is a
fault.
-/

set_option autoImplicit false

namespace Earley

/-- The items of one place in the word. -/
structure Column where
  items : List Item
  waiting : SymbolIndex Item
  nodup : items.Nodup
  filed_waiting : ∀ s, waiting.filed s = items.filter (·.waitsOn s)

/-- What the arrival of an item does: the column after it, and whether the item was new or which
fault its symbol after the dot gave. -/
structure Arrival where
  column : Column
  answer : Except Fault Bool

namespace Column

def empty : Column := ⟨[], .empty, .nil, fun _ => rfl⟩

def fileWaiting (waiting : SymbolIndex Item) (item : Item) : SymbolIndex Item :=
  match item.next with
  | .ok (some s) => waiting.file s item
  | _ => waiting

theorem filed_fileWaiting (waiting : SymbolIndex Item) (item : Item) (s : Symbol) :
    (fileWaiting waiting item).filed s =
      if item.waitsOn s then waiting.filed s ++ [item] else waiting.filed s := by
  unfold fileWaiting Item.waitsOn
  cases next : item.next with
  | error fault => simp
  | ok found =>
    cases found with
    | none => simp
    | some t =>
      by_cases same : t = s
      · simp [SymbolIndex.filed_file, same]
      · simp [SymbolIndex.filed_file, same, Ne.symm same]

def waitingOn (column : Column) (s : Symbol) : List Item :=
  column.waiting.filed s

theorem mem_waitingOn {column : Column} {s : Symbol} {item : Item} :
    item ∈ column.waitingOn s ↔ item ∈ column.items ∧ item.waitsOn s = true := by
  rw [waitingOn, column.filed_waiting, List.mem_filter]

def add (column : Column) (item : Item) : Arrival :=
  if present : item ∈ column.items then ⟨column, .ok false⟩
  else
    { column :=
        { items := column.items ++ [item]
          waiting := fileWaiting column.waiting item
          nodup := nodup_append_singleton column.nodup present
          filed_waiting := fun s => by
            rw [filed_fileWaiting, column.filed_waiting, List.filter_append]
            by_cases waits : item.waitsOn s <;> simp [waits] }
      answer := item.next.map fun _ => true }

theorem items_add (column : Column) (item : Item) :
    (column.add item).column.items = appendNew column.items item := by
  unfold add appendNew
  by_cases present : item ∈ column.items <;> simp [present]

/-- Takes several items in, in order, up to the first fault. -/
def addAll (column : Column) : List Item → Column × Option Fault
  | [] => (column, none)
  | item :: rest =>
    let arrival := column.add item
    match arrival.answer with
    | .ok _ => arrival.column.addAll rest
    | .error fault => (arrival.column, some fault)

def get (column : Column) (index : Int) : Except Fault Item := do
  let place ← position .noEntry column.items.length index
  match column.items[place]? with
  | some item => .ok item
  | none => .error .noEntry

def summary (column : Column) (index : Int) : String :=
  "Column(" ++ toString index ++ ", " ++ toString column.items.length ++ " items)"

end Column

end Earley
