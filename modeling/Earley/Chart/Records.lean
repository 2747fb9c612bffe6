import Earley.Chart.Column
import Mathlib.Data.Finset.Insert

/-!
# The records of a column

A column can be kept as three records that know nothing of one another: its items in order, the
set of the items seen, and the items that wait on each symbol.  An arrival brings them up to date
one by one, and the symbol after the dot is read between the second and the third; if it cannot be
read, the arrival ends there.  `ofArrivals` is what comes of several arrivals, whatever their
answers.
-/

set_option autoImplicit false

namespace Earley.Column

def ofArrivals (arrivals : List Item) : Column :=
  arrivals.foldl (fun column item => (column.add item).column) .empty

/-- The list, the set and the index of a column, each by itself. -/
structure Records where
  items : List Item
  seen : Finset Item
  waiting : SymbolIndex Item

namespace Records

def empty : Records := ⟨[], ∅, .empty⟩

def add (records : Records) (item : Item) : Records × Except Fault Bool :=
  if item ∈ records.seen then (records, .ok false)
  else
    let records := { records with seen := insert item records.seen }
    let records := { records with items := records.items ++ [item] }
    match item.next with
    | .error fault => (records, .error fault)
    | .ok none => (records, .ok true)
    | .ok (some s) => ({ records with waiting := records.waiting.file s item }, .ok true)

def ofArrivals (arrivals : List Item) : Records :=
  arrivals.foldl (fun records item => (records.add item).1) .empty

end Records

end Earley.Column
