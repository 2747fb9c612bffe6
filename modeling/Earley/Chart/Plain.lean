import Earley.Grammar.Basic
import Earley.Item

/-!
# The plain algorithm

The plain algorithm never asks which symbols are nullable.  A column is closed in rounds: each
round goes over all items of the column, and rounds are repeated until one adds nothing.  The item
of an empty production counts as recognized as soon as it is there.  Its columns are the measure
for the columns of the quicker algorithm.
-/

set_option autoImplicit false

namespace Earley.Plain

/-- The whole body has been recognized, or it is an epsilon. -/
def recognized (item : Item) : Bool :=
  item.isComplete || (item.dot = 0 && item.production.isEmpty)

/-- What follows from an item of the last of some columns: the advances of the items that wait
for a recognized head where it began, or the productions of the symbol after the dot. -/
def consequences (grammar : Grammar) (earlier : List (List Item)) (column : List Item)
    (item : Item) : List Item :=
  if recognized item then
    (((earlier ++ [column])[item.origin.toNat]?.getD []).filter (·.waitsOn item.lhs)).map Item.moved
  else match item.next with
    | .ok (some s) => (grammar.rulesFor s).map (Item.fresh · earlier.length)
    | _ => []

def round (grammar : Grammar) (earlier : List (List Item)) (column : List Item) : List Item :=
  column.foldl
    (fun grown item => (consequences grammar earlier grown item).foldl appendNew grown) column

def rounds (grammar : Grammar) (earlier : List (List Item)) : Nat → List Item → List Item
  | 0, column => column
  | fuel + 1, column =>
    let grown := round grammar earlier column
    if grown.length = column.length then column else rounds grammar earlier fuel grown

/-- More rounds than can add something: there is one item at most for each place of a dot and
each origin. -/
def roundBound (grammar : Grammar) (earlier : List (List Item)) : Nat :=
  (earlier.length + 1) * (grammar.productions.foldl (fun n p => n + (p.body.length + 1)) 2)

def close (grammar : Grammar) (earlier : List (List Item)) (column : List Item) : List Item :=
  rounds grammar earlier (roundBound grammar earlier) column

def scanned (column : List Item) (c : Char) : List Item :=
  (column.filter (·.waitsOn (.terminal (String.singleton c)))).map Item.moved

def readFrom (grammar : Grammar) (earlier : List (List Item)) (column : List Item) :
    List Char → List (List Item)
  | [] => earlier ++ [close grammar earlier column]
  | c :: rest =>
    let closed := close grammar earlier column
    readFrom grammar (earlier ++ [closed]) (scanned closed c) rest

def columns (grammar : Grammar) (word start : String) : List (List Item) :=
  readFrom grammar [] [.fresh (.augmented start) 0] word.toList

end Earley.Plain
