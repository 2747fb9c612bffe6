import Earley.Position
import Earley.Production

/-!
# Items

An item is a production with a dot in its body and the column where its recognition began.  An
item that a recognizer makes has its dot inside the body, yet any number is allowed: a dot at or
past the end is complete, a negative one counts from the end of the body.
-/

set_option autoImplicit false

namespace Earley

/-- A production, recognized from column `origin` on as far as the dot. -/
structure Item where
  origin : Int
  dot : Int
  production : Production
  deriving DecidableEq

def dotMark : String := "•"

namespace Item

def fresh (p : Production) (origin : Int) : Item := ⟨origin, 0, p⟩

def lhs (item : Item) : Symbol := item.production.lhs

def body (item : Item) : List Symbol := item.production.body

def isComplete (item : Item) : Bool := (item.body.length : Int) ≤ item.dot

def next (item : Item) : Except Fault (Option Symbol) :=
  if item.isComplete then .ok none
  else (position .noSymbol item.body.length item.dot).map fun place => item.body[place]?

/-- The symbol after the dot can be read and is the given one. -/
def waitsOn (item : Item) (s : Symbol) : Bool :=
  match item.next with
  | .ok next => next = some s
  | .error _ => false

def moved (item : Item) : Item := { item with dot := item.dot + 1 }

def retreated (item : Item) : Item := { item with dot := item.dot - 1 }

def advance (item : Item) : Except Fault Item :=
  if item.isComplete then .error .dotAtEnd else .ok item.moved

/-- The body with the dot in it, as in `a • S b`.  A dot beyond the ends of the body is written at
the nearer end, unless it is too large for a word. -/
def dotted (item : Item) : Except Fault String :=
  if item.dot.natAbs ≤ item.body.length || fitsWord item.dot then
    let names := item.body.map Symbol.name
    .ok (String.intercalate " " (names.insertIdx (insertionPlace names.length item.dot) dotMark))
  else .error .hugeDot

/-- The item in one line, as in `S → a • S b, 0`. -/
def render (item : Item) : Except Fault String :=
  item.dotted.map fun body =>
    item.production.head ++ " → " ++ body ++ ", " ++ toString item.origin

end Item

end Earley
