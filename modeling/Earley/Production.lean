import Earley.Symbol

/-!
# Productions

A production has a nonterminal head and a body of at least one symbol, in which an epsilon
stands only by itself.  The two conditions on the body are part of the type; `Production.make`
checks them and says which one fails.
-/

set_option autoImplicit false

namespace Earley

/-- A production; the head is the name of a nonterminal. -/
structure Production where
  head : String
  body : List Symbol
  body_ne_nil : body ≠ []
  epsilon_alone : 1 < body.length → ∀ s ∈ body, s.isEpsilon = false
  deriving DecidableEq

/-- The head of the augmented start production.  It is two characters long, so no written
symbol has this name. -/
def augmentedHead : String := "S'"

def defaultStart : String := "S"

namespace Production

def lhs (p : Production) : Symbol := .nonterminal p.head

/-- The production with this head and body, or the first condition that fails: the head is a
nonterminal, the body has a symbol, an epsilon is alone. -/
def make (lhs : Symbol) (body : List Symbol) : Except GrammarError Production :=
  match lhs with
  | .nonterminal head =>
    if filled : body = [] then .error (.emptyBody head)
    else if alone : 1 < body.length → ∀ s ∈ body, s.isEpsilon = false then
      .ok ⟨head, body, filled, alone⟩
    else .error (.epsilonNotAlone head)
  | .terminal head => .error (.headNotNonterminal head)
  | .epsilon head => .error (.headNotNonterminal head)

/-- The production that two texts write.  The head is read first, then the body character by
character. -/
def ofText (lhs body : String) : Except GrammarError Production := do
  make (← Symbol.ofText lhs) (← body.toList.mapM Symbol.ofChar)

def augmented (start : String) : Production where
  head := augmentedHead
  body := [.nonterminal start]
  body_ne_nil := List.cons_ne_nil _ _
  epsilon_alone := fun long => absurd long (Nat.lt_irrefl 1)

def isEmpty (p : Production) : Bool :=
  match p.body with
  | [s] => s.isEpsilon
  | _ => false

/-- The production in one line, as in `S -> aSb`. -/
def render (p : Production) : String :=
  p.head ++ " -> " ++ String.join (p.body.map Symbol.name)

end Production

end Earley
