import Earley.Grammar.Error
import Earley.Text.Split
import Earley.Text.Uppercase

/-!
# Lines of a grammar

A line such as `S->aSb|~` has a head, an arrow and alternatives between bars.  `RuleLine.parse`
takes it apart.  It checks the arrow, then the head, then the alternatives; which characters an
alternative may have is decided when its production is read.
-/

set_option autoImplicit false

namespace Earley

def arrow : String := "->"

def bar : String := "|"

/-- The head of a line and its alternatives, none of them read yet. -/
structure RuleLine where
  head : String
  alternatives : List String
  deriving DecidableEq

namespace RuleLine

/-- One character with the property Uppercase. -/
def isHead : List Char → Bool
  | [c] => Text.isUppercase c
  | _ => false

def parse (line : String) : Except GrammarError RuleLine :=
  match Text.cut arrow.toList line.toList with
  | none => .error (.missingArrow line)
  | some (head, body) =>
    if (Text.cut arrow.toList body).isSome then .error (.repeatedArrow line)
    else if isHead head = false then .error (.badHead line)
    else
      let alternatives := Text.pieces bar.toList body
      if [] ∈ alternatives then .error (.emptyAlternative line)
      else .ok ⟨String.ofList head, alternatives.map String.ofList⟩

end RuleLine

end Earley
