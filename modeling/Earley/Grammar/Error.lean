import Earley.Text.Quoted

/-!
# What can be wrong with a grammar

Each constructor is one cause and carries the text that its message shows.
-/

set_option autoImplicit false

namespace Earley

inductive GrammarError where
  /-- The text is neither one ASCII letter nor the mark of the empty alternative. -/
  | notASymbol (text : String)
  | headNotNonterminal (head : String)
  | emptyBody (head : String)
  | epsilonNotAlone (head : String)
  | missingArrow (line : String)
  | repeatedArrow (line : String)
  /-- What stands before the arrow is not one uppercase letter. -/
  | badHead (line : String)
  | emptyAlternative (line : String)
  | reservedHead
  deriving DecidableEq

def GrammarError.message : GrammarError → String
  | .notASymbol text =>
    "Symbols are single ASCII letters or '~', got " ++ Text.quoted text
  | .headNotNonterminal head =>
    "Head of a production must be a nonterminal, got " ++ Text.quoted head
  | .emptyBody head => "Empty body for " ++ head ++ "; use '~' for the empty alternative"
  | .epsilonNotAlone head => "'~' must stand alone in a body of " ++ head
  | .missingArrow line => "Missing '->' in production " ++ Text.quoted line
  | .repeatedArrow line => "Repeated '->' in production " ++ Text.quoted line
  | .badHead line => "Head must be a single uppercase letter in " ++ Text.quoted line
  | .emptyAlternative line => "Empty alternative in " ++ Text.quoted line ++ "; use '~' instead"
  | .reservedHead => "\"S'\" is reserved for the augmented start production"

end Earley
