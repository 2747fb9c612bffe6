import Earley.Grammar.Basic

/-!
# Forms of an addition

A production is added to a grammar as a value, as a head and a body of symbols, or as two texts.
The body of the last two forms may be absent, which is refused after a text for the head has been
read and before anything else about the production is checked.
-/

set_option autoImplicit false

namespace Earley

inductive Addition where
  | production (p : Production)
  | symbols (lhs : Symbol) (body : Option (List Symbol))
  | texts (lhs : String) (body : Option String)

inductive Refusal where
  | grammar (error : GrammarError)
  | absentBody
  deriving DecidableEq

def Refusal.message : Refusal → String
  | grammar error => error.message
  | absentBody => "'NoneType' object is not iterable"

namespace Addition

def production? : Addition → Except Refusal Production
  | production p => .ok p
  | symbols _ none => .error .absentBody
  | symbols lhs (some body) => (Production.make lhs body).mapError .grammar
  | texts lhs none => do
    let _ ← (Symbol.ofText lhs).mapError Refusal.grammar
    .error .absentBody
  | texts lhs (some body) => (Production.ofText lhs body).mapError .grammar

end Addition

def Grammar.extend (grammar : Grammar) (addition : Addition) : Except Refusal (Bool × Grammar) := do
  (grammar.add (← addition.production?)).mapError .grammar

end Earley
