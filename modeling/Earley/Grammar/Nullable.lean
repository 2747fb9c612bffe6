import Earley.AppendNew
import Earley.Production

/-!
# Nullable nonterminals

A nonterminal is nullable when it derives the empty word.  The heads of the empty productions
start the set; a pass over the productions adds every head whose body is nullable throughout.
Passes are repeated until one adds nothing.  Every earlier pass adds a head, so there are at most
as many passes as productions.
-/

set_option autoImplicit false

namespace Earley

/-- Every symbol of the body is an epsilon or known to be nullable. -/
def Production.vanishes (p : Production) (known : List Symbol) : Bool :=
  p.body.all fun s => s.isEpsilon || s ∈ known

def emptyHeads (productions : List Production) : List Symbol :=
  productions.foldl (fun known p => if p.isEmpty then appendNew known p.lhs else known) []

/-- One pass: each production may use what the ones before it added. -/
def nullablePass (productions : List Production) (known : List Symbol) : List Symbol :=
  productions.foldl
    (fun known p => if p.vanishes known then appendNew known p.lhs else known) known

def nullableFrom (productions : List Production) : Nat → List Symbol → List Symbol
  | 0, known => known
  | fuel + 1, known =>
    let grown := nullablePass productions known
    if grown.length = known.length then known
    else nullableFrom productions fuel grown

def nullableSymbols (productions : List Production) : List Symbol :=
  nullableFrom productions productions.length (emptyHeads productions)

end Earley
