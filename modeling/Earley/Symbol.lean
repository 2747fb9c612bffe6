import Earley.Grammar.Error

/-!
# Symbols

A grammar symbol is a terminal, a nonterminal or an epsilon, each with a name.  Two symbols are
equal when both the sort and the name agree.  Written symbols are single characters:
`Symbol.ofText` reads an uppercase ASCII letter as a nonterminal, a lowercase one as a terminal
and `~` as the epsilon.
-/

set_option autoImplicit false

namespace Earley

/-- A symbol of a grammar.  An epsilon stands for the empty word. -/
inductive Symbol where
  | terminal (name : String)
  | nonterminal (name : String)
  | epsilon (name : String)
  deriving DecidableEq

def emptyMark : Char := '~'

namespace Symbol

def name : Symbol → String
  | terminal name => name
  | nonterminal name => name
  | epsilon name => name

def isTerminal : Symbol → Bool
  | terminal _ => true
  | _ => false

def isNonterminal : Symbol → Bool
  | nonterminal _ => true
  | _ => false

def isEpsilon : Symbol → Bool
  | epsilon _ => true
  | _ => false

def empty : Symbol := epsilon (String.singleton emptyMark)

def ofChar (c : Char) : Except GrammarError Symbol :=
  if c = emptyMark then .ok empty
  else if c.isUpper then .ok (nonterminal (String.singleton c))
  else if c.isLower then .ok (terminal (String.singleton c))
  else .error (.notASymbol (String.singleton c))

/-- The symbol that a text writes, which has to be one character. -/
def ofText (text : String) : Except GrammarError Symbol :=
  match text.toList with
  | [c] => ofChar c
  | _ => .error (.notASymbol text)

/-! ## Sets of symbols in order -/

def rank : Symbol → Nat
  | epsilon _ => 0
  | nonterminal _ => 1
  | terminal _ => 2

/-- By name, then epsilon before nonterminal before terminal. -/
def precedes (s t : Symbol) : Bool :=
  s.name < t.name || (s.name == t.name && s.rank < t.rank)

def insertSorted (s : Symbol) : List Symbol → List Symbol
  | [] => [s]
  | t :: rest =>
    if s = t then t :: rest
    else if s.precedes t then s :: t :: rest
    else t :: insertSorted s rest

def sorted (symbols : List Symbol) : List Symbol :=
  symbols.foldr insertSorted []

end Symbol

end Earley
