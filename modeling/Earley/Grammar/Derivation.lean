import Earley.Production

/-!
# Derivations

A list of symbols is rewritten by putting the body of a production in the place of its head, or by
erasing an epsilon.  `Derives` is any number of such steps.  `Yields` reads a list of symbols from
left to right as a word: a terminal named by one character yields that character, an epsilon
nothing, and a nonterminal what the body of one of its productions yields.
-/

set_option autoImplicit false

namespace Earley

inductive Rewrites (productions : List Production) : List Symbol → List Symbol → Prop where
  | expand {p : Production} (member : p ∈ productions) (before after : List Symbol) :
      Rewrites productions (before ++ p.lhs :: after) (before ++ (p.body ++ after))
  | erase (name : String) (before after : List Symbol) :
      Rewrites productions (before ++ .epsilon name :: after) (before ++ after)

inductive Derives (productions : List Production) : List Symbol → List Symbol → Prop where
  | refl (symbols : List Symbol) : Derives productions symbols symbols
  | step {first middle last : List Symbol} (step : Rewrites productions first middle)
      (rest : Derives productions middle last) : Derives productions first last

/-- The word that a list of symbols can be read as. -/
inductive Yields (productions : List Production) : List Symbol → List Char → Prop where
  | nil : Yields productions [] []
  | epsilon (name : String) {rest : List Symbol} {word : List Char}
      (yields : Yields productions rest word) : Yields productions (.epsilon name :: rest) word
  | terminal (c : Char) {rest : List Symbol} {word : List Char}
      (yields : Yields productions rest word) :
      Yields productions (.terminal (String.singleton c) :: rest) (c :: word)
  | nonterminal {p : Production} (member : p ∈ productions) {rest : List Symbol}
      {first second : List Char} (inside : Yields productions p.body first)
      (behind : Yields productions rest second) :
      Yields productions (p.lhs :: rest) (first ++ second)

end Earley
