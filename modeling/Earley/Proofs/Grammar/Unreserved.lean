import Earley.Grammar.Basic
import Earley.Proofs.Grammar.Derivation

/-!
# Grammars that do not mention the reserved nonterminal

The augmented start production is headed by a nonterminal that no production of a grammar may
have as its head.  A grammar is unreserved when no body mentions it either.  Then the augmented
production adds nothing to what the other symbols yield.
-/

set_option autoImplicit false

namespace Earley

def Symbol.reserved : Symbol := .nonterminal augmentedHead

/-- No body mentions the reserved nonterminal. -/
def Grammar.Unreserved (grammar : Grammar) : Prop :=
  ∀ p ∈ grammar.productions, Symbol.reserved ∉ p.body

theorem Grammar.lhs_ne_reserved {grammar : Grammar} {p : Production}
    (member : p ∈ grammar.productions) : p.lhs ≠ .reserved := by
  intro same
  exact grammar.head_ne_augmented p member (Symbol.nonterminal.inj same)

/-! ## Yields beside the augmented production -/

variable {grammar : Grammar} {start : String}

def Grammar.augmentedProductions (grammar : Grammar) (start : String) : List Production :=
  .augmented start :: grammar.productions

theorem Grammar.mem_augmentedProductions {p : Production} :
    p ∈ grammar.augmentedProductions start ↔ p = .augmented start ∨ p ∈ grammar.productions :=
  List.mem_cons

theorem Yields.augment {symbols : List Symbol} {word : List Char}
    (yields : Yields grammar.productions symbols word) :
    Yields (grammar.augmentedProductions start) symbols word :=
  yields.mono fun _ member => List.mem_cons_of_mem _ member

/-- What a list of symbols yields, it yields without the augmented production, unless it mentions
the reserved nonterminal.  The start symbol may be that nonterminal: then it yields nothing. -/
theorem Yields.of_augment (unreserved : grammar.Unreserved) {symbols : List Symbol}
    {word : List Char} (yields : Yields (grammar.augmentedProductions start) symbols word)
    (free : .reserved ∉ symbols ∨ start = augmentedHead) :
    Yields grammar.productions symbols word := by
  induction yields with
  | nil => exact .nil
  | epsilon name _ ih =>
    exact .epsilon name (ih (free.imp_left fun absent => mt (List.mem_cons_of_mem _) absent))
  | terminal c _ ih =>
    exact .terminal c (ih (free.imp_left fun absent => mt (List.mem_cons_of_mem _) absent))
  | @nonterminal p member rest first second _ _ inside behind =>
    have back := behind (free.imp_left fun absent => mt (List.mem_cons_of_mem _) absent)
    rcases Grammar.mem_augmentedProductions.mp member with rfl | member
    · -- The reserved nonterminal stands first, so the augmented production leads to itself.
      rcases free with absent | reserved
      · exact absurd List.mem_cons_self absent
      · obtain ⟨p, member, head, _⟩ := (inside (.inr reserved)).of_nonterminal
        exact absurd (head.trans reserved) (grammar.head_ne_augmented p member)
    · exact .nonterminal member (inside (.inl (unreserved p member))) back

/-! ## A grammar

Pairs of brackets `a` and `b`.  Its nonterminal is nullable, and it is the last of a body. -/

def Production.nesting : Production where
  head := "S"
  body := [.terminal "a", .nonterminal "S", .terminal "b", .nonterminal "S"]
  body_ne_nil := by decide
  epsilon_alone := by decide

def Production.nothing : Production where
  head := "S"
  body := [.empty]
  body_ne_nil := by decide
  epsilon_alone := by decide

theorem Production.head_nesting : Production.nesting.head ≠ augmentedHead := by decide

theorem Production.head_nothing : Production.nothing.head ≠ augmentedHead := by decide

def Grammar.brackets : Grammar :=
  (empty.append .nesting (by decide) (by decide)).append .nothing (by decide) (by decide)

theorem Grammar.unreserved_brackets : brackets.Unreserved := by
  unfold Unreserved
  decide

end Earley
