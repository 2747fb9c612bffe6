import Earley.Event
import Earley.Grammar.Nullable
import Earley.SymbolIndex

/-!
# Grammars

A grammar is a list of different productions in the order of their insertion, an index of them by
head, and the nullable set once something has asked for it.  `Grammar.add` refuses the reserved
head, leaves a grammar alone that holds the production already, and otherwise inserts it and
forgets the nullable set.  `Grammar.consult` is a reading of the nullable set: the first one after
an insertion computes the set and reports that.
-/

set_option autoImplicit false

namespace Earley

/-- A set of productions that remembers their order. -/
structure Grammar where
  productions : List Production
  byHead : SymbolIndex Production
  /-- The nullable set, if it has been computed since the last insertion. -/
  known : Option (List Symbol)
  nodup : productions.Nodup
  head_ne_augmented : ∀ p ∈ productions, p.head ≠ augmentedHead
  filed_byHead : ∀ s, byHead.filed s = productions.filter fun p => p.lhs = s
  eq_of_known : ∀ symbols ∈ known, symbols = nullableSymbols productions

namespace Grammar

def empty : Grammar where
  productions := []
  byHead := .empty
  known := none
  nodup := .nil
  head_ne_augmented := nofun
  filed_byHead := fun _ => rfl
  eq_of_known := nofun

def rulesFor (grammar : Grammar) (head : Symbol) : List Production :=
  grammar.byHead.filed head

theorem mem_rulesFor {grammar : Grammar} {head : Symbol} {p : Production} :
    p ∈ grammar.rulesFor head ↔ p ∈ grammar.productions ∧ p.lhs = head := by
  rw [rulesFor, grammar.filed_byHead, List.mem_filter, decide_eq_true_iff]

def nullable (grammar : Grammar) : List Symbol :=
  grammar.known.getD (nullableSymbols grammar.productions)

theorem nullable_eq (grammar : Grammar) :
    grammar.nullable = nullableSymbols grammar.productions := by
  unfold nullable
  cases found : grammar.known with
  | none => rfl
  | some symbols => exact grammar.eq_of_known symbols found

def withNullable (grammar : Grammar) : Grammar :=
  { grammar with
    known := some grammar.nullable
    eq_of_known := fun _ same => Option.some.inj same ▸ grammar.nullable_eq }

/-- The nullable set is computed unless it is at hand, and a computation is reported. -/
def consult (grammar : Grammar) : Grammar × List Event :=
  match grammar.known with
  | some _ => (grammar, [])
  | none => (grammar.withNullable, [.nullableComputed grammar.nullable])

def append (grammar : Grammar) (p : Production) (new : p ∉ grammar.productions)
    (allowed : p.head ≠ augmentedHead) : Grammar where
  productions := grammar.productions ++ [p]
  byHead := grammar.byHead.file p.lhs p
  known := none
  nodup := nodup_append_singleton grammar.nodup new
  head_ne_augmented := by
    intro q member
    rcases List.mem_append.mp member with old | last
    · exact grammar.head_ne_augmented q old
    · rw [List.mem_singleton.mp last]
      exact allowed
  filed_byHead := by
    intro s
    rw [SymbolIndex.filed_file, grammar.filed_byHead, List.filter_append]
    by_cases same : p.lhs = s
    · simp [same]
    · simp [same, Ne.symm same]
  eq_of_known := nofun

/-- Inserts a production behind the others.  The answer tells whether it was new. -/
def add (grammar : Grammar) (p : Production) : Except GrammarError (Bool × Grammar) :=
  if reserved : p.head = augmentedHead then .error .reservedHead
  else if present : p ∈ grammar.productions then .ok (false, grammar)
  else .ok (true, grammar.append p present reserved)

def insert (grammar : Grammar) (p : Production) : Except GrammarError Grammar :=
  (grammar.add p).map Prod.snd

def ofProductions (productions : List Production) : Except GrammarError Grammar :=
  productions.foldlM insert empty

def nonterminals (grammar : Grammar) : List Symbol :=
  Symbol.sorted (grammar.productions.flatMap fun p => p.lhs :: p.body.filter Symbol.isNonterminal)

def terminals (grammar : Grammar) : List Symbol :=
  Symbol.sorted (grammar.productions.flatMap fun p => p.body.filter Symbol.isTerminal)

def render (grammar : Grammar) : String :=
  String.intercalate "\n" (grammar.productions.map Production.render)

end Grammar

end Earley
