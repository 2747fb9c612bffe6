import Earley.Proofs.Grammar.Nullable

/-!
# Reachable nonterminals

A nonterminal is reachable from a start symbol if it is the start symbol or stands in a rule of a
reachable one.  What a reachable symbol yields depends on the rules of reachable symbols only, and
so does the question whether it is nullable.
-/

set_option autoImplicit false

namespace Earley

namespace Grammar

inductive Reachable (grammar : Grammar) (start : String) : Symbol → Prop
  | start : Reachable grammar start (.nonterminal start)
  | body {s : Symbol} {p : Production} {name : String} (before : Reachable grammar start s)
      (rule : p ∈ grammar.rulesFor s) (mentioned : .nonterminal name ∈ p.body) :
      Reachable grammar start (.nonterminal name)

/-- Two grammars have the same rules for a symbol and agree on whether it is nullable. -/
structure SameOn (grammar other : Grammar) (s : Symbol) : Prop where
  rules : grammar.rulesFor s = other.rulesFor s
  nullable : s ∈ grammar.nullable ↔ s ∈ other.nullable

/-- The same rules in the same order for every nonterminal that one of the grammars reaches. -/
def SameReachable (grammar other : Grammar) (start : String) : Prop :=
  ∀ s, grammar.Reachable start s → grammar.rulesFor s = other.rulesFor s

def AllReachable (grammar : Grammar) (start : String) (symbols : List Symbol) : Prop :=
  ∀ name, .nonterminal name ∈ symbols → grammar.Reachable start (.nonterminal name)

variable {grammar other : Grammar} {start : String} {s : Symbol} {symbols : List Symbol}
  {word : List Char}

theorem SameReachable.refl (grammar : Grammar) (start : String) :
    grammar.SameReachable grammar start := fun _ _ => rfl

theorem Reachable.of_same (same : grammar.SameReachable other start)
    (reachable : grammar.Reachable start s) : other.Reachable start s := by
  induction reachable with
  | start => exact .start
  | body before rule mentioned ih =>
    rw [same _ before] at rule
    exact .body ih rule mentioned

theorem SameReachable.symm (same : grammar.SameReachable other start) :
    other.SameReachable grammar start := by
  intro s reachable
  suffices back : grammar.Reachable start s from (same s back).symm
  induction reachable with
  | start => exact .start
  | body _ rule mentioned ih =>
    rw [← same _ ih] at rule
    exact .body ih rule mentioned

theorem Reachable.allReachable {p : Production} (reachable : grammar.Reachable start p.lhs)
    (member : p ∈ grammar.productions) : grammar.AllReachable start p.body :=
  fun _ mentioned => .body reachable (mem_rulesFor.mpr ⟨member, rfl⟩) mentioned

theorem AllReachable.tail (all : grammar.AllReachable start (s :: symbols)) :
    grammar.AllReachable start symbols :=
  fun name mentioned => all name (List.mem_cons_of_mem s mentioned)

/-- What reachable symbols yield, they yield in a grammar with the same rules for them. -/
theorem SameReachable.yields (same : grammar.SameReachable other start)
    (yields : Yields grammar.productions symbols word)
    (all : grammar.AllReachable start symbols) : Yields other.productions symbols word := by
  induction yields with
  | nil => exact .nil
  | epsilon name _ ih => exact .epsilon name (ih all.tail)
  | terminal c _ ih => exact .terminal c (ih all.tail)
  | @nonterminal p member _ _ _ _ _ inside behind =>
    have reachable : grammar.Reachable start p.lhs := all p.head List.mem_cons_self
    have rule : p ∈ grammar.rulesFor p.lhs := mem_rulesFor.mpr ⟨member, rfl⟩
    rw [same _ reachable] at rule
    have shared := (mem_rulesFor.mp rule).1
    exact .nonterminal shared (inside (reachable.allReachable member)) (behind all.tail)

theorem SameReachable.nullable (same : grammar.SameReachable other start)
    (reachable : grammar.Reachable start s) (nullable : s ∈ grammar.nullable) :
    s ∈ other.nullable := by
  obtain ⟨name, rfl⟩ := nonterminal_of_mem_nullable nullable
  rw [nullable_eq, nonterminal_mem_nullableSymbols_iff] at nullable ⊢
  apply same.yields nullable
  intro other mentioned
  rw [List.mem_singleton.mp mentioned]
  exact reachable

theorem SameReachable.sameOn (same : grammar.SameReachable other start)
    (reachable : grammar.Reachable start s) : grammar.SameOn other s where
  rules := same s reachable
  nullable := ⟨same.nullable reachable, same.symm.nullable (reachable.of_same same)⟩

/-- Rules of unreachable nonterminals may be added among the others, or dropped. -/
theorem sameReachable_of_sublist {smaller larger : Grammar}
    (sublist : smaller.productions.Sublist larger.productions)
    (unreachable : ∀ p ∈ larger.productions, p ∉ smaller.productions →
      ¬ smaller.Reachable start p.lhs) : smaller.SameReachable larger start := by
  intro s reachable
  rw [rulesFor, rulesFor, smaller.filed_byHead, larger.filed_byHead]
  apply (sublist.filter _).eq_of_length_le
  apply List.Nodup.length_le_of_subset (larger.nodup.filter _)
  intro p listed
  obtain ⟨member, head⟩ := List.mem_filter.mp listed
  have same : p.lhs = s := by simpa using head
  have kept : p ∈ smaller.productions := by
    by_cases present : p ∈ smaller.productions
    · exact present
    · exact absurd (same ▸ reachable) (unreachable p member present)
  exact List.mem_filter.mpr ⟨kept, head⟩

end Grammar

end Earley
