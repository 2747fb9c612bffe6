import Earley.Proofs.Recognition.Contents

/-!
# More productions, more items

The steps that justify an item in a grammar can be taken in every grammar with the same productions
and more.  So the columns of a word grow with the set of productions, and the order in which a
grammar received them, which decides the order in which a pass meets its items, changes no column
as a set.
-/

set_option autoImplicit false

namespace Earley

variable {smaller larger : Grammar} {word : List Char} {start : String} {i : Nat} {item : Item}

theorem Grammar.nullable_mono (subset : ∀ p ∈ smaller.productions, p ∈ larger.productions)
    {s : Symbol} (nullable : s ∈ smaller.nullable) : s ∈ larger.nullable := by
  obtain ⟨name, rfl⟩ := nonterminal_of_mem_nullable nullable
  rw [nullable_eq, nonterminal_mem_nullableSymbols_iff] at nullable ⊢
  exact nullable.mono subset

theorem Grammar.Unreserved.mono (subset : ∀ p ∈ smaller.productions, p ∈ larger.productions)
    (unreserved : larger.Unreserved) : smaller.Unreserved :=
  fun p member => unreserved p (subset p member)

theorem Justified.mono (subset : ∀ p ∈ smaller.productions, p ∈ larger.productions)
    (justified : Justified smaller word start i item) : Justified larger word start i item := by
  induction justified with
  | seed => exact .seed
  | predicted _ member waits ih => exact .predicted ih (subset _ member) waits
  | skipped _ nullable waits ih => exact .skipped ih (Grammar.nullable_mono subset nullable) waits
  | scanned _ read waits ih => exact .scanned ih read waits
  | completed _ _ complete origin waits ih inner_ih =>
    exact .completed ih inner_ih complete origin waits

namespace Recognition

theorem itemsAt_build_mono (unreserved : larger.Unreserved)
    (subset : ∀ p ∈ smaller.productions, p ∈ larger.productions) {word : String}
    (member : item ∈ (build smaller word start).chart.itemsAt i) :
    item ∈ (build larger word start).chart.itemsAt i := by
  rw [mem_itemsAt_build (unreserved.mono subset)] at member
  rw [mem_itemsAt_build unreserved]
  exact member.mono subset

theorem accepted_mono (unreserved : larger.Unreserved)
    (subset : ∀ p ∈ smaller.productions, p ∈ larger.productions) {word : String}
    (accepted : (recognize smaller word start).accepted = true) :
    (recognize larger word start).accepted = true := by
  rw [accepted_recognize, accepted_build_iff_mem] at accepted ⊢
  exact itemsAt_build_mono unreserved subset accepted

/-- If a grammar has the productions of another one and more, its nullable set and every column of a
word have what those of the other grammar have and more, and it accepts what the other one accepts.
If the two have the same productions, in any two orders, then every column has the same items, and
the verdicts are the same. -/
theorem build_mono (smaller larger : Grammar) (unreserved : larger.Unreserved)
    (subset : ∀ p ∈ smaller.productions, p ∈ larger.productions) :
    (∀ s ∈ smaller.nullable, s ∈ larger.nullable) ∧
    ∀ word start, (build smaller word start).fault = none ∧
      (build larger word start).fault = none ∧
      (∀ i ≤ word.toList.length, ∃ fewer more,
        (build smaller word start).chart.columns[i]? = some fewer ∧
        (build larger word start).chart.columns[i]? = some more ∧
        (∀ item ∈ fewer.items, item ∈ more.items) ∧
        ((∀ p ∈ larger.productions, p ∈ smaller.productions) →
          ∀ item, item ∈ fewer.items ↔ item ∈ more.items)) ∧
      ((recognize smaller word start).accepted = true →
        (recognize larger word start).accepted = true) ∧
      ((∀ p ∈ larger.productions, p ∈ smaller.productions) →
        (recognize smaller word start).accepted = (recognize larger word start).accepted) := by
  have unreservedSmaller := unreserved.mono subset
  refine ⟨fun s => Grammar.nullable_mono subset, fun word start => ?_⟩
  refine ⟨(underway_build smaller word start).faultless,
    (underway_build larger word start).faultless, ?_, accepted_mono unreserved subset, ?_⟩
  · intro i inside
    obtain ⟨fewer, foundFewer, itemsFewer⟩ := column_build smaller start inside
    obtain ⟨more, foundMore, itemsMore⟩ := column_build larger start inside
    refine ⟨fewer, more, foundFewer, foundMore, ?_⟩
    rw [← itemsFewer, ← itemsMore]
    refine ⟨fun item => itemsAt_build_mono unreserved subset, fun superset item => ?_⟩
    exact ⟨itemsAt_build_mono unreserved subset, itemsAt_build_mono unreservedSmaller superset⟩
  · intro superset
    rw [Bool.eq_iff_iff]
    exact ⟨accepted_mono unreserved subset, accepted_mono unreservedSmaller superset⟩

end Recognition

def Grammar.bracketsReordered : Grammar :=
  (empty.append .nothing (by decide) Production.head_nothing).append .nesting (by decide)
    Production.head_nesting

namespace Recognition

theorem build_mono_brackets_reordered :
    Grammar.brackets.Unreserved ∧
      (∀ p ∈ Grammar.bracketsReordered.productions, p ∈ Grammar.brackets.productions) ∧
      (recognize .bracketsReordered "aabb" "S").accepted =
        (recognize .brackets "aabb" "S").accepted := by
  have subset : ∀ p ∈ Grammar.bracketsReordered.productions,
      p ∈ Grammar.brackets.productions := by decide
  have superset : ∀ p ∈ Grammar.brackets.productions,
      p ∈ Grammar.bracketsReordered.productions := by decide
  have mono := build_mono .bracketsReordered .brackets Grammar.unreserved_brackets subset
  obtain ⟨_, _, _, _, verdicts⟩ := mono.2 "aabb" "S"
  exact ⟨Grammar.unreserved_brackets, subset, verdicts superset⟩

end Recognition

end Earley
