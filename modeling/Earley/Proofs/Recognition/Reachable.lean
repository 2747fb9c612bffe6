import Earley.Chart.Table
import Earley.Proofs.Recognition.Agreement

/-!
# A chart depends on the rules of reachable nonterminals

Grammars with the same rules for every nonterminal that the start symbol reaches make the same chart
of every word.  Rules of other heads may come and go, and the rules of different heads may be
interleaved in any way.
-/

set_option autoImplicit false

namespace Earley.Recognition

variable {grammar other : Grammar} {start : String}

theorem chart_build_of_reachable (same : grammar.SameReachable other start) (word : String) :
    (build grammar word start).chart = (build other word start).chart := by
  have agree := build_agree same word ""
  rw [String.append_empty] at agree
  exact agree.eq_of_size (underway_build grammar word start).sound.size
    (underway_build other word start).sound.size

/-- If two grammars have the same rules in the same order for every nonterminal that the start
symbol reaches, then they give every word the same chart, and so the same verdict, listing and
table.  Grammars are related so if one has the rules of the other, in order, and further rules of
unreachable heads among them. -/
theorem build_depends_on_reachable_rules (start : String) :
    (∀ grammar other : Grammar, grammar.SameReachable other start → ∀ word,
      (build grammar word start).fault = none ∧ (build other word start).fault = none ∧
      (build grammar word start).chart = (build other word start).chart ∧
      (recognize grammar word start).accepted = (recognize other word start).accepted ∧
      (build grammar word start).chart.render = (build other word start).chart.render ∧
      (build grammar word start).chart.rows = (build other word start).chart.rows) ∧
    ∀ smaller larger : Grammar, smaller.productions.Sublist larger.productions →
      (∀ p ∈ larger.productions, p ∉ smaller.productions → ¬ smaller.Reachable start p.lhs) →
      smaller.SameReachable larger start := by
  constructor
  · intro grammar other same word
    have chart := chart_build_of_reachable same word
    refine ⟨(underway_build grammar word start).faultless,
      (underway_build other word start).faultless, chart, ?_, by rw [chart], by rw [chart]⟩
    rw [accepted_recognize, accepted_recognize, accepted, accepted, chart]
  · intro smaller larger sublist unreachable
    exact Grammar.sameReachable_of_sublist sublist unreachable

end Earley.Recognition

namespace Earley

/-- A production that the brackets do not lead to.  It makes its head nullable. -/
def Production.stray : Production where
  head := "A"
  body := [.empty]
  body_ne_nil := Production.nothing.body_ne_nil
  epsilon_alone := Production.nothing.epsilon_alone

theorem Production.head_stray : Production.stray.head ≠ augmentedHead := by decide

namespace Grammar

def bracketsBesideStray : Grammar :=
  ((empty.append .nesting List.not_mem_nil Production.head_nesting).append .stray (by decide)
    Production.head_stray).append .nothing (by decide) Production.head_nothing

theorem eq_of_reachable_brackets {s : Symbol} (reachable : brackets.Reachable "S" s) :
    s = .nonterminal "S" := by
  have bodies : ∀ p ∈ brackets.productions, ∀ s ∈ p.body, s.isNonterminal = true →
      s = .nonterminal "S" := by decide
  cases reachable with
  | start => rfl
  | body _ rule mentioned => exact bodies _ (mem_rulesFor.mp rule).1 _ mentioned rfl

theorem unreachable_stray : ¬ brackets.Reachable "S" Production.stray.lhs := by
  intro reachable
  have other : Production.stray.lhs ≠ .nonterminal "S" := by decide
  exact other (eq_of_reachable_brackets reachable)

end Grammar

namespace Recognition

theorem build_depends_on_reachable_rules_stray :
    ¬ Grammar.brackets.Reachable "S" Production.stray.lhs ∧
      Grammar.brackets.SameReachable .bracketsBesideStray "S" ∧
      (build .brackets "ab" "S").chart = (build .bracketsBesideStray "ab" "S").chart := by
  obtain ⟨charts, sublists⟩ := build_depends_on_reachable_rules "S"
  have sublist : Grammar.brackets.productions.Sublist Grammar.bracketsBesideStray.productions :=
    .cons_cons _ (.cons _ (.refl _))
  have further : ∀ p ∈ Grammar.bracketsBesideStray.productions,
      p ∉ Grammar.brackets.productions → p = .stray := by decide
  have same := sublists .brackets .bracketsBesideStray sublist fun p member new =>
    further p member new ▸ Grammar.unreachable_stray
  obtain ⟨_, _, chart, _⟩ := charts .brackets .bracketsBesideStray same "ab"
  exact ⟨Grammar.unreachable_stray, same, chart⟩

end Recognition

end Earley
