import Earley.Proofs.Chart.Viable
import Earley.Proofs.Recognition.Saturation

/-!
# The contents of a chart

A chart whose columns are saturated and scanned has lost nothing: a justified item is in its
column, by induction on the steps that lead to it.  So the column of a place has exactly the items
that are justified there, and these are the items that the derivations of the grammar ask for.
-/

set_option autoImplicit false

namespace Earley

variable {grammar : Grammar} {word : List Char} {start : String} {chart : Chart} {i : Nat}
  {item : Item}

theorem Justified.column_le (justified : Justified grammar word start i item) :
    i ≤ word.length :=
  justified.spans.column_le

theorem Chart.Sound.mem_of_justified (sound : chart.Sound grammar word start)
    (read : chart.ReadUpTo grammar word (word.length + 1))
    (justified : Justified grammar word start i item) : item ∈ chart.itemsAt i := by
  induction justified with
  | seed => exact sound.seeded
  | @predicted i item p before member waits ih =>
    have saturated := read.saturated i (Nat.lt_succ_of_le before.column_le)
    exact saturated item ih _ (.predicted member waits)
  | @skipped i item s before nullable waits ih =>
    have saturated := read.saturated i (Nat.lt_succ_of_le before.column_le)
    exact saturated item ih _ (.skipped nullable waits)
  | @scanned i item c before next waits ih =>
    exact read.scanned i (Nat.lt_succ_of_le before.column_le) c next item ih waits
  | @completed i k inner waiting before inside complete origin waits ih inner_ih =>
    have saturated := read.saturated i (Nat.lt_succ_of_le inside.column_le)
    obtain ⟨m, _, began, column, there, items⟩ := sound.origin_column inner_ih
    have same : m = k := by omega
    subst same
    rw [items] at ih
    exact saturated inner inner_ih _ (.completed complete there ih waits)

namespace Recognition

/-- The column of a place has exactly the items that are justified there. -/
theorem mem_itemsAt_build (unreserved : grammar.Unreserved) (word start : String) :
    item ∈ (build grammar word start).chart.itemsAt i ↔
      Justified grammar word.toList start i item := by
  have sound := (underway_build grammar word start).sound
  constructor
  · intro member
    exact sound.justified i item member
  · intro justified
    exact sound.mem_of_justified (readUpTo_build grammar unreserved word start) justified

theorem column_build (grammar : Grammar) {word : String} (start : String)
    (inside : i ≤ word.toList.length) :
    ∃ column, (build grammar word start).chart.columns[i]? = some column ∧
      (build grammar word start).chart.itemsAt i = column.items := by
  have size := (underway_build grammar word start).sound.size
  have here := Nat.lt_of_lt_of_eq (Nat.lt_succ_of_le inside) size.symm
  obtain ⟨column, there, _, items⟩ := Chart.exists_column here
  exact ⟨column, there, items⟩

/-- The chart of a word is made without a fault, and the column of a place has the item of a
production with the dot behind some symbols of its body and with origin `j` exactly when `j` is a
place up to there, the head of the production can stand behind the characters before `j`, and the
symbols before the dot derive the characters from `j` on.  Only over an epsilon the dot never
moves. -/
theorem contents_build (grammar : Grammar) (unreserved : grammar.Unreserved) (word start : String)
    {i : Nat} (inside : i ≤ word.toList.length) :
    (build grammar word start).fault = none ∧
      ∃ column, (build grammar word start).chart.columns[i]? = some column ∧
        (∀ item ∈ column.items, item.production ∈ grammar.augmentedProductions start ∧
          0 ≤ item.dot ∧ item.dot ≤ item.body.length) ∧
        ∀ p ∈ grammar.augmentedProductions start, ∀ before after, p.body = before ++ after →
          ∀ j : Int, (⟨j, before.length, p⟩ : Item) ∈ column.items ↔
            (p.isEmpty = true → before = []) ∧ ∃ k : Nat, j = k ∧ k ≤ i ∧
              grammar.Viable start (slice word.toList 0 k) p.lhs ∧
              Derives (grammar.augmentedProductions start) before
                (Symbol.spelling (slice word.toList k i)) := by
  have underway := underway_build grammar word start
  obtain ⟨column, found, items⟩ := column_build grammar start inside
  refine ⟨underway.faultless, column, found, ?_, ?_⟩
  · intro item member
    rw [← items] at member
    have placed := (underway.sound.justified i item member).wellPlaced
    exact ⟨placed.production, placed.dot_nonneg, placed.dot_le⟩
  · intro p member before after split j
    rw [← items, mem_itemsAt_build unreserved]
    exact justified_iff unreserved inside member split j

theorem contents_build_brackets :
    Grammar.brackets.Unreserved ∧ 1 ≤ "ab".toList.length ∧
      ∃ column, (build .brackets "ab" "S").chart.columns[1]? = some column ∧
        ∀ j : Int, (⟨j, 1, .nesting⟩ : Item) ∈ column.items ↔
          ∃ k : Nat, j = k ∧ k ≤ 1 ∧
            Grammar.brackets.Viable "S" (slice "ab".toList 0 k) (.nonterminal "S") ∧
            Derives (Grammar.brackets.augmentedProductions "S") [.terminal "a"]
              (Symbol.spelling (slice "ab".toList k 1)) := by
  have inside : 1 ≤ "ab".toList.length := by decide
  have rule : Production.nesting ∈ Grammar.brackets.augmentedProductions "S" := by decide
  obtain ⟨_, column, found, _, contents⟩ :=
    contents_build .brackets Grammar.unreserved_brackets "ab" "S" inside
  refine ⟨Grammar.unreserved_brackets, inside, column, found, fun j => ?_⟩
  have item := contents .nesting rule [.terminal "a"]
    [.nonterminal "S", .terminal "b", .nonterminal "S"] rfl j
  have solid : Production.nesting.isEmpty = true → [Symbol.terminal "a"] = [] := by decide
  exact item.trans (and_iff_right solid)

end Recognition

end Earley
