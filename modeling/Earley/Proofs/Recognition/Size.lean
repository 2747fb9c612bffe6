import Earley.Proofs.Chart.Ending
import Earley.Proofs.Plain.Columns

/-!
# How large a chart gets

The columns of a word have room for two items of the augmented production, which is begun once, and
for an item of each production of the grammar with each place of its dot and each origin up to the
column.  No item is there twice.
-/

set_option autoImplicit false

namespace Earley

variable {grammar : Grammar} {word : List Char} {start : String} {i : Nat} {item : Item}

theorem Justified.eq_of_augmented (justified : Justified grammar word start i item)
    (augmented : item.production = .augmented start) :
    item = Chart.seed start ∨ item = (Chart.seed start).moved := by
  have placed := justified.wellPlaced
  have began := justified.origin_of_augmented augmented
  have front := placed.dot_nonneg
  have last := placed.dot_le
  have length : item.body.length = 1 := by
    rw [Item.body, augmented]
    rfl
  obtain ⟨origin, dot, production⟩ := item
  dsimp only at began augmented front last
  subst began augmented
  rcases show dot = 0 ∨ dot = 1 by omega with rfl | rfl
  · exact .inl rfl
  · exact .inr rfl

namespace Recognition

theorem length_itemsAt_build_le (grammar : Grammar) (word start : String) (i : Nat) :
    ((build grammar word start).chart.itemsAt i).length ≤
      2 + (i + 1) * Chart.dotPlaces grammar.productions := by
  have sound := (underway_build grammar word start).sound
  have subset : (build grammar word start).chart.itemsAt i ⊆
      [Chart.seed start, (Chart.seed start).moved] ++
        grammar.productions.flatMap (Plain.placements i) := by
    intro item member
    have justified := sound.justified i item member
    rcases Grammar.mem_augmentedProductions.mp justified.wellPlaced.production with same | rule
    · apply List.mem_append_left
      rcases justified.eq_of_augmented same with rfl | rfl
      · exact List.mem_cons_self
      · exact List.mem_cons_of_mem _ List.mem_cons_self
    · apply List.mem_append_right
      exact List.mem_flatMap.mpr ⟨_, rule, Plain.mem_placements justified.wellPlaced⟩
  have room := (Chart.nodup_itemsAt _ i).length_le_of_subset subset
  rw [List.length_append, Plain.length_flatMap_placements] at room
  exact room

/-- Closing a column ends, for any chart, grammar and index.  Either the index means no column, and
nothing is visited; or closing is how the pass ends that goes on as long as the column has an item
left, and no more items are visited than the bound says.  And the column of a place in a word has at
most two items more than there are places of dots, times the columns up to it. -/
theorem close_ends_and_build_bounded :
    (∀ (chart : Chart) (grammar : Grammar) (index : Int),
      (∃ fault, chart.place index = .error fault ∧
        chart.close grammar index = ⟨⟨chart, false, some fault⟩, 0⟩) ∨
      ∃ place, chart.place index = .ok place ∧
        (∀ closing, Chart.Passes grammar index place 0 false chart closing ↔
          closing = chart.close grammar index) ∧
        (chart.close grammar index).visited ≤ chart.itemBound grammar) ∧
    ∀ (grammar : Grammar) (word start : String) (i : Nat),
      ((build grammar word start).chart.itemsAt i).length ≤
        2 + (i + 1) * Chart.dotPlaces grammar.productions := by
  refine ⟨fun chart grammar index => ?_, length_itemsAt_build_le⟩
  cases found : chart.place index with
  | error fault => exact .inl ⟨fault, rfl, by simp only [Chart.close, found]⟩
  | ok place =>
    exact .inr ⟨place, rfl, Chart.passes_iff_eq_close found, Chart.visited_close_le chart grammar index⟩

end Recognition

end Earley
