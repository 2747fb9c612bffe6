import Earley.Proofs.Chart.Links
import Earley.Proofs.Recognition.Contents
import Earley.Proofs.Recognition.Reserved

/-!
# The chart of a word is well formed

A symbol before a dot was crossed by the last step of the item.  A skip and a completion cross a
nonterminal, so a terminal before a dot was scanned: it is the character just before the column.
Nothing is asked of the grammar, and the reserved nonterminal may stand in its bodies.
-/

set_option autoImplicit false

namespace Earley

variable {grammar : Grammar} {word : List Char} {start : String} {i d : Nat} {item : Item}

/-- The symbol that a moved item has crossed is the one that it waited on before. -/
theorem Item.WellPlaced.crossed (placed : item.WellPlaced grammar start i) {s t : Symbol}
    (waits : item.waitsOn s = true) (dot : item.moved.dot = d + 1)
    (before : item.moved.body[d]? = some t) : t = s := by
  have found := placed.getElem?_of_waitsOn waits
  have place : item.dot.toNat = d := by
    rw [Item.dot_moved] at dot
    omega
  rw [place] at found
  exact Option.some.inj (before.symm.trans found)

/-- A terminal before a dot is the character before the column. -/
theorem Justified.read_before_dot (justified : Justified grammar word start i item)
    (dot : item.dot = d + 1) {name : String} (before : item.body[d]? = some (.terminal name)) :
    ∃ k c, i = k + 1 ∧ word[k]? = some c ∧ name = String.singleton c := by
  cases justified with
  | seed =>
    have front : (Chart.seed start).dot = 0 := rfl
    omega
  | predicted =>
    rw [Item.dot_fresh] at dot
    omega
  | skipped earlier nullable waits =>
    obtain ⟨other, rfl⟩ := Grammar.nonterminal_of_mem_nullable nullable
    cases earlier.wellPlaced.crossed waits dot before
  | @scanned k item c earlier read waits =>
    have crossed := earlier.wellPlaced.crossed waits dot before
    exact ⟨k, c, rfl, read, Symbol.terminal.inj crossed⟩
  | completed earlier inside complete origin waits =>
    cases earlier.wellPlaced.crossed waits dot before

theorem Chart.Sound.wellFormed {chart : Chart} (sound : chart.Sound grammar word start) :
    chart.WellFormed grammar start :=
  fun i item member => (sound.justified i item member).wellPlaced

namespace Recognition

theorem wellFormed_build (grammar : Grammar) (word start : String) :
    (build grammar word start).chart.WellFormed grammar start :=
  (underway_build grammar word start).sound.wellFormed

/-- The chart of a word is made without a fault, and every item in it is well placed.  The
production of the start is begun in the first column only, and a terminal before a dot is the
character before the column.  So the chart can be listed, put into a table, turned into a graph
whose edges all come from its own nodes, and drawn. -/
theorem build_wellPlaced (grammar : Grammar) (word start : String) :
    (build grammar word start).fault = none ∧
    (build grammar word start).chart.columns.size = word.toList.length + 1 ∧
    (∀ (i : Nat) (column : Column), (build grammar word start).chart.columns[i]? = some column →
      ∀ item ∈ column.items, item.WellPlaced grammar start i ∧
        (item.production.head = augmentedHead →
          item.production = .augmented start ∧ item.origin = 0) ∧
        ∀ (d : Nat) (name : String), item.dot = d + 1 → item.body[d]? = some (.terminal name) →
          ∃ k c, i = k + 1 ∧ word.toList[k]? = some c ∧ name = String.singleton c) ∧
    (∃ text, (build grammar word start).chart.render = .ok text) ∧
    (∃ rows, (build grammar word start).chart.rows = .ok rows) ∧
    (∃ graph, (build grammar word start).chart.graph = .ok graph ∧ graph.unplaced = []) ∧
    ∃ drawing, (build grammar word start).chart.drawing = .ok drawing := by
  have underway := underway_build grammar word start
  have formed := wellFormed_build grammar word start
  obtain ⟨text, listed, _⟩ := formed.succeeds_render
  obtain ⟨rows, tabled, _⟩ := formed.succeeds_rows
  obtain ⟨graph, linked, sources⟩ := formed.succeeds_graph
  obtain ⟨drawing, drawn, _⟩ := formed.succeeds_drawing
  refine ⟨underway.faultless, underway.sound.size, ?_, ⟨text, listed⟩, ⟨rows, tabled⟩,
    ⟨graph, linked, Graph.unplaced_eq_nil sources⟩, drawing, drawn⟩
  intro i column found item member
  rw [← Chart.itemsAt_of_some found] at member
  have justified := underway.sound.justified i item member
  refine ⟨justified.wellPlaced, ?_, fun d name dot before => justified.read_before_dot dot before⟩
  intro reserved
  rcases Grammar.mem_augmentedProductions.mp justified.wellPlaced.production with same | own
  · exact ⟨same, justified.origin_of_augmented same⟩
  · exact absurd reserved (grammar.head_ne_augmented _ own)

theorem build_wellPlaced_leaking :
    ∃ column : Column, (build .leaking "ab" "S").chart.columns[2]? = some column ∧
      (⟨0, 2, .leaking⟩ : Item) ∈ column.items ∧
      ((2 : Int) = (1 : Nat) + 1 ∧ Production.leaking.body[1]? = some (.terminal "b") ∧
        ∃ k c, 2 = k + 1 ∧ "ab".toList[k]? = some c ∧ "b" = String.singleton c) := by
  have dot : (2 : Int) = (1 : Nat) + 1 := by decide
  have before : Production.leaking.body[1]? = some (.terminal "b") := by decide
  have crossed : (⟨0, 2, .leaking⟩ : Item) ∈ (build .leaking "ab" "S").chart.itemsAt 2 := by decide
  have inside : 2 ≤ "ab".toList.length := by decide
  obtain ⟨column, found, items⟩ := column_build .leaking "S" inside
  rw [items] at crossed
  have placed := (build_wellPlaced .leaking "ab" "S").2.2.1 2 column found _ crossed
  exact ⟨column, found, crossed, dot, before, placed.2.2 1 "b" dot before⟩

end Recognition

end Earley
