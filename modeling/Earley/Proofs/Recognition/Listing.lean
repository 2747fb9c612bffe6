import Earley.Proofs.Chart.Listing
import Earley.Proofs.Recognition.WellFormed

/-!
# Charts are told by their listings

The chart of a word over a grammar that was loaded from text has legible items only, if the start
is an uppercase letter.  So its listing tells its items, and so does its table together with the
number of columns.
-/

set_option autoImplicit false

namespace Earley

variable {grammar other : Grammar} {start : String} {i : Nat} {item : Item} {c d : Char}

def Grammar.Loaded (grammar : Grammar) : Prop :=
  (∃ lines, ofLines lines = .ok grammar) ∨ ∃ text separator, ofText text separator = .ok grammar

theorem Grammar.Loaded.written (loaded : grammar.Loaded) : grammar.Written := by
  rcases loaded with ⟨lines, loaded⟩ | ⟨text, separator, loaded⟩
  · exact written_ofLines loaded
  · exact written_ofLines loaded

theorem Symbol.legible_of_isUpper (upper : c.isUpper = true) :
    Symbol.Legible (.nonterminal (String.singleton c)) := by
  have other : c ≠ emptyMark := by
    rintro rfl
    cases upper
  exact ⟨c, by rw [ofChar, if_neg other, if_pos upper]⟩

theorem Item.WellPlaced.legible (written : grammar.Written) (upper : c.isUpper = true)
    (placed : item.WellPlaced grammar (String.singleton c) i) : item.Legible := by
  have inside := placed.dotInside
  have later := placed.origin_nonneg
  rcases Grammar.mem_augmentedProductions.mp placed.production with augmented | own
  · refine ⟨.inl ?_, ?_, inside, later⟩
    · rw [lhs, augmented]
      rfl
    · rw [body, augmented]
      exact List.forall_mem_singleton.mpr (Symbol.legible_of_isUpper upper)
  · obtain ⟨_, _, read⟩ := written _ own
    obtain ⟨head, symbols⟩ := Production.legible_of_ofText read
    exact ⟨.inr head, symbols, inside, later⟩

theorem Chart.WellFormed.legible {chart : Chart} (written : grammar.Written)
    (upper : c.isUpper = true) (formed : chart.WellFormed grammar (String.singleton c)) :
    chart.Legible := by
  intro items listed item member
  rw [← map_items_numbered] at listed
  obtain ⟨entry, numbered, rfl⟩ := List.mem_map.mp listed
  exact (formed.placed numbered member).2.legible written upper

namespace Recognition

/-- The chart of a word over a loaded grammar, from a start that is an uppercase letter, can be
listed and put into a table.  If another such chart has the same listing, then it has as many
columns, with the same items in the same order.  If it has as many columns and the same table, then
it has the same items, too. -/
theorem build_told_by_listing (loaded : grammar.Loaded) (alike : other.Loaded)
    (upper : c.isUpper = true) (capital : d.isUpper = true) (word more : String) :
    let chart := (build grammar word (String.singleton c)).chart
    let second := (build other more (String.singleton d)).chart
    (∃ text, chart.render = .ok text) ∧ (∃ rows, chart.rows = .ok rows) ∧
    (chart.render = second.render →
      chart.columns.size = second.columns.size ∧ chart.contents = second.contents) ∧
    (chart.columns.size = second.columns.size → chart.rows = second.rows →
      chart.contents = second.contents) := by
  intro chart second
  have formed := wellFormed_build grammar word (String.singleton c)
  have legible : chart.Legible := formed.legible loaded.written upper
  have fine : second.Legible :=
    (wellFormed_build other more (String.singleton d)).legible alike.written capital
  have some_column : 0 < chart.columns.size :=
    Nat.lt_of_lt_of_eq (Nat.succ_pos _) (underway_build grammar word _).sound.size.symm
  have some_other : 0 < second.columns.size :=
    Nat.lt_of_lt_of_eq (Nat.succ_pos _) (underway_build other more _).sound.size.symm
  refine ⟨⟨_, Chart.render_eq formed.dotInside⟩, ⟨_, Chart.rows_eq formed.dotInside⟩, ?_,
    legible.contents_eq_of_rows fine⟩
  intro same
  have contents := legible.contents_eq_of_render fine some_column some_other same
  refine ⟨?_, contents⟩
  rw [← Chart.length_contents, contents, Chart.length_contents]

/-- Two grammars and two words whose charts have the same listing and the same table. -/
theorem build_told_by_listing_of_letter : ∃ grammar other : Grammar,
    grammar.Loaded ∧ other.Loaded ∧ 'S'.isUpper = true ∧
    (build grammar "x" (String.singleton 'S')).chart.render =
      (build other "y" (String.singleton 'S')).chart.render ∧
    (build grammar "x" (String.singleton 'S')).chart.rows =
      (build other "y" (String.singleton 'S')).chart.rows ∧
    (build grammar "x" (String.singleton 'S')).chart.contents =
      (build other "y" (String.singleton 'S')).chart.contents := by
  let listing := "------ State set 0 ------\nS' → • S, 0\nS → • a, 0\n------ State set 1 ------"
  let table : List Row := [⟨0, "S'", "• S", 0, 0⟩, ⟨0, "S", "• a", 0, 0⟩]
  have first : Succeeds (Grammar.ofLines ["S->a"]) fun grammar =>
      (build grammar "x" (String.singleton 'S')).chart.render = .ok listing ∧
      (build grammar "x" (String.singleton 'S')).chart.rows = .ok table := by decide +kernel
  have second : Succeeds (Grammar.ofText "S->a;B->b" (some ";")) fun grammar =>
      (build grammar "y" (String.singleton 'S')).chart.render = .ok listing ∧
      (build grammar "y" (String.singleton 'S')).chart.rows = .ok table := by decide +kernel
  obtain ⟨grammar, lines, listed, rows⟩ := first
  obtain ⟨other, text, same, cells⟩ := second
  have loaded : grammar.Loaded := .inl ⟨_, lines⟩
  have alike : other.Loaded := .inr ⟨_, _, text⟩
  have upper : 'S'.isUpper = true := by decide
  obtain ⟨_, _, told, tabled⟩ := build_told_by_listing loaded alike upper upper "x" "y"
  have equal := listed.trans same.symm
  have size := (told equal).1
  exact ⟨grammar, other, loaded, alike, upper, equal, rows.trans cells.symm,
    tabled size (rows.trans cells.symm)⟩

end Recognition

end Earley
