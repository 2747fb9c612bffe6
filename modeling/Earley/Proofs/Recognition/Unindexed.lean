import Earley.Chart.Unindexed
import Earley.Proofs.Recognition.Agreement

/-!
# The index of waiting items changes no chart

Asking the items of a column one by one whether they wait on a symbol takes in the same items, in
the same order, as looking the symbol up in the index, as long as every item of the column can be
read.  The items of a sound chart can.  So a pass and a run without the index go through the same
charts as those with it, turn by turn.
-/

set_option autoImplicit false

namespace Earley

variable {grammar : Grammar} {word : List Char} {start : String} {chart : Chart} {i k : Nat}
  {item : Item} {index : Int}

/-! ## One item after the other -/

namespace Chart

theorem addAll_cons (chart : Chart) (index : Int) (item : Item) (rest : List Item) :
    chart.addAll index (item :: rest) =
      match chart.addAll index [item] with
      | (grown, some fault) => (grown, some fault)
      | (grown, none) => grown.addAll index rest := by
  cases found : chart.place index with
  | error fault => simp [addAll, found]
  | ok place =>
    have inside := place_lt found
    have there := Array.getElem?_eq_getElem inside
    cases answered : (chart.columns[place].add item).answer with
    | error fault => simp [addAll, found, there, Column.addAll, answered]
    | ok new =>
      cases rest with
      | nil => simp [addAll, found, there, Column.addAll, answered]
      | cons next rest =>
        have grown : (chart.columns.setIfInBounds place
            (chart.columns[place].add item).column)[place]? =
              some (chart.columns[place].add item).column :=
          Array.getElem?_setIfInBounds_self_of_lt inside
        have placed : Chart.place ⟨chart.start, chart.columns.setIfInBounds place
            (chart.columns[place].add item).column⟩ index = .ok place := by
          simpa only [Chart.place, Array.size_setIfInBounds] using found
        simp [addAll, found, there, Column.addAll, answered, placed, grown]

end Chart

namespace Unindexed

/-- Going over readable items takes in the advances of those that wait on the symbol. -/
theorem each_advance {s : Symbol} {items : List Item} (readable : ∀ item ∈ items, item.Readable)
    (chart : Chart) : each (advance s index) items chart =
      .ofAddition (chart.addAll index ((items.filter (·.waitsOn s)).map Item.moved)) := by
  induction items generalizing chart with
  | nil => rfl
  | cons item rest ih =>
    have later := ih fun other member => readable other (List.mem_cons_of_mem item member)
    obtain ⟨next, read⟩ := readable item List.mem_cons_self
    by_cases waits : next = some s
    · have listed : item.waitsOn s = true := Item.waitsOn_iff.mpr (waits ▸ read)
      rw [List.filter_cons, if_pos listed, List.map_cons, Chart.addAll_cons]
      simp only [each, advance, read, if_pos waits, Outcome.ofAddition]
      cases chart.addAll index [item.moved] with
      | mk grown fault =>
        cases fault with
        | some fault => rfl
        | none => exact later grown
    · have passed : ¬ item.waitsOn s = true := by
        rw [Item.waitsOn_iff, read, Except.ok.injEq]
        exact waits
      rw [List.filter_cons, if_neg passed]
      simp only [each, advance, read, if_neg waits]
      exact later chart

theorem each_eq_waitingOn {column : Column} (readable : ∀ item ∈ column.items, item.Readable)
    (s : Symbol) (chart : Chart) : each (advance s index) column.items chart =
      .ofAddition (chart.addAll index ((column.waitingOn s).map Item.moved)) := by
  rw [each_advance readable, Column.waitingOn, column.filed_waiting]

end Unindexed

/-! ## Two passes -/

namespace Chart.Sound

variable (sound : chart.Sound grammar word start)

include sound

theorem readable_of_column {column : Column} (items : chart.itemsAt k = column.items) :
    ∀ item ∈ column.items, item.Readable := by
  intro item member
  rw [← items] at member
  exact (sound.justified k item member).wellPlaced.readable

theorem complete_unindexed (member : item ∈ chart.itemsAt i) :
    Unindexed.complete chart item index = chart.complete item index := by
  obtain ⟨k, _, _, column, found, items⟩ := sound.origin_column member
  simp only [Unindexed.complete, Chart.complete, found]
  exact Unindexed.each_eq_waitingOn (sound.readable_of_column items) item.lhs chart

theorem visit_unindexed (member : item ∈ chart.itemsAt i) :
    Unindexed.visit chart grammar item index = chart.visit grammar item index := by
  cases complete : item.isComplete with
  | true =>
    rw [visit_of_isComplete complete, Unindexed.visit, if_pos complete]
    exact sound.complete_unindexed member
  | false => simp only [Unindexed.visit, complete, Bool.false_eq_true, if_false]

theorem closeFrom_unindexed (fuel visited : Nat) (read : Bool) :
    Unindexed.closeFrom grammar i i fuel visited chart =
      ⟨(Chart.closeFrom grammar.withNullable i i fuel visited read chart).chart, false, none⟩ := by
  induction fuel generalizing visited read chart with
  | zero => rfl
  | succ fuel ih =>
    cases turn : (chart.itemsAt i)[visited]? with
    | none =>
      rw [closeFrom_of_length_le (List.getElem?_eq_none_iff.mp turn)]
      simp only [Unindexed.closeFrom, itemsAt_getElem?, turn]
    | some item =>
      have member := List.mem_of_getElem? turn
      have faultless := sound.visit_faultless member
      have further := ih (sound.after_visit member) (visited + 1)
        (read || (chart.visit grammar item i).consulted)
      rw [closeFrom_of_turn turn faultless, ← further]
      simp only [Unindexed.closeFrom, itemsAt_getElem?, turn, sound.visit_unindexed member]
      cases outcome : chart.visit grammar item i with
      | mk after consulted fault =>
        rw [outcome] at faultless
        cases faultless
        rfl

theorem close_unindexed (inside : i ≤ word.length) :
    Unindexed.close chart grammar i = ⟨(chart.close grammar i).chart, false, none⟩ := by
  simp only [Unindexed.close, Chart.close, sound.place_natCast inside]
  exact sound.closeFrom_unindexed _ 0 false

theorem scanColumn_unindexed (inside : i ≤ word.length) (character : String) :
    Unindexed.scanColumn chart i character = chart.scanColumn i character := by
  have size := sound.size
  obtain ⟨column, _, found, items⟩ := exists_column (show i < chart.columns.size by omega)
  simp only [Unindexed.scanColumn, Chart.scanColumn, found]
  split
  · rfl
  · exact Unindexed.each_eq_waitingOn (sound.readable_of_column items) (.terminal character) chart

end Chart.Sound

/-! ## Two runs -/

namespace Recognition

theorem readFrom_unindexed {r : Recognition} {rest : List Char}
    (underway : Underway grammar word start r) (behind : word.drop i = rest)
    (inside : i ≤ word.length) :
    Unindexed.readFrom grammar i rest r.chart = ⟨(readFrom i rest r).chart, false, none⟩ := by
  induction rest generalizing i r with
  | nil =>
    have closed := underway.close inside
    have last := closed.sound.scanColumn_unindexed inside endMark
    rw [underway.chart_close] at last
    simp only [Unindexed.readFrom, readFrom, underway.sound.close_unindexed inside, last]
    rw [Chart.scanColumn_endMark, (closed.scanColumn_endMark i).2, underway.chart_close]
  | cons c rest ih =>
    obtain ⟨next, shorter⟩ := of_drop_eq_cons behind
    have closed := underway.close inside
    have scanned := closed.scanColumn next
    have step := closed.sound.scanColumn_unindexed inside (String.singleton c)
    have faultless := (closed.sound.scanColumn_takes next).1
    have further := ih scanned shorter (List.getElem?_eq_some_iff.mp next).1
    rw [closed.chart_scanColumn] at further
    rw [underway.chart_close] at step faultless further
    simp only [Unindexed.readFrom, readFrom, underway.sound.close_unindexed inside, step]
    cases outcome : (r.chart.close grammar i).chart.scanColumn i (String.singleton c) with
    | mk after consulted fault =>
      rw [outcome] at faultless further
      cases faultless
      exact further

/-- With and without the index of waiting items the chart of a word is made without a fault, and it
is the same chart. -/
theorem unindexed_build_eq (grammar : Grammar) (word start : String) :
    (build grammar word start).fault = none ∧
      (Unindexed.build grammar word start).fault = none ∧
      (Unindexed.build grammar word start).chart = (build grammar word start).chart := by
  have started := underway_start grammar word.toList start
  have same : Unindexed.build grammar word start =
      ⟨(build grammar word start).chart, false, none⟩ :=
    readFrom_unindexed started List.drop_zero (Nat.zero_le _)
  rw [same]
  exact ⟨(underway_build grammar word start).faultless, rfl, rfl⟩

end Recognition

end Earley
