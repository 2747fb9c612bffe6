import Earley.Proofs.Recognition.Agreement
import Earley.Proofs.Recognition.Contents

/-!
# A column depends on what was read before it

The columns of a text are columns of every text that goes on from there.  So a word is accepted
after some of its characters exactly when the column at that place has the final item, and the
number of items that is reported when a column is closed is the number it keeps.
-/

set_option autoImplicit false

namespace Earley

def Event.closed? : Event → Option (Int × Nat)
  | columnClosed column items => some (column, items)
  | _ => none

def closures (events : List Event) : List (Int × Nat) :=
  events.filterMap Event.closed?

variable {grammar : Grammar} {word : List Char} {start : String} {i : Nat} {r : Recognition}

@[simp] theorem closures_nil : closures [] = [] := rfl

@[simp] theorem closures_append (events more : List Event) :
    closures (events ++ more) = closures events ++ closures more :=
  List.filterMap_append

@[simp] theorem closures_consult (grammar : Grammar) : closures grammar.consult.2 = [] := by
  unfold Grammar.consult
  cases grammar.known <;> rfl

theorem Chart.numbered_eq (chart : Chart) :
    chart.numbered.map (fun (number, column) => ((number : Int), column.items.length)) =
      (List.range chart.columns.size).map fun k : Nat => ((k : Int), (chart.itemsAt k).length) := by
  apply List.ext_getElem
  · simp [numbered]
  · intro k inside _
    have there : k < chart.columns.size := by simpa [numbered] using inside
    simp [numbered, itemsAt, there]

namespace Recognition

theorem closures_follow (r : Recognition) {outcome : Outcome} (faultless : outcome.fault = none)
    (events : List Event) :
    closures (r.follow outcome events).log = closures r.log ++ closures events := by
  cases read : outcome.consulted <;> simp [follow, read, faultless]

theorem closures_close (underway : Underway grammar word start r) (inside : i ≤ word.length) :
    closures (r.close i).log =
      closures r.log ++ [((i : Int), ((r.close i).chart.itemsAt i).length)] := by
  obtain ⟨faultless, sound, _⟩ := underway.sound.close_keeps inside
  have here : i < (r.chart.close grammar i).chart.columns.size := by
    rw [sound.size]
    omega
  obtain ⟨column, _, found, items⟩ := Chart.exists_column here
  have reported : closures (closedEvents (r.chart.close grammar i).chart i) =
      [((i : Int), ((r.chart.close grammar i).chart.itemsAt i).length)] := by
    unfold closedEvents
    rw [found, items]
    rfl
  rw [underway.chart_close, ← reported]
  unfold Recognition.close
  rw [unlessFaulty_of_faultless underway.faultless, underway.close_eq]
  exact closures_follow r faultless _

theorem closures_scanColumn (underway : Underway grammar word start r) {c : Char}
    (next : word[i]? = some c) :
    closures (r.scanColumn i (String.singleton c)).log = closures r.log := by
  unfold Recognition.scanColumn
  rw [unlessFaulty_of_faultless underway.faultless,
    closures_follow r (underway.sound.scanColumn_takes next).1, closures_nil, List.append_nil]

theorem closures_scanColumn_endMark (underway : Underway grammar word start r) (index : Int) :
    closures (r.scanColumn index endMark).log = closures r.log := by
  unfold Recognition.scanColumn
  rw [unlessFaulty_of_faultless underway.faultless, Chart.scanColumn_endMark,
    closures_follow r rfl, closures_nil, List.append_nil]

theorem itemsAt_readFrom {rest : List Char} (underway : Underway grammar word start r)
    (behind : word.drop i = rest) (inside : i ≤ word.length) :
    (readFrom i rest r).chart.itemsAt i = (r.close i).chart.itemsAt i := by
  simp only [Chart.itemsAt, columns_readFrom underway behind inside (Nat.le_refl i)]

/-- The rest of a word reports its columns in order, each with the items it has in the end. -/
theorem closures_readFrom {rest : List Char} (underway : Underway grammar word start r)
    (behind : word.drop i = rest) (inside : i ≤ word.length) :
    closures (readFrom i rest r).log = closures r.log ++ (List.range' i (rest.length + 1)).map
      fun k : Nat => ((k : Int), ((readFrom i rest r).chart.itemsAt k).length) := by
  rw [List.range'_succ, List.map_cons, itemsAt_readFrom underway behind inside]
  induction rest generalizing i r with
  | nil =>
    unfold readFrom
    rw [closures_scanColumn_endMark (underway.close inside), closures_close underway inside]
    rfl
  | cons c rest ih =>
    obtain ⟨next, shorter⟩ := of_drop_eq_cons behind
    have later := (List.getElem?_eq_some_iff.mp next).1
    have scanned := (underway.close inside).scanColumn next
    have opened : readFrom i (c :: rest) r =
        readFrom (i + 1) rest ((r.close i).scanColumn i (String.singleton c)) := rfl
    rw [opened, ih scanned shorter later, closures_scanColumn (underway.close inside) next,
      closures_close underway inside, List.append_assoc, List.length_cons, List.range'_succ,
      List.map_cons, itemsAt_readFrom scanned shorter later]
    rfl

theorem closures_build (grammar : Grammar) (word start : String) :
    closures (build grammar word start).log = (build grammar word start).chart.numbered.map
      fun (number, column) => ((number : Int), column.items.length) := by
  have reported := closures_readFrom (underway_start grammar word.toList start) List.drop_zero
    (Nat.zero_le _)
  rw [Chart.numbered_eq, (underway_build grammar word start).sound.size, List.range_eq_range']
  exact reported

/-- A place has the final item when the word up to there is accepted. -/
theorem finalItem_mem_iff (grammar : Grammar) (word start : String)
    (inside : i ≤ word.toList.length) :
    (build grammar word start).chart.finalItem ∈ (build grammar word start).chart.itemsAt i ↔
      (build grammar (String.ofList (word.toList.take i)) start).accepted = true := by
  have whole : String.ofList (word.toList.take i) ++ String.ofList (word.toList.drop i) = word := by
    rw [← String.ofList_append, List.take_append_drop, String.ofList_toList]
  have length : (String.ofList (word.toList.take i)).toList.length = i := by
    rw [String.toList_ofList, List.length_take, Nat.min_eq_left inside]
  have agree := build_agree (.refl grammar start) (String.ofList (word.toList.take i))
    (String.ofList (word.toList.drop i))
  rw [whole, length] at agree
  rw [accepted_build_iff_mem, length, Chart.finalItem,
    (underway_build grammar word start).sound.started, agree.itemsAt (Nat.le_refl i)]

/-- Up to its end, a text has the same columns whatever is read behind it.  So in the chart of a
word the column of a place has the final item exactly when the characters before the place are
accepted as a word, and the columns are reported in order, each with the items that it has in the
end. -/
theorem columns_depend_on_prefix (grammar : Grammar) (start : String) :
    (∀ (text more : String) (i : Nat), i ≤ text.toList.length → ∃ column,
      (build grammar text start).chart.columns[i]? = some column ∧
        (build grammar (text ++ more) start).chart.columns[i]? = some column) ∧
    ∀ word : String, (build grammar word start).fault = none ∧
      (∀ i ≤ word.toList.length,
        ∃ column, (build grammar word start).chart.columns[i]? = some column ∧
          (recognize grammar (String.ofList (word.toList.take i)) start).fault = none ∧
          ((build grammar word start).chart.finalItem ∈ column.items ↔
            (recognize grammar (String.ofList (word.toList.take i)) start).accepted = true)) ∧
      closures (build grammar word start).log = (build grammar word start).chart.numbered.map
        fun (number, column) => ((number : Int), column.items.length) := by
  constructor
  · intro text more i inside
    obtain ⟨column, found, _⟩ := column_build grammar start inside
    have agree := build_agree (.refl grammar start) text more
    exact ⟨column, found, (agree.columns i inside).trans found⟩
  · intro word
    refine ⟨(underway_build grammar word start).faultless, ?_, closures_build grammar word start⟩
    intro i inside
    obtain ⟨column, found, items⟩ := column_build grammar start inside
    refine ⟨column, found, faultless_recognize grammar _ start, ?_⟩
    rw [← items, accepted_recognize]
    exact finalItem_mem_iff grammar word start inside

theorem columns_depend_on_prefix_brackets :
    1 ≤ "ab".toList.length ∧ 2 ≤ "abba".toList.length ∧
      (∃ column, (build .brackets "ab" "S").chart.columns[1]? = some column ∧
        (build .brackets ("ab" ++ "ba") "S").chart.columns[1]? = some column) ∧
      ∃ column, (build .brackets "abba" "S").chart.columns[2]? = some column ∧
        (build .brackets "abba" "S").chart.finalItem ∈ column.items := by
  have inside : 1 ≤ "ab".toList.length := by decide
  have insideToo : 2 ≤ "abba".toList.length := by decide
  have accepted : (recognize .brackets (String.ofList ("abba".toList.take 2)) "S").accepted =
      true := by decide
  obtain ⟨columns, words⟩ := columns_depend_on_prefix .brackets "S"
  obtain ⟨column, found, _, final⟩ := (words "abba").2.1 2 insideToo
  exact ⟨inside, insideToo, columns "ab" "ba" 1 inside, column, found, final.mpr accepted⟩

end Recognition

end Earley
