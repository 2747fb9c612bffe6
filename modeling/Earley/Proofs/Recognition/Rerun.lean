import Earley.Proofs.Recognition.Saturation

/-!
# Operations on a finished chart

On a chart whose columns are all saturated and scanned every operation that made it finds its
items there already and leaves the chart as it is.  `Rerun` is any number of such operations, in
any order, on the chart of a word.
-/

set_option autoImplicit false

namespace Earley

variable {grammar : Grammar} {word : List Char} {start : String} {chart : Chart} {i : Nat}
  {item : Item}

namespace Chart

theorem predict_of_saturated (saturated : chart.Saturated grammar i)
    (member : item ∈ chart.itemsAt i) {name : String}
    (waits : item.waitsOn (.nonterminal name) = true) :
    chart.predict grammar item i = ⟨chart, true, none⟩ := by
  have placed := place_natCast (lt_size_of_mem_itemsAt member)
  have begun : ∀ x ∈ predicted grammar i (some (.nonterminal name)), x ∈ chart.itemsAt i := by
    intro x new
    obtain ⟨p, rule, same, rfl⟩ := mem_predicted.mp new
    exact saturated item member _ (.predicted rule (same ▸ waits))
  have skips : ∀ x ∈ skipped grammar item (some (.nonterminal name)), x ∈ chart.itemsAt i := by
    intro x new
    obtain ⟨nullable, rfl⟩ := mem_skipped.mp new
    exact saturated item member _ (.skipped nullable waits)
  unfold predict
  rw [Item.waitsOn_iff.mp waits]
  dsimp only
  rw [addAll_of_subset placed begun]
  dsimp only
  rw [addAll_of_subset placed skips]

theorem Sound.complete_of_saturated (sound : chart.Sound grammar word start)
    (saturated : chart.Saturated grammar i) (member : item ∈ chart.itemsAt i)
    (complete : item.isComplete = true) : chart.complete item i = ⟨chart, false, none⟩ := by
  obtain ⟨k, _, _, column, there, _⟩ := sound.origin_column member
  have present : ∀ x ∈ (column.waitingOn item.lhs).map Item.moved, x ∈ chart.itemsAt i := by
    intro x new
    obtain ⟨waiting, among, waits, rfl⟩ := Column.mem_map_moved_waitingOn.mp new
    exact saturated item member _ (.completed complete there among waits)
  unfold Chart.complete
  rw [there]
  dsimp only
  rw [addAll_of_subset (Chart.place_natCast (lt_size_of_mem_itemsAt member)) present]
  rfl

theorem Sound.visit_of_saturated (sound : chart.Sound grammar word start)
    (saturated : chart.Saturated grammar i) (member : item ∈ chart.itemsAt i) :
    ∃ read, chart.visit grammar item i = ⟨chart, read, none⟩ := by
  cases complete : item.isComplete with
  | true =>
    rw [visit_of_isComplete complete, sound.complete_of_saturated saturated member complete]
    exact ⟨false, rfl⟩
  | false =>
    obtain ⟨next, readable⟩ := (sound.justified i item member).wellPlaced.readable
    by_cases waits : ∃ name, next = some (.nonterminal name)
    · obtain ⟨name, rfl⟩ := waits
      have waits := Item.waitsOn_iff.mpr readable
      rw [visit_of_waitsOn waits, predict_of_saturated saturated member waits]
      exact ⟨true, rfl⟩
    · refine ⟨false, ?_⟩
      unfold visit
      rw [if_neg (by simp [complete]), readable]
      split
      · rename_i unread
        cases unread
      · rename_i name read
        exact absurd ⟨name, Except.ok.inj read⟩ waits
      · rfl

theorem Sound.closeFrom_of_saturated (sound : chart.Sound grammar word start)
    (saturated : chart.Saturated grammar i) (fuel visited : Nat) (consulted : Bool) :
    (closeFrom grammar.withNullable i i fuel visited consulted chart).chart = chart ∧
      (closeFrom grammar.withNullable i i fuel visited consulted chart).fault = none := by
  induction fuel generalizing visited consulted with
  | zero => exact ⟨rfl, rfl⟩
  | succ fuel ih =>
    unfold closeFrom
    rw [itemsAt_getElem?]
    cases turn : (chart.itemsAt i)[visited]? with
    | none => exact ⟨rfl, rfl⟩
    | some item =>
      obtain ⟨read, same⟩ := sound.visit_of_saturated saturated (List.mem_of_getElem? turn)
      dsimp only
      rw [visit_withNullable, same]
      exact ih (visited + 1) (consulted || read)

theorem Sound.close_of_saturated (sound : chart.Sound grammar word start)
    (saturated : chart.Saturated grammar i) (inside : i ≤ word.length) :
    (chart.close grammar i).chart = chart ∧ (chart.close grammar i).fault = none := by
  unfold close
  rw [sound.place_natCast inside]
  exact sound.closeFrom_of_saturated saturated _ 0 false

section

variable (sound : chart.Sound grammar word start)
  (read : chart.ReadUpTo grammar word (word.length + 1)) {c : Char} (next : word[i]? = some c)

include sound read next

theorem Sound.scanColumn_of_read :
    chart.scanColumn i (String.singleton c) = ⟨chart, false, none⟩ := by
  have inside := (List.getElem?_eq_some_iff.mp next).1
  have size := sound.size
  obtain ⟨column, _, found, items⟩ := exists_column (show i < chart.columns.size by omega)
  have later : chart.place ((i : Int) + 1) = .ok (i + 1) := sound.place_natCast inside
  have present : ∀ x ∈ (column.waitingOn (.terminal (String.singleton c))).map Item.moved,
      x ∈ chart.itemsAt (i + 1) := by
    intro x new
    obtain ⟨item, member, waits, rfl⟩ := Column.mem_map_moved_waitingOn.mp new
    rw [← items] at member
    exact read.scanned i (by omega) c next item member waits
  unfold scanColumn
  rw [if_neg (singleton_ne_endMark c), found]
  dsimp only
  rw [addAll_of_subset later present]
  rfl

theorem Sound.scan_of_read (member : item ∈ chart.itemsAt i) :
    chart.scan item i (String.singleton c) = ⟨chart, false, none⟩ := by
  have inside := (List.getElem?_eq_some_iff.mp next).1
  have later : chart.place ((i : Int) + 1) = .ok (i + 1) := sound.place_natCast inside
  obtain ⟨symbol, readable⟩ := (sound.justified i item member).wellPlaced.readable
  unfold scan
  rw [readable]
  dsimp only
  split
  · rename_i waits
    have waits : item.waitsOn (.terminal (String.singleton c)) = true := by
      rw [Item.waitsOn_iff, readable, waits]
    have present : ∀ x ∈ [item.moved], x ∈ chart.itemsAt (i + 1) := by
      intro x new
      rw [List.mem_singleton.mp new]
      exact read.scanned i (by omega) c next item member waits
    rw [addAll_of_subset later present]
    rfl
  · rfl

end

end Chart

/-! ## Operations in any order -/

/-- Operations as in the making of the chart of a word, any number of them and in any order: on the
items of any column, and on whole columns. -/
inductive Rerun (word : List Char) (r : Recognition) : Recognition → Prop
  | refl : Rerun word r r
  | predict {later : Recognition} {i : Nat} {item : Item} {name : String}
      (earlier : Rerun word r later) (member : item ∈ later.chart.itemsAt i)
      (waits : item.waitsOn (.nonterminal name) = true) : Rerun word r (later.predict item i)
  | complete {later : Recognition} {i : Nat} {item : Item} (earlier : Rerun word r later)
      (member : item ∈ later.chart.itemsAt i) (complete : item.isComplete = true) :
      Rerun word r (later.complete item i)
  | scan {later : Recognition} {i : Nat} {item : Item} {c : Char} (earlier : Rerun word r later)
      (member : item ∈ later.chart.itemsAt i) (next : word[i]? = some c) :
      Rerun word r (later.scan item i (String.singleton c))
  | close {later : Recognition} {i : Nat} (earlier : Rerun word r later)
      (inside : i ≤ word.length) : Rerun word r (later.close i)
  | scanColumn {later : Recognition} {i : Nat} {c : Char} (earlier : Rerun word r later)
      (next : word[i]? = some c) : Rerun word r (later.scanColumn i (String.singleton c))

theorem Rerun.keeps {r later : Recognition} (rerun : Rerun word r later)
    (underway : Underway grammar word start r)
    (read : r.chart.ReadUpTo grammar word (word.length + 1)) :
    Underway grammar word start later ∧ later.chart = r.chart := by
  induction rerun with
  | refl => exact ⟨underway, rfl⟩
  | @predict later i item name _ member waits ih =>
    obtain ⟨working, same⟩ := ih
    have inside : i < word.length + 1 := working.sound.size ▸ Chart.lt_size_of_mem_itemsAt member
    have saturated : later.chart.Saturated grammar i := same ▸ read.saturated i inside
    have stays := Chart.predict_of_saturated saturated member waits
    unfold Recognition.predict
    rw [Recognition.unlessFaulty_of_faultless working.faultless, working.predict_eq, stays,
      ← same]
    exact ⟨working.follow rfl working.sound [], rfl⟩
  | @complete later i item _ member complete ih =>
    obtain ⟨working, same⟩ := ih
    have inside : i < word.length + 1 := working.sound.size ▸ Chart.lt_size_of_mem_itemsAt member
    have stays := working.sound.complete_of_saturated (same ▸ read.saturated i inside) member
      complete
    unfold Recognition.complete
    rw [Recognition.unlessFaulty_of_faultless working.faultless, stays, ← same]
    exact ⟨working.follow rfl working.sound [], rfl⟩
  | @scan later i item c _ member next ih =>
    obtain ⟨working, same⟩ := ih
    have stays := working.sound.scan_of_read (same ▸ read) next member
    unfold Recognition.scan
    rw [Recognition.unlessFaulty_of_faultless working.faultless, stays, ← same]
    exact ⟨working.follow rfl working.sound [], rfl⟩
  | @close later i _ inside ih =>
    obtain ⟨working, same⟩ := ih
    obtain ⟨chart, faultless⟩ := working.sound.close_of_saturated
      (same ▸ read.saturated i (Nat.lt_succ_of_le inside)) inside
    unfold Recognition.close
    rw [Recognition.unlessFaulty_of_faultless working.faultless, working.close_eq, ← same]
    exact ⟨working.follow faultless (chart.symm ▸ working.sound) _, chart⟩
  | @scanColumn later i c _ next ih =>
    obtain ⟨working, same⟩ := ih
    have stays := working.sound.scanColumn_of_read (same ▸ read) next
    unfold Recognition.scanColumn
    rw [Recognition.unlessFaulty_of_faultless working.faultless, stays, ← same]
    exact ⟨working.follow rfl working.sound [], rfl⟩

namespace Recognition

/-- Operations on the chart of a word add no item to any column, in any order. -/
theorem rerun_build_leaves_chart (grammar : Grammar) (unreserved : grammar.Unreserved)
    (word start : String) {later : Recognition}
    (rerun : Rerun word.toList (build grammar word start) later) :
    later.fault = none ∧ later.chart = (build grammar word start).chart := by
  have underway := underway_build grammar word start
  obtain ⟨working, same⟩ := rerun.keeps underway (readUpTo_build grammar unreserved word start)
  exact ⟨working.faultless, same⟩

theorem rerun_brackets_leaves_chart :
    Grammar.brackets.Unreserved ∧
      ((((build .brackets "ab" "S").predict (Chart.seed "S") (0 : Nat)).close (1 : Nat)).scanColumn
        (0 : Nat) (String.singleton 'a')).chart = (build .brackets "ab" "S").chart := by
  have waits : (Chart.seed "S").waitsOn (.nonterminal "S") = true := by decide
  have member : Chart.seed "S" ∈ (build .brackets "ab" "S").chart.itemsAt 0 := by decide
  have next : "ab".toList[0]? = some 'a' := by decide
  have inside : 1 ≤ "ab".toList.length := by decide
  have predicted : Rerun "ab".toList (build .brackets "ab" "S") _ := .predict .refl member waits
  have closed : Rerun "ab".toList (build .brackets "ab" "S") _ := .close predicted inside
  have rerun := Rerun.scanColumn closed next
  exact ⟨Grammar.unreserved_brackets,
    (rerun_build_leaves_chart .brackets Grammar.unreserved_brackets "ab" "S" rerun).2⟩

end Recognition

end Earley
