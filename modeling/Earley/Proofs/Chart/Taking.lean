import Earley.Chart.Basic
import Earley.Proofs.Growth
import Earley.Proofs.Item

/-!
# Taking items into a column

A batch of items whose next symbols can be read goes into one column: the items that are new come
behind the others, in order, and nothing else of the chart changes.  `Chart.Takes` says this of a
chart before and after, and batches one after the other are one batch.
-/

set_option autoImplicit false

namespace Earley

namespace Column

theorem add_of_mem {column : Column} {item : Item} (present : item ∈ column.items) :
    column.add item = ⟨column, .ok false⟩ := by
  unfold add
  rw [dif_pos present]

theorem answer_add_of_readable (column : Column) {item : Item} (readable : item.Readable) :
    ∃ new, (column.add item).answer = .ok new := by
  obtain ⟨next, read⟩ := readable
  unfold add
  split
  · exact ⟨false, rfl⟩
  · exact ⟨true, by rw [read]; rfl⟩

theorem addAll_of_readable {items : List Item} (readable : ∀ item ∈ items, item.Readable)
    (column : Column) : (column.addAll items).2 = none ∧
      (column.addAll items).1.items = items.foldl appendNew column.items := by
  induction items generalizing column with
  | nil => exact ⟨rfl, rfl⟩
  | cons item rest ih =>
    obtain ⟨new, answered⟩ := column.answer_add_of_readable (readable item List.mem_cons_self)
    have later := ih (fun other member => readable other (List.mem_cons_of_mem item member))
      (column.add item).column
    unfold addAll
    simp only [answered]
    rw [List.foldl_cons, ← items_add]
    exact later

theorem addAll_of_subset {items : List Item} {column : Column}
    (present : ∀ item ∈ items, item ∈ column.items) : column.addAll items = (column, none) := by
  induction items with
  | nil => rfl
  | cons item rest ih =>
    unfold addAll
    rw [add_of_mem (present item List.mem_cons_self)]
    exact ih fun other member => present other (List.mem_cons_of_mem item member)

theorem mem_map_moved_waitingOn {column : Column} {s : Symbol} {x : Item} :
    x ∈ (column.waitingOn s).map Item.moved ↔
      ∃ item ∈ column.items, item.waitsOn s = true ∧ x = item.moved := by
  rw [waitingOn, column.filed_waiting]
  exact Item.mem_map_moved_filter

theorem readable_map_moved_waitingOn (column : Column) (s : Symbol) :
    ∀ x ∈ (column.waitingOn s).map Item.moved, x.Readable := by
  intro x member
  obtain ⟨item, _, waits, rfl⟩ := mem_map_moved_waitingOn.mp member
  exact Item.readable_moved_of_waitsOn waits

end Column

namespace Chart

def itemsAt (chart : Chart) (place : Nat) : List Item :=
  match chart.columns[place]? with
  | some column => column.items
  | none => []

variable {chart before middle after : Chart} {place : Nat} {index : Int}

theorem itemsAt_of_some {column : Column} (found : chart.columns[place]? = some column) :
    chart.itemsAt place = column.items := by
  unfold itemsAt
  rw [found]

theorem lt_size_of_mem_itemsAt {item : Item} (member : item ∈ chart.itemsAt place) :
    place < chart.columns.size := by
  unfold itemsAt at member
  split at member
  · rename_i column found
    exact (Array.getElem?_eq_some_iff.mp found).1
  · exact absurd member List.not_mem_nil

theorem place_natCast (inside : place < chart.columns.size) : chart.place place = .ok place :=
  position_natCast .noEntry inside

theorem place_lt (found : chart.place index = .ok place) : place < chart.columns.size :=
  position_lt found

theorem column_of_place (found : chart.place index = .ok place) {column : Column}
    (there : chart.columns[place]? = some column) : chart.column index = .ok column := by
  unfold Chart.column
  rw [found]
  simp only [bind, Except.bind]
  rw [there]

theorem exists_column (inside : place < chart.columns.size) :
    ∃ column, chart.columns[place]? = some column ∧ chart.column place = .ok column ∧
      chart.itemsAt place = column.items := by
  have there := Array.getElem?_eq_getElem inside
  exact ⟨_, there, column_of_place (place_natCast inside) there, itemsAt_of_some there⟩

theorem place_of_column {column : Column} (found : chart.column index = .ok column) :
    ∃ place, chart.place index = .ok place ∧ chart.columns[place]? = some column := by
  unfold Chart.column at found
  cases placed : chart.place index with
  | error fault => simp [placed, bind, Except.bind] at found
  | ok place =>
    simp only [placed, bind, Except.bind] at found
    split at found
    · rename_i other there
      exact ⟨place, rfl, by rw [there, Except.ok.inj found]⟩
    · simp at found

theorem itemsAt_of_column_natCast {column : Column} (found : chart.column place = .ok column) :
    chart.itemsAt place = column.items := by
  obtain ⟨other, placed, there⟩ := place_of_column found
  have inside : place < chart.columns.size := by
    have bounds := bounds_of_position placed
    omega
  have same := Except.ok.inj ((place_natCast inside).symm.trans placed)
  rw [← same] at there
  exact itemsAt_of_some there

/-! ## What taking items in changes -/

/-- The later chart is the earlier one after the items went into the column at a place. -/
structure Takes (before after : Chart) (place : Nat) (items : List Item) : Prop where
  start : after.start = before.start
  size : after.columns.size = before.columns.size
  elsewhere : ∀ k, k ≠ place → after.columns[k]? = before.columns[k]?
  itemsAt : after.itemsAt place = items.foldl appendNew (before.itemsAt place)

theorem Takes.nothing (chart : Chart) (place : Nat) : chart.Takes chart place [] :=
  ⟨rfl, rfl, fun _ _ => rfl, rfl⟩

theorem Takes.trans {items more : List Item} (first : before.Takes middle place items)
    (second : middle.Takes after place more) : before.Takes after place (items ++ more) where
  start := second.start.trans first.start
  size := second.size.trans first.size
  elsewhere := fun k other => (second.elsewhere k other).trans (first.elsewhere k other)
  itemsAt := by rw [second.itemsAt, first.itemsAt, List.foldl_append]

section

variable {items : List Item} (takes : before.Takes after place items)

include takes

theorem Takes.itemsAt_of_ne {k : Nat} (other : k ≠ place) : after.itemsAt k = before.itemsAt k := by
  unfold Chart.itemsAt
  rw [takes.elsewhere k other]

theorem Takes.mem_itemsAt {item : Item} :
    item ∈ after.itemsAt place ↔ item ∈ before.itemsAt place ∨ item ∈ items := by
  rw [takes.itemsAt, mem_foldl_appendNew]

theorem Takes.prefix_itemsAt (k : Nat) : before.itemsAt k <+: after.itemsAt k := by
  by_cases same : k = place
  · subst same
    rw [takes.itemsAt]
    exact prefix_foldl_appendNew _ _
  · have kept := takes.itemsAt_of_ne same
    exact kept ▸ List.prefix_rfl

theorem Takes.mem_of_mem {k : Nat} {item : Item} (member : item ∈ before.itemsAt k) :
    item ∈ after.itemsAt k :=
  (takes.prefix_itemsAt k).subset member

theorem Takes.place_eq (index : Int) : after.place index = before.place index := by
  unfold Chart.place
  rw [takes.size]

end

theorem nodup_itemsAt (chart : Chart) (place : Nat) : (chart.itemsAt place).Nodup := by
  unfold itemsAt
  split
  · rename_i column _
    exact column.nodup
  · exact List.nodup_nil

theorem addAll_of_place {items : List Item} (readable : ∀ item ∈ items, item.Readable)
    (found : chart.place index = .ok place) :
    (chart.addAll index items).2 = none ∧
      chart.Takes (chart.addAll index items).1 place items := by
  have inside := place_lt found
  have there := Array.getElem?_eq_getElem inside
  obtain ⟨faultless, grown⟩ := Column.addAll_of_readable readable chart.columns[place]
  unfold addAll
  cases items with
  | nil => exact ⟨rfl, .nothing chart place⟩
  | cons item rest =>
    simp only [List.isEmpty_cons, Bool.false_eq_true, if_false, found, there]
    refine ⟨faultless, rfl, Array.size_setIfInBounds, ?_, ?_⟩
    · intro k other
      exact Array.getElem?_setIfInBounds_ne (Ne.symm other)
    · rw [itemsAt_of_some (Array.getElem?_setIfInBounds_self_of_lt inside),
        itemsAt_of_some there]
      exact grown

theorem addAll_of_subset {items : List Item} (found : chart.place index = .ok place)
    (present : ∀ item ∈ items, item ∈ chart.itemsAt place) :
    chart.addAll index items = (chart, none) := by
  have inside := place_lt found
  have there := Array.getElem?_eq_getElem inside
  rw [itemsAt_of_some there] at present
  unfold addAll
  cases items with
  | nil => rfl
  | cons item rest =>
    simp only [List.isEmpty_cons, Bool.false_eq_true, if_false, found, there,
      Column.addAll_of_subset present]
    have same : chart.columns.setIfInBounds place chart.columns[place] = chart.columns := by
      simp [Array.setIfInBounds, inside]
    rw [same]

end Chart

end Earley
