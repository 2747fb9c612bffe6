import Earley.Proofs.Chart.Stock

/-!
# Operations only append

Closing a column and scanning from one put items behind those of one column and change nothing else,
whether they end well or in a fault, and whatever indices and origins the chart holds.  What closing
appends follows from an item that stands before it in the column; what scanning appends comes from
an item that was there when the scanning began, also where an index from the end makes both columns
one.
-/

set_option autoImplicit false

namespace Earley

namespace Chart

variable {chart before middle after : Chart} {grammar : Grammar} {item x : Item} {index : Int}
  {place : Nat} {batch : List Item}

/-- The later chart is the earlier one with items behind those of the column at an index.  Of each of
these and the items before it in its column `gained` holds. -/
structure Appends (before after : Chart) (index : Int) (gained : List Item → Item → Prop) :
    Prop where
  start : after.start = before.start
  size : after.columns.size = before.columns.size
  elsewhere : ∀ k, before.place index ≠ .ok k → after.columns[k]? = before.columns[k]?
  kept : ∀ k, before.itemsAt k <+: after.itemsAt k
  nodup : ∀ k, (after.itemsAt k).Nodup
  gained : ∀ k n x, (before.itemsAt k).length ≤ n → (after.itemsAt k)[n]? = some x →
    gained ((after.itemsAt k).take n) x

theorem Appends.refl (chart : Chart) (index : Int) (gained : List Item → Item → Prop) :
    chart.Appends chart index gained where
  start := rfl
  size := rfl
  elsewhere := fun _ _ => rfl
  kept := fun _ => List.prefix_rfl
  nodup := chart.nodup_itemsAt
  gained := by
    intro k n x late there
    have inside := (List.getElem?_eq_some_iff.mp there).1
    omega

theorem Appends.mono {gained also : List Item → Item → Prop}
    (appends : before.Appends after index gained)
    (implies : ∀ earlier x, gained earlier x → also earlier x) :
    before.Appends after index also where
  start := appends.start
  size := appends.size
  elsewhere := appends.elsewhere
  kept := appends.kept
  nodup := appends.nodup
  gained := fun k n x late there => implies _ _ (appends.gained k n x late there)

theorem Takes.mem_of_late (takes : before.Takes after place batch) {k n : Nat}
    (late : (before.itemsAt k).length ≤ n) (there : (after.itemsAt k)[n]? = some x) :
    k = place ∧ x ∈ batch := by
  have inside := (List.getElem?_eq_some_iff.mp there).1
  by_cases same : k = place
  · subst same
    rw [takes.itemsAt, foldl_appendNew_eq, List.getElem?_append_right late] at there
    have new := List.mem_eraseDups.mp (List.mem_of_getElem? there)
    exact ⟨rfl, (List.mem_filter.mp new).1⟩
  · rw [takes.itemsAt_of_ne same] at inside
    omega

theorem Takes.appends (takes : before.Takes after place batch)
    (found : before.place index = .ok place) {gained : List Item → Item → Prop}
    (holds : ∀ n x, (before.itemsAt place).length ≤ n → (after.itemsAt place)[n]? = some x →
      gained ((after.itemsAt place).take n) x) : before.Appends after index gained where
  start := takes.start
  size := takes.size
  elsewhere := fun k other => takes.elsewhere k fun same => other (same ▸ found)
  kept := takes.prefix_itemsAt
  nodup := after.nodup_itemsAt
  gained := by
    intro k n x late there
    obtain ⟨rfl, _⟩ := takes.mem_of_late late there
    exact holds n x late there

/-! ## Scanning -/

theorem addAll_appends (readable : ∀ x ∈ batch, x.Readable) (chart : Chart) (index : Int) :
    chart.Appends (chart.addAll index batch).1 index fun _ x => x ∈ batch := by
  cases found : chart.place index with
  | error fault =>
    have same : (chart.addAll index batch).1 = chart := by
      cases batch <;> simp [addAll, found]
    rw [same]
    exact .refl chart index _
  | ok place =>
    obtain ⟨_, takes⟩ := addAll_of_place readable found
    exact takes.appends found fun n x late there => (takes.mem_of_late late there).2

theorem scanColumn_appends (chart : Chart) (index : Int) (character : String) :
    chart.Appends (chart.scanColumn index character).chart (index + 1) fun _ x =>
      ∃ column, chart.column index = .ok column ∧ ∃ item ∈ column.items,
        item.waitsOn (.terminal character) = true ∧ x = item.moved := by
  unfold scanColumn
  split
  · exact .refl chart _ _
  · cases found : chart.column index with
    | error fault => exact .refl chart _ _
    | ok column =>
      have readable := column.readable_map_moved_waitingOn (.terminal character)
      apply (addAll_appends readable chart (index + 1)).mono
      intro _ x member
      exact ⟨column, rfl, Column.mem_map_moved_waitingOn.mp member⟩

/-! ## Closing -/

theorem Takes.follows (takes : before.Takes after place batch)
    (follows : before.Follows grammar index item x) : after.Follows grammar index item x := by
  cases follows with
  | predicted member waits => exact .predicted member waits
  | skipped nullable waits => exact .skipped nullable waits
  | @completed column waiting complete found member waits =>
    obtain ⟨k, origin, there⟩ := place_of_column found
    have inside : k < after.columns.size := takes.size ▸ place_lt origin
    have grown := Array.getElem?_eq_getElem inside
    rw [← itemsAt_of_some there] at member
    have kept := takes.mem_of_mem member
    rw [itemsAt_of_some grown] at kept
    exact .completed complete (column_of_place (takes.place_eq _ ▸ origin) grown) kept waits

def Grown (grammar : Grammar) (index : Int) (place : Nat) (start chart : Chart) : Prop :=
  (∃ batch, start.Takes chart place batch) ∧
    ∀ n x, (start.itemsAt place).length ≤ n → (chart.itemsAt place)[n]? = some x →
      ∃ item ∈ (chart.itemsAt place).take n, chart.Follows grammar index item x

theorem turnKeeps_grown (grammar : Grammar) (index : Int) (place : Nat) (start : Chart) :
    TurnKeeps grammar index place fun _ chart => start.Grown grammar index place chart := by
  intro visited chart item batch after ⟨⟨all, earlier⟩, grown⟩ turn takes follows
  refine ⟨⟨all ++ batch, earlier.trans takes⟩, fun n x late there => ?_⟩
  obtain ⟨new, whole⟩ := takes.prefix_itemsAt place
  by_cases old : n < (chart.itemsAt place).length
  · -- The item was there before the turn.
    rw [← whole, List.getElem?_append_left old] at there
    obtain ⟨source, among, before⟩ := grown n x late there
    rw [← whole, List.take_append_of_le_length (Nat.le_of_lt old)]
    exact ⟨source, among, takes.follows before⟩
  · -- The turn took it in, and the item that had its turn stands before it.
    have fresh := (takes.mem_of_late (Nat.le_of_not_lt old) there).2
    have inside := (List.getElem?_eq_some_iff.mp turn).1
    refine ⟨item, List.mem_of_getElem? (i := visited) ?_, takes.follows ((follows x).mp fresh)⟩
    rw [List.getElem?_take_of_lt (by omega), ← whole, List.getElem?_append_left inside, turn]

theorem close_appends (chart : Chart) (grammar : Grammar) (index : Int) :
    chart.Appends (chart.close grammar index).chart index fun earlier x =>
      ∃ item ∈ earlier, (chart.close grammar index).chart.Follows grammar index item x := by
  cases found : chart.place index with
  | error fault =>
    have same : (chart.close grammar index).chart = chart := by simp only [close, found]
    rw [same]
    exact .refl chart index _
  | ok place =>
    have unchanged : chart.Grown grammar index place chart := by
      refine ⟨⟨[], .nothing chart place⟩, fun n x late there => ?_⟩
      have inside := (List.getElem?_eq_some_iff.mp there).1
      omega
    obtain ⟨⟨batch, takes⟩, follows⟩ :=
      close_rule (turnKeeps_grown grammar index place chart) found unchanged
    exact takes.appends found follows

/-- Whatever the chart, the grammar and the index, and whether or not a fault ends the operation:
closing a column and scanning from one change one column, and there they put new items behind those
at hand.  What closing puts there follows from an item before it, and what scanning puts there is the
advance of an item that waited on the terminal.  Scanning the end mark does nothing. -/
theorem close_and_scan_append (chart : Chart) (grammar : Grammar) (index : Int)
    (character : String) :
    (chart.Appends (chart.close grammar index).chart index fun earlier x =>
      ∃ item ∈ earlier, (chart.close grammar index).chart.Follows grammar index item x) ∧
    (chart.Appends (chart.scanColumn index character).chart (index + 1) fun _ x =>
      ∃ column, chart.column index = .ok column ∧ ∃ item ∈ column.items,
        item.waitsOn (.terminal character) = true ∧ x = item.moved) ∧
    chart.scanColumn index endMark = ⟨chart, false, none⟩ := by
  refine ⟨close_appends chart grammar index, scanColumn_appends chart index character, ?_⟩
  unfold scanColumn
  rw [if_pos rfl]

end Chart

end Earley
