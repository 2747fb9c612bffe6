import Earley.Chart.Records
import Earley.Proofs.Chart.Taking

/-!
# What several arrivals make of a column

Whatever items arrive at a column, in whatever order and with whatever dots, it holds each of them
once, in the order of first arrival, and an item is refused exactly when it arrived before.  The
list, the set and the index of the column stay in step even where an arrival ends between two of
them: an item whose next symbol cannot be read is in the list and in the set, and it waits on
nothing.
-/

set_option autoImplicit false

namespace Earley.Column

theorem answer_add (column : Column) (item : Item) :
    (column.add item).answer =
      if item ∈ column.items then .ok false else item.next.map fun _ => true := by
  by_cases present : item ∈ column.items
  · rw [add_of_mem present, if_pos present]
  · rw [add, dif_neg present, if_neg present]

theorem add_new (column : Column) {item : Item} (new : item ∉ column.items) :
    (column.add item).column.items = column.items ++ [item] ∧
      (column.add item).column.waiting = fileWaiting column.waiting item := by
  rw [add, dif_neg new]
  exact ⟨rfl, rfl⟩

theorem items_ofArrivals (arrivals : List Item) :
    (ofArrivals arrivals).items = arrivals.eraseDups := by
  have grown : ∀ column : Column,
      (arrivals.foldl (fun column item => (column.add item).column) column).items =
        arrivals.foldl appendNew column.items := by
    induction arrivals with
    | nil => exact fun column => rfl
    | cons item rest ih =>
      intro column
      rw [List.foldl_cons, List.foldl_cons, ih, items_add]
  rw [ofArrivals, grown, ← foldl_appendNew_nil]
  rfl

namespace Records

structure Agree (records : Records) (column : Column) : Prop where
  items : records.items = column.items
  seen : ∀ x, x ∈ records.seen ↔ x ∈ column.items
  waiting : records.waiting = column.waiting

theorem agree_empty : empty.Agree .empty where
  items := rfl
  seen := fun x => iff_of_false (Finset.notMem_empty x) List.not_mem_nil
  waiting := rfl

variable {records : Records} {column : Column} {item : Item}

theorem add_of_mem (seen : item ∈ records.seen) : records.add item = (records, .ok false) := by
  rw [add, if_pos seen]

theorem add_new (new : item ∉ records.seen) :
    records.add item = (⟨records.items ++ [item], insert item records.seen,
      fileWaiting records.waiting item⟩, item.next.map fun _ => true) := by
  rw [add, if_neg new, fileWaiting]
  cases item.next with
  | error fault => rfl
  | ok next => cases next <;> rfl

/-- An arrival leaves the records in step, also where the next symbol cannot be read, and the answer
is that of the column. -/
theorem Agree.add (agree : records.Agree column) (item : Item) :
    (records.add item).1.Agree (column.add item).column ∧
      (records.add item).2 = (column.add item).answer := by
  rw [answer_add]
  by_cases present : item ∈ column.items
  · rw [Column.add_of_mem present, add_of_mem ((agree.seen item).mpr present), if_pos present]
    exact ⟨agree, rfl⟩
  · obtain ⟨items, waiting⟩ := column.add_new present
    rw [add_new (mt (agree.seen item).mp present), if_neg present]
    refine ⟨⟨?_, fun x => ?_, ?_⟩, rfl⟩
    · rw [items, agree.items]
    · rw [items, Finset.mem_insert, agree.seen, List.mem_append, List.mem_singleton, or_comm]
    · rw [waiting, agree.waiting]

theorem agree_ofArrivals (arrivals : List Item) :
    (ofArrivals arrivals).Agree (Column.ofArrivals arrivals) := by
  have kept : ∀ (records : Records) (column : Column), records.Agree column →
      (arrivals.foldl (fun records item => (records.add item).1) records).Agree
        (arrivals.foldl (fun column item => (column.add item).column) column) := by
    induction arrivals with
    | nil => exact fun _ _ agree => agree
    | cons item rest ih => exact fun _ _ agree => ih _ _ (agree.add item).1
  exact kept _ _ agree_empty

end Records

/-- After any arrivals, a column holds every item that arrived once, in the order of first arrival.
An item that arrived before is refused, and any other is taken in, with the fault as the answer if
its next symbol cannot be read.  The items that wait on a symbol are those with this next symbol, in
the order of the column; so an item without one, or with one that cannot be read, waits on nothing.
A list, a set and an index that are kept apart hold the same items at all times. -/
theorem ofArrivals_in_step (arrivals : List Item) :
    (ofArrivals arrivals).items = arrivals.eraseDups ∧
    (ofArrivals arrivals).items.Nodup ∧
    (∀ x, x ∈ (ofArrivals arrivals).items ↔ x ∈ arrivals) ∧
    (∀ x, ((ofArrivals arrivals).add x).answer =
      if x ∈ arrivals then .ok false else x.next.map fun _ => true) ∧
    (∀ s, (ofArrivals arrivals).waitingOn s =
      (ofArrivals arrivals).items.filter (·.waitsOn s)) ∧
    (∀ s x, x ∈ (ofArrivals arrivals).waitingOn s ↔ x ∈ arrivals ∧ x.next = .ok (some s)) ∧
    (Records.ofArrivals arrivals).items = (ofArrivals arrivals).items ∧
    (∀ x, x ∈ (Records.ofArrivals arrivals).seen ↔ x ∈ (ofArrivals arrivals).items) ∧
    (∀ s, (Records.ofArrivals arrivals).waiting.filed s = (ofArrivals arrivals).waitingOn s) ∧
    ∀ x, ((Records.ofArrivals arrivals).add x).2 = ((ofArrivals arrivals).add x).answer := by
  have member : ∀ x, x ∈ (ofArrivals arrivals).items ↔ x ∈ arrivals := by
    intro x
    rw [items_ofArrivals, List.mem_eraseDups]
  have agree := Records.agree_ofArrivals arrivals
  refine ⟨items_ofArrivals arrivals, (ofArrivals arrivals).nodup, member, fun x => ?_,
    (ofArrivals arrivals).filed_waiting, fun s x => ?_, agree.items, agree.seen, fun s => ?_,
    fun x => (agree.add x).2⟩
  · simp only [answer_add, member]
  · rw [mem_waitingOn, member, Item.waitsOn_iff]
  · rw [agree.waiting, waitingOn]

end Earley.Column
