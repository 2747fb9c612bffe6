import Earley.Item

/-!
# The symbol after the dot

The symbol after the dot can be read exactly when the dot is no further before the front of the
body than the body is long.  An item that waits on a symbol can move its dot over it, and the item
it becomes can be read again.
-/

set_option autoImplicit false

namespace Earley

theorem position_of_bounds (missing : Fault) {size : Nat} {index : Int}
    (low : -(size : Int) ≤ index) (high : index < size) :
    position missing size index = .ok (fromFront size index).toNat := by
  have inside : 0 ≤ fromFront size index ∧ fromFront size index < size := by
    unfold fromFront
    split <;> omega
  unfold position place?
  rw [if_pos inside]

theorem bounds_of_position {missing : Fault} {size place : Nat} {index : Int}
    (found : position missing size index = .ok place) :
    -(size : Int) ≤ index ∧ index < size := by
  unfold position place? at found
  split at found
  · rename_i inside
    split at inside
    · rename_i range
      unfold fromFront at range
      split at range <;> omega
    · simp at inside
  · simp at found

namespace Item

variable {item : Item} {s : Symbol}

@[simp] theorem origin_moved (item : Item) : item.moved.origin = item.origin := rfl

@[simp] theorem dot_moved (item : Item) : item.moved.dot = item.dot + 1 := rfl

@[simp] theorem production_moved (item : Item) : item.moved.production = item.production := rfl

@[simp] theorem body_moved (item : Item) : item.moved.body = item.body := rfl

@[simp] theorem origin_fresh (p : Production) (origin : Int) : (fresh p origin).origin = origin :=
  rfl

@[simp] theorem dot_fresh (p : Production) (origin : Int) : (fresh p origin).dot = 0 := rfl

@[simp] theorem production_fresh (p : Production) (origin : Int) :
    (fresh p origin).production = p := rfl

@[simp] theorem body_fresh (p : Production) (origin : Int) : (fresh p origin).body = p.body := rfl

theorem isComplete_iff : item.isComplete = true ↔ (item.body.length : Int) ≤ item.dot := by
  unfold isComplete
  rw [decide_eq_true_iff]

theorem waitsOn_iff : item.waitsOn s = true ↔ item.next = .ok (some s) := by
  unfold waitsOn
  cases item.next with
  | error fault => simp
  | ok next => simp

theorem next_of_isComplete (complete : item.isComplete = true) : item.next = .ok none := by
  unfold next
  rw [if_pos complete]

theorem next_of_natCast {d : Nat} (dot : item.dot = d) : item.next = .ok item.body[d]? := by
  unfold next
  by_cases complete : item.isComplete = true
  · have past : item.body.length ≤ d := by
      have reached := isComplete_iff.mp complete
      omega
    rw [if_pos complete, List.getElem?_eq_none past]
  · have inside : d < item.body.length := by
      have short := mt isComplete_iff.mpr complete
      omega
    rw [if_neg complete, dot, position_natCast .noSymbol inside]
    rfl

theorem waitsOn_iff_getElem? {d : Nat} (dot : item.dot = d) :
    item.waitsOn s = true ↔ item.body[d]? = some s := by
  rw [waitsOn_iff, next_of_natCast dot, Except.ok.injEq]

theorem waitsOn_of_split {before after : List Symbol} (dot : item.dot = before.length)
    (split : item.body = before ++ s :: after) : item.waitsOn s = true := by
  rw [waitsOn_iff_getElem? dot, split, List.getElem?_append_right (Nat.le_refl _), Nat.sub_self,
    List.getElem?_cons_zero]

theorem eq_of_waitsOn {t : Symbol} (first : item.waitsOn s = true)
    (second : item.waitsOn t = true) : s = t := by
  have same := (waitsOn_iff.mp first).symm.trans (waitsOn_iff.mp second)
  exact Option.some.inj (Except.ok.inj same)

theorem dot_bounds_of_waitsOn (waits : item.waitsOn s = true) :
    -(item.body.length : Int) ≤ item.dot ∧ item.dot < item.body.length := by
  have readable := waitsOn_iff.mp waits
  unfold next at readable
  split at readable
  · simp at readable
  · cases found : position .noSymbol item.body.length item.dot with
    | error fault => simp [found, Except.map] at readable
    | ok place => exact bounds_of_position found

theorem not_isComplete_of_waitsOn (waits : item.waitsOn s = true) : item.isComplete = false := by
  have inside := (dot_bounds_of_waitsOn waits).2
  cases complete : item.isComplete with
  | false => rfl
  | true =>
    have reached := isComplete_iff.mp complete
    omega

theorem mem_body_of_waitsOn (waits : item.waitsOn s = true) : s ∈ item.body := by
  have readable := waitsOn_iff.mp waits
  unfold next at readable
  split at readable
  · simp at readable
  · cases found : position .noSymbol item.body.length item.dot with
    | error fault => simp [found, Except.map] at readable
    | ok place =>
      simp only [found, Except.map, Except.ok.injEq] at readable
      exact List.mem_of_getElem? readable

def Readable (item : Item) : Prop := ∃ next, item.next = .ok next

theorem readable_of_low (low : -(item.body.length : Int) ≤ item.dot) : item.Readable := by
  unfold Readable next
  split
  · exact ⟨none, rfl⟩
  · rename_i short
    have high : item.dot < item.body.length := by
      have reached := mt isComplete_iff.mpr short
      omega
    rw [position_of_bounds .noSymbol low high]
    exact ⟨_, rfl⟩

theorem readable_moved_of_waitsOn (waits : item.waitsOn s = true) : item.moved.Readable := by
  have low := (dot_bounds_of_waitsOn waits).1
  apply readable_of_low
  rw [body_moved, dot_moved]
  omega

theorem readable_fresh (p : Production) (origin : Int) : (fresh p origin).Readable := by
  apply readable_of_low
  rw [dot_fresh]
  omega

theorem mem_map_moved_filter {items : List Item} {x : Item} :
    x ∈ (items.filter (·.waitsOn s)).map moved ↔
      ∃ item ∈ items, item.waitsOn s = true ∧ x = item.moved := by
  rw [List.mem_map]
  constructor
  · rintro ⟨item, listed, rfl⟩
    obtain ⟨member, waits⟩ := List.mem_filter.mp listed
    exact ⟨item, member, waits, rfl⟩
  · rintro ⟨item, member, waits, rfl⟩
    exact ⟨item, List.mem_filter.mpr ⟨member, waits⟩, rfl⟩

theorem retreated_moved (item : Item) : item.moved.retreated = item := by
  unfold retreated
  rw [dot_moved, Int.add_sub_cancel]
  rfl

theorem moved_retreated (item : Item) : item.retreated.moved = item := by
  unfold retreated moved
  rw [Int.sub_add_cancel]

theorem moved_injective {first second : Item} (same : first.moved = second.moved) :
    first = second := by
  rw [← retreated_moved first, same, retreated_moved]

def movedBy (item : Item) (n : Nat) : Item := { item with dot := item.dot + n }

theorem movedBy_zero (item : Item) : item.movedBy 0 = item := by
  unfold movedBy
  rw [Int.natCast_zero, Int.add_zero]

theorem movedBy_moved (item : Item) (n : Nat) : item.moved.movedBy n = item.movedBy (n + 1) := by
  have dots : item.dot + 1 + (n : Int) = item.dot + ((n + 1 : Nat) : Int) := by omega
  unfold movedBy moved
  rw [dots]

end Item

end Earley
