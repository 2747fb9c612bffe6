import Earley.Chart.Closure
import Earley.Proofs.Chart.Taking
import Earley.Proofs.Grammar.Nullable

/-!
# The turn of one item

Whatever the chart, the turn of an item either ends in a fault and leaves the chart as it was, or
it takes one batch of items into the column.  `Chart.Follows` says which items are in the batch.
-/

set_option autoImplicit false

namespace Earley

namespace Chart

variable {chart : Chart} {grammar : Grammar} {item : Item} {index : Int} {place : Nat}

/-- What the turn of an item in the column at an index takes in there. -/
inductive Follows (chart : Chart) (grammar : Grammar) (index : Int) (item : Item) : Item → Prop
  | predicted {p : Production} (member : p ∈ grammar.productions)
      (waits : item.waitsOn p.lhs = true) : Follows chart grammar index item (.fresh p index)
  | skipped {s : Symbol} (nullable : s ∈ grammar.nullable) (waits : item.waitsOn s = true) :
      Follows chart grammar index item item.moved
  | completed {column : Column} {waiting : Item} (complete : item.isComplete = true)
      (found : chart.column item.origin = .ok column) (member : waiting ∈ column.items)
      (waits : waiting.waitsOn item.lhs = true) :
      Follows chart grammar index item waiting.moved

theorem mem_predicted {s : Symbol} {x : Item} :
    x ∈ predicted grammar index (some s) ↔
      ∃ p ∈ grammar.productions, p.lhs = s ∧ x = .fresh p index := by
  unfold predicted
  rw [List.mem_map]
  constructor
  · rintro ⟨p, member, rfl⟩
    obtain ⟨member, same⟩ := Grammar.mem_rulesFor.mp member
    exact ⟨p, member, same, rfl⟩
  · rintro ⟨p, member, same, rfl⟩
    exact ⟨p, Grammar.mem_rulesFor.mpr ⟨member, same⟩, rfl⟩

theorem mem_skipped {s : Symbol} {x : Item} :
    x ∈ skipped grammar item (some s) ↔ s ∈ grammar.nullable ∧ x = item.moved := by
  by_cases nullable : s ∈ grammar.nullable <;> simp [skipped, nullable]

/-! ## Prediction and completion -/

theorem predict_takes (grammar : Grammar) {s : Symbol} (waits : item.waitsOn s = true)
    (found : chart.place index = .ok place) :
    (chart.predict grammar item index).fault = none ∧
      chart.Takes (chart.predict grammar item index).chart place
        (predicted grammar index (some s) ++ skipped grammar item (some s)) := by
  have begun : ∀ x ∈ predicted grammar index (some s), x.Readable := by
    intro x member
    obtain ⟨p, _, _, rfl⟩ := mem_predicted.mp member
    exact Item.readable_fresh p index
  have moved : ∀ x ∈ skipped grammar item (some s), x.Readable := by
    intro x member
    obtain ⟨_, rfl⟩ := mem_skipped.mp member
    exact Item.readable_moved_of_waitsOn waits
  unfold predict
  rw [Item.waitsOn_iff.mp waits]
  dsimp only
  obtain ⟨faultless, takes⟩ := addAll_of_place begun found
  cases first : chart.addAll index (predicted grammar index (some s)) with
  | mk middle fault =>
    rw [first] at faultless takes
    subst faultless
    have found : middle.place index = .ok place := by rw [takes.place_eq, found]
    obtain ⟨faultless, more⟩ := addAll_of_place moved found
    exact ⟨faultless, takes.trans more⟩

theorem complete_takes {column : Column} (origin : chart.column item.origin = .ok column)
    (found : chart.place index = .ok place) :
    (chart.complete item index).fault = none ∧
      chart.Takes (chart.complete item index).chart place
        ((column.waitingOn item.lhs).map Item.moved) := by
  unfold complete
  rw [origin]
  exact addAll_of_place (column.readable_map_moved_waitingOn item.lhs) found

/-! ## The turn -/

def TurnTakes (chart : Chart) (grammar : Grammar) (item : Item) (index : Int) (place : Nat) :
    Prop :=
  (chart.visit grammar item index).fault = none ∧ ∃ batch,
    chart.Takes (chart.visit grammar item index).chart place batch ∧
      ∀ x, x ∈ batch ↔ chart.Follows grammar index item x

theorem visit_of_waitsOn {name : String} (waits : item.waitsOn (.nonterminal name) = true) :
    chart.visit grammar item index = chart.predict grammar item index := by
  unfold visit
  rw [if_neg (by simp [Item.not_isComplete_of_waitsOn waits]), Item.waitsOn_iff.mp waits]

theorem visit_of_isComplete (complete : item.isComplete = true) :
    chart.visit grammar item index = chart.complete item index := by
  unfold visit
  rw [if_pos complete]

theorem turnTakes_of_waitsOn {name : String} (waits : item.waitsOn (.nonterminal name) = true)
    (found : chart.place index = .ok place) : chart.TurnTakes grammar item index place := by
  obtain ⟨faultless, takes⟩ := predict_takes grammar waits found
  unfold TurnTakes
  rw [visit_of_waitsOn waits]
  refine ⟨faultless, _, takes, fun x => ?_⟩
  rw [List.mem_append, mem_predicted, mem_skipped]
  have only : ∀ s, item.waitsOn s = true → s = .nonterminal name :=
    fun s other => Item.eq_of_waitsOn other waits
  constructor
  · rintro (⟨p, member, same, rfl⟩ | ⟨nullable, rfl⟩)
    · exact .predicted member (same ▸ waits)
    · exact .skipped nullable waits
  · rintro (@⟨p, member, waits⟩ | @⟨s, nullable, waits⟩ | ⟨complete, _, _, _⟩)
    · exact .inl ⟨p, member, only _ waits, rfl⟩
    · exact .inr ⟨only _ waits ▸ nullable, rfl⟩
    · exact absurd complete (by simp [Item.not_isComplete_of_waitsOn waits])

theorem turnTakes_of_isComplete (complete : item.isComplete = true) {column : Column}
    (origin : chart.column item.origin = .ok column) (found : chart.place index = .ok place) :
    chart.TurnTakes grammar item index place := by
  obtain ⟨faultless, takes⟩ := complete_takes origin found
  unfold TurnTakes
  rw [visit_of_isComplete complete]
  refine ⟨faultless, _, takes, fun x => ?_⟩
  have idle : ∀ s, item.waitsOn s ≠ true := by
    intro s waits
    simp [Item.not_isComplete_of_waitsOn waits] at complete
  rw [Column.mem_map_moved_waitingOn]
  constructor
  · rintro ⟨waiting, member, waits, rfl⟩
    exact .completed complete origin member waits
  · rintro (⟨_, waits⟩ | ⟨_, waits⟩ | @⟨other, waiting, _, there, member, waits⟩)
    · exact absurd waits (idle _)
    · exact absurd waits (idle _)
    · rw [origin] at there
      cases there
      exact ⟨waiting, member, waits, rfl⟩

theorem turnTakes_of_next {next : Option Symbol} (read : item.next = .ok next)
    (short : item.isComplete = false) (other : ∀ name, next ≠ some (.nonterminal name)) :
    chart.TurnTakes grammar item index place := by
  have same : chart.visit grammar item index = ⟨chart, false, none⟩ := by
    unfold visit
    rw [if_neg (by simp [short]), read]
    split
    · rename_i read
      cases read
    · rename_i name read
      exact absurd (Except.ok.inj read) (other name)
    · rfl
  unfold TurnTakes
  rw [same]
  refine ⟨rfl, [], .nothing chart place, fun x => ⟨?_, ?_⟩⟩
  · intro member
    exact absurd member List.not_mem_nil
  have idle : ∀ name, item.waitsOn (.nonterminal name) ≠ true := by
    intro name waits
    rw [Item.waitsOn_iff.mp waits] at read
    exact other name (Except.ok.inj read).symm
  rintro (⟨_, waits⟩ | ⟨nullable, waits⟩ | ⟨complete, _, _, _⟩)
  · exact absurd waits (idle _)
  · obtain ⟨name, rfl⟩ := Grammar.nonterminal_of_mem_nullable nullable
    exact absurd waits (idle name)
  · exact absurd complete (by simp [short])

theorem visit_of_column_error {fault : Fault} (complete : item.isComplete = true)
    (missing : chart.column item.origin = .error fault) :
    chart.visit grammar item index = ⟨chart, false, some fault⟩ := by
  unfold visit Chart.complete
  rw [if_pos complete, missing]

theorem visit_of_next_error {fault : Fault} (unread : item.next = .error fault) :
    chart.visit grammar item index = ⟨chart, false, some fault⟩ := by
  have short : ¬ item.isComplete = true := by
    intro complete
    rw [Item.next_of_isComplete complete] at unread
    cases unread
  unfold visit
  rw [if_neg short, unread]

/-- The turn of an item takes a batch in, or it changes nothing and ends in a fault: the column
where a complete item began does not exist, or the symbol after the dot cannot be read. -/
theorem turnTakes_or_fault (grammar : Grammar) (item : Item)
    (found : chart.place index = .ok place) :
    chart.TurnTakes grammar item index place ∨ ∃ fault,
      chart.visit grammar item index = ⟨chart, false, some fault⟩ ∧
        (item.isComplete = true ∧ chart.column item.origin = .error fault ∨
          item.next = .error fault) := by
  cases complete : item.isComplete with
  | true =>
    cases origin : chart.column item.origin with
    | error fault =>
      exact .inr ⟨fault, visit_of_column_error complete origin, .inl ⟨rfl, rfl⟩⟩
    | ok column => exact .inl (turnTakes_of_isComplete complete origin found)
  | false =>
    cases read : item.next with
    | error fault => exact .inr ⟨fault, visit_of_next_error read, .inr rfl⟩
    | ok next =>
      by_cases waits : ∃ name, next = some (.nonterminal name)
      · obtain ⟨name, rfl⟩ := waits
        exact .inl (turnTakes_of_waitsOn (Item.waitsOn_iff.mpr read) found)
      · exact .inl (turnTakes_of_next read complete fun name same => waits ⟨name, same⟩)

end Chart

end Earley
