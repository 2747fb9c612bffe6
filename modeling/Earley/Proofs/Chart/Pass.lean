import Earley.Proofs.Chart.Turn

/-!
# The pass over a column

What the turn of an item keeps, the pass over a column keeps, and the pass ends at the end of the
column, without fuel or at a fault.
-/

set_option autoImplicit false

namespace Earley

namespace Chart

variable {chart : Chart} {grammar : Grammar} {item : Item} {index : Int} {place : Nat}

theorem visit_withNullable :
    chart.visit grammar.withNullable item index = chart.visit grammar item index := rfl

theorem Follows.of_same {other : Grammar} {x : Item}
    (follows : chart.Follows grammar index item x)
    (productions : other.productions = grammar.productions)
    (nullables : other.nullable = grammar.nullable) : chart.Follows other index item x := by
  cases follows with
  | predicted member waits => exact .predicted (productions ▸ member) waits
  | skipped nullable waits => exact .skipped (nullables ▸ nullable) waits
  | completed complete found member waits => exact .completed complete found member waits

theorem follows_withNullable {x : Item} :
    chart.Follows grammar.withNullable index item x ↔ chart.Follows grammar index item x :=
  ⟨fun follows => follows.of_same rfl rfl, fun follows => follows.of_same rfl rfl⟩

theorem itemsAt_getElem? (chart : Chart) (place visited : Nat) :
    (chart.columns[place]?.bind fun column => column.items[visited]?) =
      (chart.itemsAt place)[visited]? := by
  unfold itemsAt
  cases chart.columns[place]? with
  | none => rfl
  | some column => rfl

/-! ## What a pass keeps -/

/-- One turn of a pass keeps what `motive` says of the number of visited items and the chart. -/
def TurnKeeps (grammar : Grammar) (index : Int) (place : Nat) (motive : Nat → Chart → Prop) :
    Prop :=
  ∀ visited chart item batch after, motive visited chart →
    (chart.itemsAt place)[visited]? = some item → chart.Takes after place batch →
    (∀ x, x ∈ batch ↔ chart.Follows grammar index item x) → motive (visited + 1) after

/-- Where a pass can end: behind the last item, without fuel, or at the fault of a turn. -/
inductive PassEnd (grammar : Grammar) (index : Int) (place budget : Nat)
    (motive : Nat → Chart → Prop) (closing : Closing) : Prop
  | finished (faultless : closing.fault = none) (holds : motive closing.visited closing.chart)
      (all : (closing.chart.itemsAt place).length ≤ closing.visited)
  | exhausted (faultless : closing.fault = none) (holds : motive closing.visited closing.chart)
      (spent : closing.visited = budget)
  | faulty {visited : Nat} {item : Item} {fault : Fault} (failed : closing.fault = some fault)
      (counted : closing.visited = visited + 1) (holds : motive visited closing.chart)
      (turn : (closing.chart.itemsAt place)[visited]? = some item)
      (same : closing.chart.visit grammar item index = ⟨closing.chart, false, some fault⟩)

theorem closeFrom_passEnd {motive : Nat → Chart → Prop}
    (keeps : TurnKeeps grammar index place motive) (fuel visited : Nat) (consulted : Bool)
    (found : chart.place index = .ok place) (start : motive visited chart) :
    PassEnd grammar index place (visited + fuel) motive
      (closeFrom grammar index place fuel visited consulted chart) := by
  induction fuel generalizing visited consulted chart with
  | zero => exact .exhausted rfl start rfl
  | succ fuel ih =>
    unfold closeFrom
    rw [itemsAt_getElem?]
    cases turn : (chart.itemsAt place)[visited]? with
    | none => exact .finished rfl start (List.getElem?_eq_none_iff.mp turn)
    | some item =>
      dsimp only
      rcases turnTakes_or_fault grammar item found with ⟨faultless, batch, takes, follows⟩ | faulty
      · have found : (chart.visit grammar item index).chart.place index = .ok place := by
          rw [takes.place_eq, found]
        have holds := keeps visited chart item batch _ start turn takes follows
        cases outcome : chart.visit grammar item index with
        | mk after read fault =>
          rw [outcome] at faultless found holds
          subst faultless
          dsimp only
          have budget : visited + (fuel + 1) = visited + 1 + fuel := by omega
          rw [budget]
          exact ih (visited + 1) (consulted || read) found holds
      · obtain ⟨fault, same, _⟩ := faulty
        rw [same]
        exact .faulty rfl rfl start turn same

end Chart

end Earley
