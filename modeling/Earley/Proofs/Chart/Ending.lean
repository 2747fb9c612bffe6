import Earley.Proofs.Chart.Stock

/-!
# A pass ends

A pass is given a number of turns that it may take.  `Passes` is the pass without such a number: it
goes on while the column has an item that has not had its turn, also when every turn takes in more.
It ends all the same, for any chart, grammar and index, and closing a column is how it ends.
-/

set_option autoImplicit false

namespace Earley

namespace Chart

variable {chart : Chart} {grammar : Grammar} {index : Int} {place visited : Nat} {consulted : Bool}

/-- The pass over the column at `place` goes on from the item behind the visited ones, as long as
there is one, and ends in the closing.  A pass that goes on for ever ends in none. -/
inductive Passes (grammar : Grammar) (index : Int) (place : Nat) :
    Nat → Bool → Chart → Closing → Prop
  | done {visited : Nat} {consulted : Bool} {chart : Chart}
      (none_left : (chart.itemsAt place)[visited]? = none) :
      Passes grammar index place visited consulted chart ⟨⟨chart, consulted, none⟩, visited⟩
  | faulty {visited : Nat} {consulted read : Bool} {chart after : Chart} {item : Item}
      {fault : Fault} (turn : (chart.itemsAt place)[visited]? = some item)
      (outcome : chart.visit grammar item index = ⟨after, read, some fault⟩) :
      Passes grammar index place visited consulted chart
        ⟨⟨after, consulted || read, some fault⟩, visited + 1⟩
  | turn {visited : Nat} {consulted read : Bool} {chart after : Chart} {item : Item}
      {closing : Closing} (turn : (chart.itemsAt place)[visited]? = some item)
      (outcome : chart.visit grammar item index = ⟨after, read, none⟩)
      (rest : Passes grammar index place (visited + 1) (consulted || read) after closing) :
      Passes grammar index place visited consulted chart closing

theorem Passes.eq {first second : Closing}
    (passes : Passes grammar index place visited consulted chart first)
    (other : Passes grammar index place visited consulted chart second) : first = second := by
  induction passes with
  | done none_left =>
    cases other with
    | done => rfl
    | faulty turn => simp [none_left] at turn
    | turn turn => simp [none_left] at turn
  | faulty turn outcome =>
    cases other with
    | done none_left => simp [none_left] at turn
    | faulty again same =>
      cases turn.symm.trans again
      cases outcome.symm.trans same
      rfl
    | turn again same =>
      cases turn.symm.trans again
      cases outcome.symm.trans same
  | turn turn outcome _ ih =>
    cases other with
    | done none_left => simp [none_left] at turn
    | faulty again same =>
      cases turn.symm.trans again
      cases outcome.symm.trans same
    | turn again same rest =>
      cases turn.symm.trans again
      cases outcome.symm.trans same
      exact ih rest

/-- A pass with a limit that ends at a fault or behind the last item has not met its limit. -/
theorem closeFrom_passes (fuel : Nat)
    (ended : (closeFrom grammar index place fuel visited consulted chart).fault = none →
      ((closeFrom grammar index place fuel visited consulted chart).chart.itemsAt place).length ≤
        (closeFrom grammar index place fuel visited consulted chart).visited) :
    Passes grammar index place visited consulted chart
      (closeFrom grammar index place fuel visited consulted chart) := by
  induction fuel generalizing visited consulted chart with
  | zero => exact .done (List.getElem?_eq_none (ended rfl))
  | succ fuel ih =>
    simp only [closeFrom, itemsAt_getElem?] at ended ⊢
    cases turn : (chart.itemsAt place)[visited]? with
    | none => exact .done turn
    | some item =>
      simp only [turn] at ended ⊢
      cases outcome : chart.visit grammar item index with
      | mk after read fault =>
        rw [outcome] at ended
        cases fault with
        | some fault => exact .faulty turn outcome
        | none => exact .turn turn outcome (ih ended)

theorem visited_closeFrom_le (grammar : Grammar) (index : Int) (place fuel visited : Nat)
    (consulted : Bool) (chart : Chart) :
    (closeFrom grammar index place fuel visited consulted chart).visited ≤ visited + fuel := by
  induction fuel generalizing visited consulted chart with
  | zero => exact Nat.le_refl _
  | succ fuel ih =>
    simp only [closeFrom, itemsAt_getElem?]
    cases (chart.itemsAt place)[visited]? with
    | none => exact Nat.le_add_right _ _
    | some item =>
      dsimp only
      cases chart.visit grammar item index with
      | mk after read fault =>
        cases fault with
        | some fault =>
          dsimp only
          omega
        | none =>
          have further := ih (visited + 1) (consulted || read) after
          dsimp only
          omega

theorem Passes.of_withNullable {closing : Closing}
    (passes : Passes grammar.withNullable index place visited consulted chart closing) :
    Passes grammar index place visited consulted chart closing := by
  induction passes with
  | done none_left => exact .done none_left
  | faulty turn outcome => exact .faulty turn outcome
  | turn turn outcome _ ih => exact .turn turn outcome ih

theorem close_passes (found : chart.place index = .ok place) :
    Passes grammar index place 0 false chart (chart.close grammar index) := by
  have closed : chart.close grammar index = closeFrom grammar.withNullable index place
      (chart.itemBound grammar) 0 false chart := by
    simp only [close, found]
  have ended : (chart.close grammar index).fault = none →
      ((chart.close grammar index).chart.itemsAt place).length ≤
        (chart.close grammar index).visited :=
    fun faultless => Nat.le_of_eq (visited_close found faultless).symm
  rw [closed] at ended ⊢
  exact (closeFrom_passes _ ended).of_withNullable

/-- Closing a column is how the pass over it ends. -/
theorem passes_iff_eq_close (found : chart.place index = .ok place) (closing : Closing) :
    Passes grammar index place 0 false chart closing ↔ closing = chart.close grammar index := by
  constructor
  · intro passes
    exact passes.eq (close_passes found)
  · rintro rfl
    exact close_passes found

theorem visited_close_le (chart : Chart) (grammar : Grammar) (index : Int) :
    (chart.close grammar index).visited ≤ chart.itemBound grammar := by
  cases found : chart.place index with
  | error fault =>
    simp only [close, found]
    exact Nat.zero_le _
  | ok place =>
    have turns := visited_closeFrom_le grammar.withNullable index place
      (chart.itemBound grammar) 0 false chart
    simp only [close, found]
    omega

end Chart

end Earley
