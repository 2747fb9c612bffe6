import Earley.Chart.Closure
import Earley.Proofs.Chart.Taking
import Earley.Proofs.Grammar.Reachable

/-!
# Charts that agree up to a column

Two charts may have different numbers of columns and still have the same ones up to some column.
The turn of an item of such a column sees and changes only these: it reads the column where the
item began and takes items into its own.  So charts that agree before the turn agree after it.
The grammars of the two turns have to treat alike only the symbol after the dot.
-/

set_option autoImplicit false

namespace Earley

namespace Chart

/-- Two charts have the same start symbol and the same columns up to the one at `last`. -/
structure Agree (last : Nat) (first second : Chart) : Prop where
  start : first.start = second.start
  inside : last < first.columns.size
  columns : ∀ k ≤ last, first.columns[k]? = second.columns[k]?

variable {last i k : Nat} {first second : Chart}

theorem Agree.symm (agree : Agree last first second) : Agree last second first where
  start := agree.start.symm
  inside := by
    have same := agree.columns last (Nat.le_refl last)
    rw [Array.getElem?_eq_getElem agree.inside, eq_comm, Array.getElem?_eq_some_iff] at same
    exact same.1
  columns := fun k early => (agree.columns k early).symm

theorem Agree.eq_of_size (agree : Agree last first second)
    (firstSize : first.columns.size = last + 1) (secondSize : second.columns.size = last + 1) :
    first = second := by
  have columns : first.columns = second.columns := by
    apply Array.ext_getElem?
    intro k
    by_cases early : k ≤ last
    · exact agree.columns k early
    · rw [Array.getElem?_eq_none (by omega), Array.getElem?_eq_none (by omega)]
  exact congr (congrArg Chart.mk agree.start) columns

section

variable (agree : Agree last first second)

include agree

theorem Agree.itemsAt (early : k ≤ last) : first.itemsAt k = second.itemsAt k := by
  simp only [Chart.itemsAt, agree.columns k early]

theorem Agree.place (early : k ≤ last) :
    first.place k = .ok k ∧ second.place k = .ok k := by
  have firstInside := agree.inside
  have secondInside := agree.symm.inside
  exact ⟨place_natCast (by omega), place_natCast (by omega)⟩

theorem Agree.column (early : k ≤ last) : first.column k = second.column k := by
  obtain ⟨firstPlace, secondPlace⟩ := agree.place early
  simp only [Chart.column, firstPlace, secondPlace, bind, Except.bind, agree.columns k early]

theorem Agree.addAll (early : i ≤ last) (items : List Item) :
    (first.addAll i items).2 = (second.addAll i items).2 ∧
      Agree last (first.addAll i items).1 (second.addAll i items).1 := by
  obtain ⟨firstPlace, secondPlace⟩ := agree.place early
  have same := agree.columns i early
  unfold Chart.addAll
  simp only [firstPlace, secondPlace, same]
  split
  · exact ⟨rfl, agree⟩
  · cases second.columns[i]? with
    | none => exact ⟨rfl, agree⟩
    | some column =>
      have firstInside : i < first.columns.size := Nat.lt_of_le_of_lt early agree.inside
      have secondInside : i < second.columns.size := Nat.lt_of_le_of_lt early agree.symm.inside
      refine ⟨rfl, agree.start, by simpa using agree.inside, fun k early => ?_⟩
      by_cases here : i = k
      · subst here
        simp [firstInside, secondInside]
      · simp [Array.getElem?_setIfInBounds_ne here, agree.columns k early]

end

end Chart

structure Outcome.Agree (last : Nat) (first second : Outcome) : Prop where
  fault : first.fault = second.fault
  chart : Chart.Agree last first.chart second.chart

namespace Chart.Agree

variable {last i k : Nat} {first second : Chart} {grammar other : Grammar} {item : Item}
  (agree : Agree last first second) (early : i ≤ last)

include agree early

theorem ofAddition (items : List Item) :
    Outcome.Agree last (.ofAddition (first.addAll i items))
      (.ofAddition (second.addAll i items)) :=
  ⟨(agree.addAll early items).1, (agree.addAll early items).2⟩

theorem scanColumn (later : i + 1 ≤ last) (character : String) :
    Outcome.Agree last (first.scanColumn i character) (second.scanColumn i character) := by
  unfold Chart.scanColumn
  rw [agree.column early]
  split
  · exact ⟨rfl, agree⟩
  · cases second.column i with
    | error fault => exact ⟨rfl, agree⟩
    | ok column => exact agree.ofAddition later _

theorem complete (origin : item.origin = k) (began : k ≤ last) :
    Outcome.Agree last (first.complete item i) (second.complete item i) := by
  unfold Chart.complete
  rw [origin, agree.column began]
  cases second.column k with
  | error fault => exact ⟨rfl, agree⟩
  | ok column => exact agree.ofAddition early _

theorem predict {s : Symbol} (waits : item.waitsOn s = true) (same : grammar.SameOn other s) :
    Outcome.Agree last (first.predict grammar item i) (second.predict other item i) := by
  have begun : predicted grammar i (some s) = predicted other i (some s) := by
    simp only [predicted, same.rules]
  have skips : skipped grammar item (some s) = skipped other item (some s) := by
    simp only [skipped, same.nullable]
  unfold Chart.predict
  rw [Item.waitsOn_iff.mp waits]
  dsimp only
  rw [begun, skips]
  obtain ⟨faults, charts⟩ := agree.addAll early (predicted other i (some s))
  cases middle : first.addAll i (predicted other i (some s)) with
  | mk firstMiddle firstFault =>
    cases others : second.addAll i (predicted other i (some s)) with
    | mk secondMiddle secondFault =>
      rw [middle, others] at faults charts
      subst faults
      cases firstFault with
      | some fault => exact ⟨rfl, charts⟩
      | none => exact ⟨(charts.addAll early _).1, (charts.addAll early _).2⟩

theorem visit (origin : item.origin = k) (began : k ≤ last)
    (same : ∀ name, item.waitsOn (.nonterminal name) = true →
      grammar.SameOn other (.nonterminal name)) :
    Outcome.Agree last (first.visit grammar item i) (second.visit other item i) := by
  unfold Chart.visit
  split
  · exact agree.complete early origin began
  · split
    · exact ⟨rfl, agree⟩
    · rename_i name next
      have waits := Item.waitsOn_iff.mpr next
      exact agree.predict early waits (same name waits)
    · exact ⟨rfl, agree⟩

end Chart.Agree

end Earley
