import Earley.Chart.Table
import Earley.Proofs.Chart.Justified
import Earley.Proofs.Fallible

/-!
# Well-formed charts can be written

An item with its dot inside its body is written in a line and in a row of a table, and so is a chart
of such items in a listing and a table.  In a well-formed chart every item is well placed in its
column.  Then all dots are inside, and the symbol before a dot can be read.
-/

set_option autoImplicit false

namespace Earley

/-- Every item is well placed in its column. -/
def Chart.WellFormed (grammar : Grammar) (start : String) (chart : Chart) : Prop :=
  ∀ i, ∀ item ∈ chart.itemsAt i, item.WellPlaced grammar start i

variable {grammar : Grammar} {start : String} {chart : Chart} {column : Column} {item : Item}
  {i : Nat}

/-! ## Items -/

namespace Item

def DotInside (item : Item) : Prop := 0 ≤ item.dot ∧ item.dot ≤ item.body.length

def parts (item : Item) : List String :=
  (item.body.map Symbol.name).insertIdx item.dot.toNat dotMark

def line (item : Item) : String :=
  item.production.head ++ " → " ++ " ".intercalate item.parts ++ ", " ++ toString item.origin

def tableRow (number : Nat) (item : Item) : Row :=
  ⟨number, item.production.head, " ".intercalate item.parts, item.dot, item.origin⟩

theorem dotted_eq (inside : item.DotInside) : item.dotted = .ok (" ".intercalate item.parts) := by
  obtain ⟨low, high⟩ := inside
  have place : insertionPlace (item.body.map Symbol.name).length item.dot = item.dot.toNat := by
    rw [insertionPlace, fromFront, if_neg (by omega), List.length_map]
    omega
  have near : item.dot.natAbs ≤ item.body.length := by omega
  rw [dotted, if_pos (by simp [near])]
  simp only [place, parts]

theorem render_eq (inside : item.DotInside) : item.render = .ok item.line := by
  rw [render, dotted_eq inside]
  rfl

theorem row_eq (inside : item.DotInside) (number : Nat) :
    Chart.row number item = .ok (item.tableRow number) := by
  rw [Chart.row, dotted_eq inside]
  rfl

end Item

namespace Item.WellPlaced

variable (placed : item.WellPlaced grammar start i)

include placed

theorem dotInside : item.DotInside := ⟨placed.dot_nonneg, placed.dot_le⟩

theorem succeeds_render : Succeeds item.render fun _ => True :=
  ⟨item.line, render_eq placed.dotInside, trivial⟩

/-- Behind the front of the body there is a symbol before the dot. -/
theorem next_retreated (behind : item.dot ≠ 0) :
    ∃ s, item.retreated.next = .ok (some s) ∧ item.body[item.dot.toNat - 1]? = some s := by
  have low := placed.dot_nonneg
  have high := placed.dot_le
  have inside : item.dot.toNat - 1 < item.body.length := by omega
  have dot : item.retreated.dot = (item.dot.toNat - 1 : Nat) := by
    unfold retreated
    dsimp only
    omega
  have found := List.getElem?_eq_getElem inside
  refine ⟨_, ?_, found⟩
  rw [next_of_natCast dot]
  exact congrArg Except.ok found

end Item.WellPlaced

/-- The dot never moves over an epsilon. -/
theorem Item.WellPlaced.solid_of_moved (placed : item.moved.WellPlaced grammar start i)
    (behind : item.moved.dot ≠ 0) {s : Symbol} (waits : item.waitsOn s = true) :
    s.isEpsilon = false := by
  have filled : item.production.isEmpty = false :=
    Bool.eq_false_iff.mpr fun empty => behind (placed.dot_of_empty empty)
  exact Production.solid_of_mem_body filled (Item.mem_body_of_waitsOn waits)

namespace Chart

/-! ## Listings and tables -/

theorem mem_numbered : (i, column) ∈ chart.numbered ↔ chart.columns[i]? = some column := by
  unfold numbered
  simp only [List.mem_map, Prod.exists, Prod.mk.injEq, List.mem_zipIdx_iff_getElem?,
    Array.getElem?_toList]
  constructor
  · rintro ⟨other, number, found, rfl, rfl⟩
    exact found
  · intro found
    exact ⟨column, i, found, rfl, rfl⟩

theorem WellFormed.placed (formed : chart.WellFormed grammar start)
    (numbered : (i, column) ∈ chart.numbered) (member : item ∈ column.items) :
    item ∈ chart.itemsAt i ∧ item.WellPlaced grammar start i := by
  rw [← itemsAt_of_some (mem_numbered.mp numbered)] at member
  exact ⟨member, formed i item member⟩

theorem WellFormed.dotInside (formed : chart.WellFormed grammar start) :
    ∀ entry ∈ chart.numbered, ∀ item ∈ entry.2.items, item.DotInside :=
  fun _ numbered _ member => (formed.placed numbered member).2.dotInside

def lines (chart : Chart) : List String :=
  chart.numbered.flatMap fun entry => heading entry.1 :: entry.2.items.map Item.line

theorem render_eq (inside : ∀ entry ∈ chart.numbered, ∀ item ∈ entry.2.items, item.DotInside) :
    chart.render = .ok ("\n".intercalate chart.lines) := by
  have blocks : ∀ entry ∈ chart.numbered,
      (do return heading entry.1 :: (← entry.2.items.mapM Item.render) : Except Fault _) =
        .ok (heading entry.1 :: entry.2.items.map Item.line) := by
    intro entry member
    rw [mapM_eq_ok fun item listed => Item.render_eq (inside entry member item listed)]
    rfl
  rw [render, mapM_eq_ok blocks, lines, List.flatMap_def]
  rfl

def tableRows (chart : Chart) : List Row :=
  chart.numbered.flatMap fun entry => entry.2.items.map (Item.tableRow entry.1)

theorem rows_eq (inside : ∀ entry ∈ chart.numbered, ∀ item ∈ entry.2.items, item.DotInside) :
    chart.rows = .ok chart.tableRows := by
  have blocks : ∀ entry ∈ chart.numbered, entry.2.items.mapM (row entry.1) =
      .ok (entry.2.items.map (Item.tableRow entry.1)) := fun entry member =>
    mapM_eq_ok fun item listed => Item.row_eq (inside entry member item listed) entry.1
  rw [rows, mapM_eq_ok blocks, tableRows, List.flatMap_def]
  rfl

theorem WellFormed.succeeds_render (formed : chart.WellFormed grammar start) :
    Succeeds chart.render fun _ => True :=
  ⟨_, render_eq formed.dotInside, trivial⟩

theorem WellFormed.succeeds_rows (formed : chart.WellFormed grammar start) :
    Succeeds chart.rows fun _ => True :=
  ⟨chart.tableRows, rows_eq formed.dotInside, trivial⟩

end Chart

end Earley
