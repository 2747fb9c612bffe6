import Earley.Chart.Table
import Earley.Proofs.Chart.Display
import Earley.Proofs.Legible

/-!
# Listings and tables read back

In the listing of a chart a column begins at a heading, which is a line that begins with a dash; the
line of an item never does.  So the listing tells the items of every column.  In the table the rows
of a column have its number, and a column without items leaves no trace; with the number of columns
the table tells the items as well.
-/

set_option autoImplicit false

namespace Earley

def Chart.contents (chart : Chart) : List (List Item) := chart.columns.toList.map Column.items

def Chart.Legible (chart : Chart) : Prop := ∀ items ∈ chart.contents, ∀ item ∈ items, item.Legible

theorem Chart.length_contents (chart : Chart) : chart.contents.length = chart.columns.size := by
  rw [contents, List.length_map, Array.length_toList]

theorem eq_of_map_map_line {contents others : List (List Item)}
    (legible : ∀ items ∈ contents, ∀ item ∈ items, item.Legible)
    (fine : ∀ items ∈ others, ∀ item ∈ items, item.Legible)
    (same : contents.map (List.map Item.line) = others.map (List.map Item.line)) :
    contents = others := by
  refine eq_of_map_eq ?_ legible fine same
  intro items first more second
  exact eq_of_map_eq (fun _ legible _ fine => legible.eq_of_line fine) first second

/-! ## Listings -/

def isHeading (line : String) : Bool := line.toList.head? == some '-'

/-- Behind some lines, the lines of several blocks are cut at the blocks' titles. -/
theorem splitOnP_flatMap {α : Type} {title : α → String} {body : α → List String} {xs : List α}
    (titled : ∀ x ∈ xs, isHeading (title x) = true)
    (plain : ∀ x ∈ xs, ∀ line ∈ body x, isHeading line = false) (before : List String) :
    (before ++ xs.flatMap fun x => title x :: body x).splitOnP isHeading =
      before.splitOnP isHeading ++ xs.map body := by
  induction xs generalizing before with
  | nil => simp
  | cons x xs ih =>
    rw [List.forall_mem_cons] at titled plain
    rw [List.flatMap_cons, ← List.append_assoc, ih titled.2 plain.2,
      List.splitOnP_append_cons before (body x) titled.1, List.splitOnP_eq_singleton plain.1,
      List.append_assoc, List.map_cons, List.singleton_append]

namespace Chart

theorem headingFront_toList : "------ State set ".toList = '-' :: "----- State set ".toList := by
  decide

theorem toList_heading (number : Nat) : (heading number).toList =
    "------ State set ".toList ++ Nat.toDigits 10 number ++ " ------".toList := by
  unfold heading
  rw [String.toList_append, String.toList_append]
  exact congrArg (_ ++ · ++ _) Nat.toList_repr

theorem isHeading_heading (number : Nat) : isHeading (heading number) = true := by
  unfold isHeading
  rw [toList_heading, headingFront_toList]
  rfl

theorem feed_not_mem_heading (number : Nat) : '\n' ∉ (heading number).toList := by
  have front : '\n' ∉ "------ State set ".toList := by decide
  have back : '\n' ∉ " ------".toList := by decide
  rw [toList_heading, List.mem_append, List.mem_append, not_or, not_or]
  exact ⟨⟨front, not_mem_toDigits (by decide) number⟩, back⟩

variable {chart other : Chart}

theorem map_items_numbered (chart : Chart) :
    chart.numbered.map (fun entry => entry.2.items) = chart.contents := by
  calc chart.numbered.map (fun entry => entry.2.items)
      = (chart.columns.toList.zipIdx.map Prod.fst).map Column.items := by
        rw [numbered, List.map_map, List.map_map]
        rfl
    _ = chart.contents := by rw [List.zipIdx_map_fst, contents]

theorem lines_ne_nil (some_column : 0 < chart.columns.size) : chart.lines ≠ [] := by
  have first : (0, chart.columns[0]) ∈ chart.numbered :=
    mem_numbered.mpr (Array.getElem?_eq_getElem some_column)
  exact List.ne_nil_of_mem (List.mem_flatMap.mpr ⟨_, first, List.mem_cons_self⟩)

namespace Legible

section

variable (legible : chart.Legible)

include legible

theorem of_numbered : ∀ entry ∈ chart.numbered, ∀ item ∈ entry.2.items, item.Legible := by
  intro entry member
  apply legible
  rw [← map_items_numbered]
  exact List.mem_map_of_mem member

theorem dotInside : ∀ entry ∈ chart.numbered, ∀ item ∈ entry.2.items, item.DotInside :=
  fun entry member item listed => (legible.of_numbered entry member item listed).dotInside

theorem feed_not_mem_lines : ∀ line ∈ chart.lines, '\n' ∉ line.toList := by
  intro line member
  obtain ⟨entry, listed, inside⟩ := List.mem_flatMap.mp member
  rcases List.mem_cons.mp inside with rfl | below
  · exact feed_not_mem_heading entry.1
  · obtain ⟨item, there, rfl⟩ := List.mem_map.mp below
    exact (legible.of_numbered entry listed item there).feed_not_mem_line

/-- Cut at its headings, the listing gives the lines of each column. -/
theorem splitOnP_lines :
    chart.lines.splitOnP isHeading = [] :: chart.contents.map (List.map Item.line) := by
  have plain : ∀ entry ∈ chart.numbered, ∀ line ∈ entry.2.items.map Item.line,
      isHeading line = false := by
    intro entry member line listed
    obtain ⟨item, there, rfl⟩ := List.mem_map.mp listed
    exact beq_false_of_ne (legible.of_numbered entry member item there).head?_line_ne_dash
  have titled : ∀ entry ∈ chart.numbered, isHeading (heading entry.1) = true :=
    fun entry _ => isHeading_heading entry.1
  have cut := splitOnP_flatMap titled plain []
  rw [List.nil_append, List.splitOnP_nil, List.singleton_append] at cut
  rw [lines, cut, ← map_items_numbered, List.map_map]
  rfl

end

/-- The listing of a chart tells the items of every column. -/
theorem contents_eq_of_render (legible : chart.Legible) (fine : other.Legible)
    (some_column : 0 < chart.columns.size) (some_other : 0 < other.columns.size)
    (same : chart.render = other.render) :
    chart.contents = other.contents := by
  rw [render_eq legible.dotInside, render_eq fine.dotInside] at same
  have lines := Text.eq_of_intercalate_eq rfl (lines_ne_nil some_column) (lines_ne_nil some_other)
    legible.feed_not_mem_lines fine.feed_not_mem_lines (Except.ok.inj same)
  have cuts := congrArg (List.splitOnP isHeading) lines
  rw [legible.splitOnP_lines, fine.splitOnP_lines] at cuts
  exact eq_of_map_map_line legible fine (List.cons.inj cuts).2

end Legible

end Chart

/-! ## Tables -/

theorem Item.Legible.eq_of_tableRow {item other : Item} (legible : item.Legible)
    (fine : other.Legible) {number : Nat}
    (same : item.tableRow number = other.tableRow number) : item = other := by
  obtain ⟨dot, body⟩ := legible.eq_of_dotted fine (congrArg Row.rhs same)
  exact ext_fields (congrArg Row.lhs same) body dot (congrArg Row.origin same)

def rowsFrom (number : Nat) : List (List Item) → List Row
  | [] => []
  | items :: rest => items.map (Item.tableRow number) ++ rowsFrom (number + 1) rest

theorem le_column_of_mem_rowsFrom {number : Nat} {contents : List (List Item)} {row : Row}
    (member : row ∈ rowsFrom number contents) : number ≤ row.column := by
  induction contents generalizing number with
  | nil => exact absurd member List.not_mem_nil
  | cons items rest ih =>
    rcases List.mem_append.mp member with here | later
    · obtain ⟨item, _, rfl⟩ := List.mem_map.mp here
      exact Nat.le_refl number
    · exact Nat.le_of_succ_le (ih later)

/-- The rows of the first column are those that have its number. -/
theorem filter_rowsFrom (number : Nat) (items : List Item) (rest : List (List Item)) :
    (rowsFrom number (items :: rest)).filter (·.column = number) =
      items.map (Item.tableRow number) := by
  have here : (items.map (Item.tableRow number)).filter (·.column = number) =
      items.map (Item.tableRow number) := by
    apply List.filter_eq_self.mpr
    intro row member
    obtain ⟨item, _, rfl⟩ := List.mem_map.mp member
    exact decide_eq_true rfl
  have later : (rowsFrom (number + 1) rest).filter (·.column = number) = [] := by
    apply List.filter_eq_nil_iff.mpr
    intro row member
    have behind := le_column_of_mem_rowsFrom member
    simp only [decide_eq_true_eq]
    omega
  rw [rowsFrom, List.filter_append, here, later, List.append_nil]

theorem eq_of_rowsFrom_eq {number : Nat} {contents others : List (List Item)}
    (legible : ∀ items ∈ contents, ∀ item ∈ items, item.Legible)
    (fine : ∀ items ∈ others, ∀ item ∈ items, item.Legible)
    (size : contents.length = others.length)
    (same : rowsFrom number contents = rowsFrom number others) : contents = others := by
  induction contents generalizing number others with
  | nil => exact (List.eq_nil_of_length_eq_zero size.symm).symm
  | cons items rest ih =>
    cases others with
    | nil => cases size
    | cons more later =>
      rw [List.forall_mem_cons] at legible fine
      -- The rows with the number are the first column, and what is left is the rest of the table.
      have first := congrArg (List.filter (·.column = number)) same
      rw [filter_rowsFrom, filter_rowsFrom] at first
      rw [rowsFrom, rowsFrom, first] at same
      have tails := ih legible.2 fine.2 (Nat.succ.inj size) (List.append_cancel_left same)
      have heads := eq_of_map_eq (fun _ legible _ fine => legible.eq_of_tableRow fine)
        legible.1 fine.1 first
      rw [heads, tails]

namespace Chart

variable {chart other : Chart}

theorem rowsFrom_map_items (number : Nat) (columns : List Column) :
    rowsFrom number (columns.map Column.items) =
      ((columns.zipIdx number).map fun (column, number) => (number, column)).flatMap
        fun entry => entry.2.items.map (Item.tableRow entry.1) := by
  induction columns generalizing number with
  | nil => rfl
  | cons column rest ih =>
    rw [List.map_cons, rowsFrom, ih, List.zipIdx_cons, List.map_cons, List.flatMap_cons]

theorem tableRows_eq (chart : Chart) : chart.tableRows = rowsFrom 0 chart.contents :=
  (rowsFrom_map_items 0 chart.columns.toList).symm

/-- The table of a chart and the number of columns tell the items of every column. -/
theorem Legible.contents_eq_of_rows (legible : chart.Legible) (fine : other.Legible)
    (size : chart.columns.size = other.columns.size) (same : chart.rows = other.rows) :
    chart.contents = other.contents := by
  rw [rows_eq legible.dotInside, rows_eq fine.dotInside] at same
  have tables := Except.ok.inj same
  rw [tableRows_eq, tableRows_eq] at tables
  refine eq_of_rowsFrom_eq legible fine ?_ tables
  rw [length_contents, length_contents, size]

end Chart

end Earley
