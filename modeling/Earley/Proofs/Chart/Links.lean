import Earley.Chart.Drawing
import Earley.Proofs.Chart.Display

/-!
# The graph of a well-formed chart

The graph is made from the columns alone.  Its nodes are the items of the columns, in order, and it
has an edge exactly where two items are linked: one is the beginning of a production of the symbol
after the dot of the other, or one is the other with the dot a symbol further, and the columns agree
with the symbol.  A link comes from an item of the chart, so the graph can be drawn.
-/

set_option autoImplicit false

namespace Earley

variable {grammar : Grammar} {start : String} {chart : Chart} {column : Column} {item : Item}
  {i k : Nat} {s : Symbol} {edge : Edge}

namespace Chart

/-- Column `i` has the symbol complete since column `k`. -/
def HasComplete (chart : Chart) (i : Nat) (s : Symbol) (k : Nat) : Prop :=
  ∃ inner ∈ chart.itemsAt i, inner.isComplete = true ∧ inner.lhs = s ∧ inner.origin = k

/-- What the columns show of one item coming from another. -/
inductive Links (chart : Chart) : Edge → Prop
  | predict {i : Nat} {p q : Item} (before : p ∈ chart.itemsAt i) (after : q ∈ chart.itemsAt i)
      (front : q.dot = 0) (waits : p.waitsOn q.lhs = true) :
      Links chart ⟨⟨i, p⟩, ⟨i, q⟩, .predict⟩
  | scan {k : Nat} {p : Item} {name : String} (before : p ∈ chart.itemsAt k)
      (after : p.moved ∈ chart.itemsAt (k + 1)) (waits : p.waitsOn (.terminal name) = true) :
      Links chart ⟨⟨k, p⟩, ⟨(k + 1 : Nat), p.moved⟩, .scan⟩
  | complete {k i : Nat} {p : Item} {name : String} (before : p ∈ chart.itemsAt k)
      (after : p.moved ∈ chart.itemsAt i) (waits : p.waitsOn (.nonterminal name) = true)
      (crossed : k = i ∨ chart.HasComplete i (.nonterminal name) k) :
      Links chart ⟨⟨k, p⟩, ⟨i, p.moved⟩, .complete⟩

def itemNodes (chart : Chart) : List Node :=
  chart.numbered.flatMap fun (number, column) => column.items.map (Node.mk number)

theorem mem_itemNodes {node : Node} :
    node ∈ chart.itemNodes ↔ ∃ i : Nat, node.column = i ∧ node.item ∈ chart.itemsAt i := by
  simp only [itemNodes, List.mem_flatMap, List.mem_map, Prod.exists, mem_numbered]
  constructor
  · rintro ⟨i, column, found, item, member, rfl⟩
    exact ⟨i, rfl, itemsAt_of_some found ▸ member⟩
  · rintro ⟨i, same, member⟩
    obtain ⟨column, found, _, items⟩ := exists_column (lt_size_of_mem_itemsAt member)
    exact ⟨i, column, found, node.item, items ▸ member, by rw [← same]⟩

theorem Links.source_mem (links : chart.Links edge) : edge.source ∈ chart.itemNodes := by
  rw [mem_itemNodes]
  cases links with
  | predict before => exact ⟨_, rfl, before⟩
  | scan before => exact ⟨_, rfl, before⟩
  | complete before => exact ⟨_, rfl, before⟩

theorem Links.target_mem (links : chart.Links edge) : edge.target ∈ chart.itemNodes := by
  rw [mem_itemNodes]
  cases links with
  | predict _ after => exact ⟨_, rfl, after⟩
  | scan _ after => exact ⟨_, rfl, after⟩
  | complete _ after => exact ⟨_, rfl, after⟩

/-- The dot of the target and the symbol after the dot of the source tell the step. -/
theorem Links.step_unique (formed : chart.WellFormed grammar start) {source target : Node}
    {first second : Step} (one : chart.Links ⟨source, target, first⟩)
    (other : chart.Links ⟨source, target, second⟩) : first = second := by
  have told : ∀ step, chart.Links ⟨source, target, step⟩ →
      (step = .predict ↔ target.item.dot = 0) ∧
        (step = .scan ↔ target.item.dot ≠ 0 ∧
          ∃ name, source.item.waitsOn (.terminal name) = true) := by
    intro step links
    cases links with
    | predict _ _ front => simp [front]
    | @scan k p name before _ waits =>
      have behind : p.dot + 1 ≠ 0 := by
        have late := (formed _ _ before).dot_nonneg
        omega
      simpa [behind] using ⟨name, waits⟩
    | @complete k i p name before _ waits =>
      have behind : p.dot + 1 ≠ 0 := by
        have late := (formed _ _ before).dot_nonneg
        omega
      simp only [reduceCtorEq, Item.dot_moved, behind, false_iff, true_and]
      rintro ⟨_, terminal, read⟩
      cases Item.eq_of_waitsOn waits read
  have predicts := (told first one).1.trans (told second other).1.symm
  have scans := (told first one).2.trans (told second other).2.symm
  cases first <;> cases second <;> simp at predicts scans ⊢

theorem completes_iff (found : chart.columns[i]? = some column) :
    completes column s k = true ↔ chart.HasComplete i s k := by
  simp [completes, HasComplete, itemsAt_of_some found, and_assoc]

theorem HasComplete.column_le (formed : chart.WellFormed grammar start)
    (complete : chart.HasComplete i s k) : k ≤ i := by
  obtain ⟨inner, member, _, _, origin⟩ := complete
  have late := (formed i inner member).origin_le
  omega

/-! ## The edges into an item -/

theorem succeeds_predictions (readable : ∀ parent ∈ column.items, parent.Readable) :
    Succeeds (predictions i column item) fun edges => ∀ edge, edge ∈ edges ↔
      ∃ parent ∈ column.items, parent.waitsOn item.lhs = true ∧ item.origin = i ∧
        edge = ⟨⟨i, parent⟩, ⟨i, item⟩, .predict⟩ := by
  have parents : ∀ parent ∈ column.items, Succeeds (do return (parent, ← parent.next))
      fun pair => pair.1 = parent ∧ parent.next = .ok pair.2 := by
    intro parent member
    obtain ⟨next, read⟩ := readable parent member
    rw [read]
    exact .ok ⟨rfl, rfl⟩
  refine (Succeeds.mapM parents).bind fun pairs ⟨fromItems, listed⟩ => .ok fun edge => ?_
  simp only [List.mem_filterMap, Prod.exists, Option.ite_none_right_eq_some, Option.some.injEq,
    Item.waitsOn_iff]
  constructor
  · rintro ⟨parent, next, member, ⟨waits, origin⟩, rfl⟩
    obtain ⟨_, there, rfl, read⟩ := fromItems _ member
    exact ⟨parent, there, waits ▸ read, origin, rfl⟩
  · rintro ⟨parent, there, read, origin, rfl⟩
    obtain ⟨⟨_, next⟩, member, rfl, same⟩ := listed parent there
    rw [read] at same
    exact ⟨_, next, member, ⟨(Except.ok.inj same).symm, origin⟩, rfl⟩

theorem mem_scans : edge ∈ chart.scans i item ↔ ∃ k, item.retreated ∈ chart.itemsAt k ∧
    i = k + 1 ∧ edge = ⟨⟨k, item.retreated⟩, ⟨i, item⟩, .scan⟩ := by
  cases i with
  | zero => simp [scans]
  | succ k =>
    simp only [Nat.succ_inj, and_left_comm (b := k = _), exists_eq_left']
    cases found : chart.columns[k]? with
    | none => simp [scans, found, itemsAt]
    | some column =>
      by_cases there : item.retreated ∈ column.items <;> simp [scans, found, itemsAt, there]

theorem succeeds_completionFrom (inside : k < chart.columns.size)
    (found : chart.columns[i]? = some column) (s : Symbol) :
    Succeeds (chart.completionFrom i column item s k) fun edges => ∀ edge, edge ∈ edges ↔
      item.retreated ∈ chart.itemsAt k ∧ (k = i ∨ chart.HasComplete i s k) ∧
        edge = ⟨⟨k, item.retreated⟩, ⟨i, item⟩, .complete⟩ := by
  obtain ⟨source, _, read, items⟩ := exists_column inside
  unfold completionFrom
  rw [read]
  refine .ok fun edge => ?_
  rw [items, ← completes_iff found, ← Int.natCast_inj (m := k)]
  split
  · rename_i linked
    rw [List.mem_singleton]
    exact ⟨fun same => ⟨linked.1, linked.2, same⟩, fun ⟨_, _, same⟩ => same⟩
  · rename_i unlinked
    simp only [List.not_mem_nil, false_iff]
    exact fun ⟨there, crossed, _⟩ => unlinked ⟨there, crossed⟩

theorem succeeds_completions (placed : item.WellPlaced grammar start i)
    (found : chart.columns[i]? = some column) (s : Symbol) :
    Succeeds (chart.completions i column item s) fun edges => ∀ edge, edge ∈ edges ↔
      ∃ k : Nat, item.origin ≤ k ∧ k ≤ i ∧ item.retreated ∈ chart.itemsAt k ∧
        (k = i ∨ chart.HasComplete i s k) ∧
        edge = ⟨⟨k, item.retreated⟩, ⟨i, item⟩, .complete⟩ := by
  obtain ⟨first, early, origin⟩ := placed.origin_eq
  have size := (Array.getElem?_eq_some_iff.mp found).1
  have each : ∀ distance ∈ List.range ((i - item.origin).toNat + 1),
      Succeeds (chart.completionFrom i column item s (item.origin + distance)) fun edges =>
        ∀ edge, edge ∈ edges ↔ item.retreated ∈ chart.itemsAt (first + distance) ∧
          (first + distance = i ∨ chart.HasComplete i s (first + distance)) ∧
          edge = ⟨⟨(first + distance : Nat), item.retreated⟩, ⟨i, item⟩, .complete⟩ := by
    intro distance near
    have bound := List.mem_range.mp near
    have place : item.origin + distance = (first + distance : Nat) := by omega
    rw [place]
    exact succeeds_completionFrom (by omega) found s
  obtain ⟨source, _, read, _⟩ := exists_column (Nat.lt_of_le_of_lt early size)
  unfold completions
  rw [if_neg (by omega), origin, read, ← origin]
  refine (Succeeds.mapM_mem id each).bind fun blocks members => .ok fun edge => ?_
  rw [← List.flatMap_id, members]
  constructor
  · rintro ⟨distance, near, linked⟩
    have bound := List.mem_range.mp near
    exact ⟨first + distance, by omega, by omega, linked⟩
  · rintro ⟨k, late, bound, linked⟩
    have split : first + (k - first) = k := by omega
    refine ⟨k - first, List.mem_range.mpr (by omega), ?_⟩
    rw [split]
    exact linked

theorem links_to_front_iff (formed : chart.WellFormed grammar start)
    (member : item ∈ chart.itemsAt i) (front : item.dot = 0) :
    edge.target = ⟨i, item⟩ ∧ chart.Links edge ↔
      ∃ parent ∈ chart.itemsAt i, parent.waitsOn item.lhs = true ∧
        edge = ⟨⟨i, parent⟩, ⟨i, item⟩, .predict⟩ := by
  constructor
  · rintro ⟨target, links⟩
    cases links with
    | @predict j p q before after front waits =>
      simp only [Node.mk.injEq, Int.natCast_inj] at target
      obtain ⟨rfl, rfl⟩ := target
      exact ⟨p, before, waits, rfl⟩
    | @scan k p name before after waits =>
      have early := (formed k p before).dot_nonneg
      simp only [Node.mk.injEq] at target
      rw [← target.2, Item.dot_moved] at front
      omega
    | @complete k j p name before after waits crossed =>
      have early := (formed k p before).dot_nonneg
      simp only [Node.mk.injEq] at target
      rw [← target.2, Item.dot_moved] at front
      omega
  · rintro ⟨parent, before, waits, rfl⟩
    exact ⟨rfl, .predict before member front waits⟩

theorem links_to_moved_iff {p : Item} (member : p.moved ∈ chart.itemsAt i)
    (behind : p.moved.dot ≠ 0) :
    edge.target = ⟨i, p.moved⟩ ∧ chart.Links edge ↔ ∃ k : Nat, p ∈ chart.itemsAt k ∧
      ((∃ name, p.waitsOn (.terminal name) = true ∧ i = k + 1 ∧
          edge = ⟨⟨k, p⟩, ⟨i, p.moved⟩, .scan⟩) ∨
        ∃ name, p.waitsOn (.nonterminal name) = true ∧
          (k = i ∨ chart.HasComplete i (.nonterminal name) k) ∧
          edge = ⟨⟨k, p⟩, ⟨i, p.moved⟩, .complete⟩) := by
  constructor
  · rintro ⟨target, links⟩
    cases links with
    | @predict j parent q before after front waits =>
      simp only [Node.mk.injEq] at target
      rw [target.2] at front
      exact absurd front behind
    | @scan k other name before after waits =>
      simp only [Node.mk.injEq, Int.natCast_inj] at target
      obtain ⟨rfl, same⟩ := target
      cases Item.moved_injective same
      exact ⟨k, before, .inl ⟨name, waits, rfl, rfl⟩⟩
    | @complete k j other name before after waits crossed =>
      simp only [Node.mk.injEq, Int.natCast_inj] at target
      obtain ⟨rfl, same⟩ := target
      cases Item.moved_injective same
      exact ⟨k, before, .inr ⟨name, waits, crossed, rfl⟩⟩
  · rintro ⟨k, before, ⟨name, waits, rfl, rfl⟩ | ⟨name, waits, crossed, rfl⟩⟩
    · exact ⟨rfl, .scan before member waits⟩
    · exact ⟨rfl, .complete before member waits crossed⟩

/-- The edges into an item are the links to it. -/
theorem WellFormed.succeeds_edgesInto (formed : chart.WellFormed grammar start)
    (found : chart.columns[i]? = some column) (member : item ∈ column.items) :
    Succeeds (chart.edgesInto i column item) fun edges => ∀ edge, edge ∈ edges ↔
      edge.target = ⟨i, item⟩ ∧ chart.Links edge := by
  have items := itemsAt_of_some found
  rw [← items] at member
  have placed := formed i item member
  unfold edgesInto
  split
  · rename_i front
    have readable : ∀ parent ∈ column.items, parent.Readable :=
      fun parent there => (formed i parent (items ▸ there)).readable
    refine (succeeds_predictions readable).mono fun edges listed edge => ?_
    simp [links_to_front_iff formed member front, listed, items, placed.origin_of_dot front]
  · rename_i behind
    obtain ⟨s, read, _⟩ := placed.next_retreated behind
    obtain ⟨p, rfl⟩ : ∃ p : Item, p.moved = item := ⟨_, item.moved_retreated⟩
    rw [Item.retreated_moved] at read
    have waits := Item.waitsOn_iff.mpr read
    have only (t : Symbol) : p.waitsOn t = true ↔ t = s :=
      ⟨fun other => Item.eq_of_waitsOn other waits, fun same => same ▸ waits⟩
    rw [Item.retreated_moved, read]
    show Succeeds (if s.isTerminal then .ok (chart.scans i p.moved)
      else chart.completions i column p.moved s) _
    cases s with
    | terminal name =>
      refine .ok fun edge => ?_
      rw [mem_scans, Item.retreated_moved, links_to_moved_iff member behind]
      simp [only]
    | nonterminal name =>
      have completions := succeeds_completions placed found (.nonterminal name)
      refine completions.mono fun edges listed edge => ?_
      rw [listed, Item.retreated_moved, links_to_moved_iff member behind]
      simp only [only, reduceCtorEq, Symbol.nonterminal.injEq, false_and, exists_false, false_or,
        exists_eq_left]
      refine exists_congr fun k => ⟨fun ⟨_, _, linked⟩ => linked, fun linked => ?_⟩
      have late : k ≤ i := linked.2.1.elim Nat.le_of_eq (HasComplete.column_le formed)
      exact ⟨(formed k p linked.1).origin_le, late, linked⟩
    | epsilon name => exact absurd (placed.solid_of_moved behind waits) (by simp [Symbol.isEpsilon])

/-! ## The graph -/

theorem WellFormed.succeeds_placedNodes (formed : chart.WellFormed grammar start)
    (numbered : (i, column) ∈ chart.numbered) :
    Succeeds (placedNodes i column) fun nodes =>
      nodes.map PlacedNode.node = column.items.map (Node.mk i) := by
  have each : ∀ entry ∈ column.items.zipIdx,
      Succeeds (do return (⟨⟨i, entry.1⟩, ← entry.1.render, entry.2⟩ : PlacedNode))
        fun placed => placed.node = ⟨i, entry.1⟩ := by
    intro entry listed
    have member := List.mem_of_getElem? (List.mem_zipIdx_iff_getElem?.mp listed)
    exact (formed.placed numbered member).2.succeeds_render.bind fun _ _ => .ok rfl
  refine (Succeeds.mapM_map each).mono fun nodes same => ?_
  have unnumbered := congrArg (List.map (Node.mk i)) (List.zipIdx_map_fst 0 column.items)
  rw [List.map_map] at unnumbered
  exact same.trans unnumbered

/-- The graph is found.  Its placed nodes are the items of the columns, and its edges the links. -/
theorem WellFormed.succeeds_graph_links (formed : chart.WellFormed grammar start) :
    Succeeds chart.graph fun graph => graph.placed.map PlacedNode.node = chart.itemNodes ∧
      ∀ edge, edge ∈ graph.edges ↔ chart.Links edge := by
  have nodes : ∀ entry ∈ chart.numbered, Succeeds (placedNodes entry.1 entry.2) fun nodes =>
      nodes.map PlacedNode.node = entry.2.items.map (Node.mk entry.1) :=
    fun entry numbered => formed.succeeds_placedNodes numbered
  have edges : ∀ entry ∈ chart.numbered,
      Succeeds (entry.2.items.mapM (chart.edgesInto entry.1 entry.2)) fun blocks =>
        ∀ edge, edge ∈ blocks.flatten ↔
          ∃ item ∈ entry.2.items, edge.target = ⟨entry.1, item⟩ ∧ chart.Links edge := by
    intro entry numbered
    have found := mem_numbered.mp numbered
    have each := Succeeds.mapM_mem id
      fun item member => formed.succeeds_edgesInto found member
    exact each.mono fun blocks members => by rwa [← List.flatMap_id]
  refine (Succeeds.mapM_map nodes).bind fun lanes placed => ?_
  refine (Succeeds.mapM_mem List.flatten edges).bind fun blocks members => .ok ⟨?_, fun edge => ?_⟩
  · rw [List.map_flatten, placed]
    rfl
  · dsimp only
    rw [List.flatten_flatten]
    refine (members edge).trans ⟨fun ⟨_, _, _, _, _, links⟩ => links, fun links => ?_⟩
    obtain ⟨i, same, member⟩ := mem_itemNodes.mp links.target_mem
    obtain ⟨column, found, _, items⟩ := exists_column (lt_size_of_mem_itemsAt member)
    exact ⟨(i, column), mem_numbered.mpr found, edge.target.item, items ▸ member, by rw [← same],
      links⟩

theorem WellFormed.succeeds_graph (formed : chart.WellFormed grammar start) :
    Succeeds chart.graph fun graph =>
      ∀ edge ∈ graph.edges, edge.source ∈ graph.placed.map PlacedNode.node := by
  refine formed.succeeds_graph_links.mono fun graph ⟨placed, links⟩ edge member => ?_
  rw [placed]
  exact ((links edge).mp member).source_mem

end Chart

theorem Graph.unplaced_eq_nil {graph : Graph}
    (sources : ∀ edge ∈ graph.edges, edge.source ∈ graph.placed.map PlacedNode.node) :
    graph.unplaced = [] := by
  have every : ∀ node ∈ graph.edges.map Edge.source,
      graph.placed.any (fun placed => placed.node = node) = true := by
    intro node listed
    obtain ⟨edge, member, rfl⟩ := List.mem_map.mp listed
    obtain ⟨placed, there, same⟩ := List.mem_map.mp (sources edge member)
    exact List.any_eq_true.mpr ⟨placed, there, decide_eq_true same⟩
  unfold unplaced
  generalize graph.edges.map Edge.source = nodes at every ⊢
  induction nodes with
  | nil => rfl
  | cons node rest ih =>
    rw [List.foldl_cons, if_pos (every node List.mem_cons_self)]
    exact ih fun node member => every node (List.mem_cons_of_mem _ member)

theorem Chart.WellFormed.succeeds_drawing (formed : chart.WellFormed grammar start) :
    Succeeds chart.drawing fun _ => True := by
  refine formed.succeeds_graph.bind fun graph sources => ?_
  unfold Graph.drawing
  rw [Graph.unplaced_eq_nil sources]
  exact .ok trivial

end Earley
