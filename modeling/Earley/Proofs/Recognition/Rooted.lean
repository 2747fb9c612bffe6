import Mathlib.Logic.Relation
import Earley.Proofs.Chart.Links
import Earley.Proofs.Recognition.WellFormed

/-!
# The graph of a word leads from its seed to every item

An item is taken into the chart because of items that are there already, and the links that show
this stay when the columns grow.  So every item can be reached from the first one along the links.
The graph of the chart has all of them, whatever the grammar is.
-/

set_option autoImplicit false

namespace Earley

variable {grammar : Grammar} {word : List Char} {start : String} {chart after : Chart} {i k : Nat}
  {batch : List Item} {edge : Edge}

namespace Chart

def Linked (chart : Chart) (source target : Node) : Prop :=
  ∃ step, chart.Links ⟨source, target, step⟩

def Rooted (chart : Chart) (start : String) : Prop :=
  ∀ i item, item ∈ chart.itemsAt i →
    Relation.ReflTransGen chart.Linked ⟨0, seed start⟩ ⟨i, item⟩

theorem Links.takes (takes : chart.Takes after i batch) (links : chart.Links edge) :
    after.Links edge := by
  cases links with
  | predict before begun front waits =>
    exact .predict (takes.mem_of_mem before) (takes.mem_of_mem begun) front waits
  | scan before moved waits =>
    exact .scan (takes.mem_of_mem before) (takes.mem_of_mem moved) waits
  | complete before moved waits crossed =>
    refine .complete (takes.mem_of_mem before) (takes.mem_of_mem moved) waits ?_
    exact crossed.imp_right fun ⟨inner, member, whole⟩ => ⟨inner, takes.mem_of_mem member, whole⟩

theorem Rooted.takes (rooted : chart.Rooted start) (takes : chart.Takes after i batch)
    (each : ∀ x ∈ batch, ∃ k, ∃ p ∈ chart.itemsAt k, after.Linked ⟨k, p⟩ ⟨i, x⟩) :
    after.Rooted start := by
  have stays : ∀ a b, chart.Linked a b → after.Linked a b :=
    fun _ _ ⟨step, links⟩ => ⟨step, links.takes takes⟩
  have grown : ∀ k p, p ∈ chart.itemsAt k →
      Relation.ReflTransGen after.Linked ⟨0, seed start⟩ ⟨k, p⟩ :=
    fun k p member => Relation.ReflTransGen.mono stays _ _ (rooted k p member)
  intro k item member
  by_cases same : k = i
  · subst same
    rcases takes.mem_itemsAt.mp member with old | new
    · exact grown k item old
    · obtain ⟨j, p, there, linked⟩ := each item new
      exact (grown j p there).tail linked
  · rw [takes.itemsAt_of_ne same] at member
    exact grown k item member

/-! ## Steps of a recognizer -/

/-- What follows from an item is linked to an item that was there. -/
theorem Sound.linked_of_follows (sound : chart.Sound grammar word start)
    (takes : chart.Takes after i batch) {item x : Item} (member : item ∈ chart.itemsAt i)
    (new : x ∈ batch) (follows : chart.Follows grammar i item x) :
    ∃ k, ∃ p ∈ chart.itemsAt k, after.Linked ⟨k, p⟩ ⟨i, x⟩ := by
  have there := takes.mem_itemsAt.mpr (.inr new)
  cases follows with
  | predicted rule waits =>
    exact ⟨i, item, member, .predict, .predict (takes.mem_of_mem member) there rfl waits⟩
  | skipped nullable waits =>
    obtain ⟨name, rfl⟩ := Grammar.nonterminal_of_mem_nullable nullable
    exact ⟨i, item, member, .complete,
      .complete (takes.mem_of_mem member) there waits (.inl rfl)⟩
  | @completed column waiting complete found among waits =>
    obtain ⟨k, _, origin, column, there', items⟩ := sound.origin_column member
    cases found.symm.trans there'
    rw [← items] at among
    exact ⟨k, waiting, among, .complete, .complete (takes.mem_of_mem among) there waits
      (.inr ⟨item, takes.mem_of_mem member, complete, rfl, origin⟩)⟩

theorem turnKeeps_rooted (grammar : Grammar) (word : List Char) (start : String) (i : Nat) :
    TurnKeeps grammar i i fun _ current =>
      current.Sound grammar word start ∧ current.Rooted start := by
  intro visited current item batch after ⟨sound, rooted⟩ turn takes follows
  have member : item ∈ current.itemsAt i := List.mem_of_getElem? turn
  refine ⟨sound.turn member takes follows, rooted.takes takes fun x new => ?_⟩
  exact sound.linked_of_follows takes member new ((follows x).mp new)

theorem Sound.rooted_close (sound : chart.Sound grammar word start) (rooted : chart.Rooted start)
    (inside : i ≤ word.length) : (chart.close grammar i).chart.Rooted start := by
  have kept := close_rule (turnKeeps_rooted grammar word start i) (sound.place_natCast inside)
    ⟨sound, rooted⟩
  exact kept.2

theorem Sound.rooted_scanColumn (sound : chart.Sound grammar word start)
    (rooted : chart.Rooted start) {c : Char} (read : word[i]? = some c) :
    (chart.scanColumn i (String.singleton c)).chart.Rooted start := by
  obtain ⟨_, batch, takes, scanned⟩ := sound.scanColumn_takes read
  refine rooted.takes takes fun x new => ?_
  obtain ⟨item, member, waits, rfl⟩ := (scanned x).mp new
  have there := takes.mem_itemsAt.mpr (.inr new)
  exact ⟨i, item, member, .scan, .scan (takes.mem_of_mem member) there waits⟩

theorem rooted_ofLength (length : Nat) (start : String) : (ofLength length start).Rooted start := by
  intro i item member
  cases i with
  | zero =>
    rw [itemsAt_ofLength, List.mem_singleton] at member
    rw [member]
    exact .refl
  | succ i =>
    rw [itemsAt_ofLength_succ] at member
    exact absurd member List.not_mem_nil

end Chart

namespace Recognition

theorem rooted_build (grammar : Grammar) (word start : String) :
    (build grammar word start).chart.Rooted start :=
  build_keeps (fun _ _ inside sound rooted => sound.rooted_close rooted inside)
    (fun _ _ _ read sound rooted => sound.rooted_scanColumn rooted read)
    (Chart.rooted_ofLength _ start)

/-- The chart of a word has a graph, whose nodes are the items of its columns, in order.  The graph
has the edge of every step between two items: from an item to the beginning of a production of the
symbol after its dot, over a terminal into the next column, and over a nonterminal that is nullable,
or that is complete since the column of the first item.  Two edges between the same nodes are one,
and the edges lead from the first item to every node. -/
theorem graph_explains_chart (grammar : Grammar) (word start : String) :
    ∃ graph, (build grammar word start).chart.graph = .ok graph ∧
      graph.nodes = (build grammar word start).chart.numbered.flatMap
        (fun (number, column) => column.items.map (Node.mk number)) ∧
      (∀ (k i : Nat) (p q : Item), p ∈ (build grammar word start).chart.itemsAt k →
        q ∈ (build grammar word start).chart.itemsAt i →
        (q.dot = 0 → k = i → p.waitsOn q.lhs = true → ⟨⟨k, p⟩, ⟨i, q⟩, .predict⟩ ∈ graph.edges) ∧
        (∀ name, q = p.moved → p.waitsOn (.terminal name) = true → k + 1 = i →
          ⟨⟨k, p⟩, ⟨i, q⟩, .scan⟩ ∈ graph.edges) ∧
        ∀ name, q = p.moved → p.waitsOn (.nonterminal name) = true →
          (k = i ∧ .nonterminal name ∈ grammar.nullable ∨
            (build grammar word start).chart.HasComplete i (.nonterminal name) k) →
          ⟨⟨k, p⟩, ⟨i, q⟩, .complete⟩ ∈ graph.edges) ∧
      (∀ first ∈ graph.edges, ∀ second ∈ graph.edges,
        first.source = second.source → first.target = second.target → first = second) ∧
      ∀ node ∈ graph.nodes, Relation.ReflTransGen
        (fun a b => ∃ edge ∈ graph.edges, edge.source = a ∧ edge.target = b)
        ⟨0, Chart.seed start⟩ node := by
  have formed := wellFormed_build grammar word start
  have rooted := rooted_build grammar word start
  generalize (build grammar word start).chart = chart at formed rooted ⊢
  obtain ⟨graph, found, placed, links⟩ := formed.succeeds_graph_links
  have nodes : graph.nodes = chart.itemNodes := by
    have sources : ∀ edge ∈ graph.edges, edge.source ∈ graph.placed.map PlacedNode.node :=
      fun edge member => placed ▸ ((links edge).mp member).source_mem
    rw [Graph.nodes, Graph.unplaced_eq_nil sources, List.append_nil, placed]
  refine ⟨graph, found, nodes, ?_, ?_, ?_⟩
  · intro k i p q before after
    simp only [links]
    refine ⟨?_, ?_, ?_⟩
    · rintro front rfl waits
      exact .predict before after front waits
    · rintro name rfl waits rfl
      exact .scan before after waits
    · rintro name rfl waits crossed
      exact .complete before after waits (crossed.imp_left And.left)
  · rintro ⟨a, b, s⟩ first ⟨_, _, t⟩ second rfl rfl
    rw [((links _).mp first).step_unique formed ((links _).mp second)]
  · intro node member
    rw [nodes] at member
    obtain ⟨i, same, there⟩ := Chart.mem_itemNodes.mp member
    have path := rooted i node.item there
    rw [← same] at path
    have edges : ∀ a b, chart.Linked a b →
        ∃ edge ∈ graph.edges, edge.source = a ∧ edge.target = b :=
      fun a b ⟨step, linked⟩ => ⟨⟨a, b, step⟩, (links _).mpr linked, rfl, rfl⟩
    exact Relation.ReflTransGen.mono edges _ _ path

theorem graph_explains_leaking :
    (⟨0, 1, .leaking⟩ : Item) ∈ (build .leaking "ab" "S").chart.itemsAt 1 ∧
      (⟨0, 2, .leaking⟩ : Item) ∈ (build .leaking "ab" "S").chart.itemsAt 2 ∧
      ∃ graph, (build .leaking "ab" "S").chart.graph = .ok graph ∧
        ⟨⟨1, ⟨0, 1, .leaking⟩⟩, ⟨2, ⟨0, 2, .leaking⟩⟩, .scan⟩ ∈ graph.edges ∧
        Relation.ReflTransGen
          (fun a b => ∃ edge ∈ graph.edges, edge.source = a ∧ edge.target = b)
          ⟨0, Chart.seed "S"⟩ ⟨2, ⟨0, 2, .leaking⟩⟩ := by
  have before : (⟨0, 1, .leaking⟩ : Item) ∈ (build .leaking "ab" "S").chart.itemsAt 1 := by decide
  have after : (⟨0, 2, .leaking⟩ : Item) ∈ (build .leaking "ab" "S").chart.itemsAt 2 := by decide
  obtain ⟨graph, found, nodes, present, _, reached⟩ := graph_explains_chart .leaking "ab" "S"
  have node : ⟨2, ⟨0, 2, .leaking⟩⟩ ∈ graph.nodes :=
    nodes ▸ Chart.mem_itemNodes.mpr ⟨2, rfl, after⟩
  have edges := present 1 2 ⟨0, 1, .leaking⟩ ⟨0, 2, .leaking⟩ before after
  exact ⟨before, after, graph, found, edges.2.1 "b" rfl (by decide) rfl, reached _ node⟩

end Recognition

end Earley
