import Earley.Proofs.Chart.Links
import Earley.Proofs.Recognition.WellFormed

/-!
# Links that are no steps

The graph of a chart links an item to its advance in the same column without asking how the symbol
between them was crossed.  Most links are steps all the same.  But the characters up to the column
may be what the symbols before the dot yield, and also what they and the next symbol yield; then
both items are in the column and neither comes from the other.  Whether a grammar has such words
can be told from what the symbols of its bodies yield.
-/

set_option autoImplicit false

namespace Earley

variable {grammar : Grammar} {word : List Char} {start : String} {chart : Chart} {edge : Edge}
  {item : Item} {i : Nat}

namespace Chart

/-- What the recognizer does to come from one item to another. -/
inductive Steps (grammar : Grammar) (word : List Char) (chart : Chart) : Edge → Prop
  | predict {i : Nat} {p q : Item} (before : p ∈ chart.itemsAt i) (after : q ∈ chart.itemsAt i)
      (front : q.dot = 0) (origin : q.origin = i) (waits : p.waitsOn q.lhs = true) :
      Steps grammar word chart ⟨⟨i, p⟩, ⟨i, q⟩, .predict⟩
  | scan {k : Nat} {p : Item} {c : Char} (before : p ∈ chart.itemsAt k)
      (after : p.moved ∈ chart.itemsAt (k + 1)) (read : word[k]? = some c)
      (waits : p.waitsOn (.terminal (String.singleton c)) = true) :
      Steps grammar word chart ⟨⟨k, p⟩, ⟨(k + 1 : Nat), p.moved⟩, .scan⟩
  | skip {i : Nat} {p : Item} {name : String} (before : p ∈ chart.itemsAt i)
      (after : p.moved ∈ chart.itemsAt i) (waits : p.waitsOn (.nonterminal name) = true)
      (nullable : .nonterminal name ∈ grammar.nullable) :
      Steps grammar word chart ⟨⟨i, p⟩, ⟨i, p.moved⟩, .complete⟩
  | complete {k i : Nat} {p : Item} {name : String} (before : p ∈ chart.itemsAt k)
      (after : p.moved ∈ chart.itemsAt i) (waits : p.waitsOn (.nonterminal name) = true)
      (crossed : chart.HasComplete i (.nonterminal name) k) :
      Steps grammar word chart ⟨⟨k, p⟩, ⟨i, p.moved⟩, .complete⟩

/-- The links inside a column over a nonterminal that was not crossed there. -/
inductive Strays (grammar : Grammar) (chart : Chart) : Edge → Prop
  | within {i : Nat} {p : Item} {name : String} (before : p ∈ chart.itemsAt i)
      (after : p.moved ∈ chart.itemsAt i) (waits : p.waitsOn (.nonterminal name) = true)
      (solid : .nonterminal name ∉ grammar.nullable)
      (uncrossed : ¬ chart.HasComplete i (.nonterminal name) i) :
      Strays grammar chart ⟨⟨i, p⟩, ⟨i, p.moved⟩, .complete⟩

theorem Steps.links (steps : chart.Steps grammar word edge) : chart.Links edge := by
  cases steps with
  | predict before after front _ waits => exact .predict before after front waits
  | scan before after _ waits => exact .scan before after waits
  | skip before after waits _ => exact .complete before after waits (.inl rfl)
  | complete before after waits crossed => exact .complete before after waits (.inr crossed)

theorem Strays.links (strays : chart.Strays grammar edge) : chart.Links edge := by
  cases strays with
  | within before after waits _ _ => exact .complete before after waits (.inl rfl)

theorem Strays.not_steps (strays : chart.Strays grammar edge) :
    ¬ chart.Steps grammar word edge := by
  intro steps
  cases strays with
  | @within i p name _ _ waits solid uncrossed =>
    generalize column : (i : Int) = k at steps
    cases steps with
    | skip _ _ other nullable =>
      cases Item.eq_of_waitsOn waits other
      exact solid nullable
    | complete _ _ other crossed =>
      cases Item.eq_of_waitsOn waits other
      cases Int.natCast_inj.mp column
      exact uncrossed crossed

/-- A link of a sound chart is a step, or it strays. -/
theorem Sound.links_iff (sound : chart.Sound grammar word start) :
    chart.Links edge ↔ chart.Steps grammar word edge ∨ chart.Strays grammar edge := by
  refine ⟨fun links => ?_, fun known => known.elim Steps.links Strays.links⟩
  cases links with
  | @predict i p q before after front waits =>
    have origin := (sound.justified i q after).wellPlaced.origin_of_dot front
    exact .inl (.predict before after front origin waits)
  | @scan k p name before after waits =>
    have placed := (sound.justified k p before).wellPlaced
    have dot : p.moved.dot = p.dot.toNat + 1 := by
      rw [Item.dot_moved, ← placed.dot_eq]
    obtain ⟨place, c, next, read, rfl⟩ :=
      (sound.justified (k + 1) p.moved after).read_before_dot dot (placed.getElem?_of_waitsOn waits)
    cases next
    exact .inl (.scan before after read waits)
  | @complete k i p name before after waits crossed =>
    rcases crossed with rfl | crossed
    · by_cases nullable : .nonterminal name ∈ grammar.nullable
      · exact .inl (.skip before after waits nullable)
      · by_cases crossed : chart.HasComplete k (.nonterminal name) k
        · exact .inl (.complete before after waits crossed)
        · exact .inr (.within before after waits nullable crossed)
    · exact .inl (.complete before after waits crossed)

end Chart

/-! ## Where links stray -/

/-- A nonterminal of a body that can be begun is nullable if the symbols before it can read as far
without it as with it. -/
def Grammar.Separated (grammar : Grammar) (start : String) : Prop :=
  ∀ p ∈ grammar.augmentedProductions start, ∀ before name after read first second,
    p.body = before ++ .nonterminal name :: after → grammar.Viable start read p.lhs →
    Yields (grammar.augmentedProductions start) before first →
    Yields (grammar.augmentedProductions start) before (first ++ second) →
    Yields (grammar.augmentedProductions start) [.nonterminal name] second →
      .nonterminal name ∈ grammar.nullable

theorem Grammar.Separated.nullable (separated : grammar.Separated start)
    (before : Justified grammar word start i item)
    (after : Justified grammar word start i item.moved) {name : String}
    (waits : item.waitsOn (.nonterminal name) = true) : .nonterminal name ∈ grammar.nullable := by
  have placed := before.wellPlaced
  have spans := before.spans
  -- Both items have read up to the same column, one with the symbol and the other without it.
  have whole := after.spans.yields
  rw [placed.take_moved waits, Item.origin_moved] at whole
  obtain ⟨first, second, read, front, crossed⟩ := whole.split
  have long := spans.yields
  rw [read] at long
  exact separated _ placed.production _ name _ _ first second (placed.body_split waits) spans.viable
    front long crossed

theorem Chart.Sound.steps_of_links (sound : chart.Sound grammar word start)
    (separated : grammar.Separated start) (links : chart.Links edge) :
    chart.Steps grammar word edge := by
  rcases sound.links_iff.mp links with steps | strays
  · exact steps
  · cases strays with
    | @within i p name before after waits solid =>
      have justified := sound.justified i p before
      exact absurd (separated.nullable justified (sound.justified i _ after) waits) solid

/-- The other way round: an item and its advance have read the same word. -/
theorem Justified.exists_moved (unreserved : grammar.Unreserved) {p : Production}
    (member : p ∈ grammar.augmentedProductions start) {before after : List Symbol} {name : String}
    {read first second : List Char} (split : p.body = before ++ .nonterminal name :: after)
    (viable : grammar.Viable start read p.lhs)
    (front : Yields (grammar.augmentedProductions start) before first)
    (long : Yields (grammar.augmentedProductions start) before (first ++ second))
    (crossed : Yields (grammar.augmentedProductions start) [.nonterminal name] second) :
    ∃ word i item, Justified grammar word start i item ∧ Justified grammar word start i item.moved ∧
      item.waitsOn (.nonterminal name) = true := by
  have filled : p.isEmpty ≠ true := by
    intro empty
    obtain ⟨epsilon, single⟩ := Production.isEmpty_iff.mp empty
    have inBody : Symbol.nonterminal name ∈ p.body := by simp [split]
    simp [single] at inBody
  have inside : read.length ≤ (read ++ (first ++ second)).length := by simp
  have justified {front back : List Symbol} (split : p.body = front ++ back)
      (yields : Yields (grammar.augmentedProductions start) front (first ++ second)) :
      Justified grammar (read ++ (first ++ second)) start (read ++ (first ++ second)).length
        ⟨read.length, front.length, p⟩ := by
    refine (justified_iff unreserved (Nat.le_refl _) member split _).mpr
      ⟨fun empty => absurd empty filled, read.length, rfl, inside, ?_, ?_⟩
    · rwa [slice_left]
    · rwa [slice_right, derives_spelling_iff]
  have ahead := justified (split.trans (List.append_cons ..)) (front.append crossed)
  have place : (before ++ [Symbol.nonterminal name]).length = before.length + 1 :=
    List.length_append
  rw [place] at ahead
  exact ⟨_, _, _, justified split long, ahead, Item.waitsOn_of_split rfl split⟩

/-- A symbol is nullable if it is complete in a column since the column. -/
theorem Chart.Sound.nullable_of_hasComplete (sound : chart.Sound grammar word start)
    (unreserved : grammar.Unreserved) {s : Symbol} (member : item ∈ chart.itemsAt i)
    (waits : item.waitsOn s = true) (complete : chart.HasComplete i s i) :
    s ∈ grammar.nullable := by
  obtain ⟨inner, there, whole, rfl, origin⟩ := complete
  exact (sound.justified i item member).lhs_nullable unreserved (sound.justified i inner there) whole
    origin waits

namespace Recognition

/-- The chart of a word has a graph, whose edges are the steps between its items and the links that
stray. -/
theorem mem_edges_build (grammar : Grammar) (word start : String) :
    ∃ graph, (build grammar word start).chart.graph = .ok graph ∧ ∀ edge, edge ∈ graph.edges ↔
      (build grammar word start).chart.Steps grammar word.toList edge ∨
        (build grammar word start).chart.Strays grammar edge := by
  have sound := (underway_build grammar word start).sound
  obtain ⟨graph, found, _, links⟩ := sound.wellFormed.succeeds_graph_links
  refine ⟨graph, found, fun edge => ?_⟩
  rw [links, sound.links_iff]

theorem strays_build (unreserved : grammar.Unreserved) {word : String}
    (before : Justified grammar word.toList start i item)
    (after : Justified grammar word.toList start i item.moved) {name : String}
    (waits : item.waitsOn (.nonterminal name) = true)
    (solid : .nonterminal name ∉ grammar.nullable) :
    (build grammar word start).chart.Strays grammar
      ⟨⟨i, item⟩, ⟨i, item.moved⟩, .complete⟩ := by
  have sound := (underway_build grammar word start).sound
  have member := (mem_itemsAt_build unreserved word start).mpr before
  refine .within member ((mem_itemsAt_build unreserved word start).mpr after) waits solid ?_
  exact fun complete => solid (sound.nullable_of_hasComplete unreserved member waits complete)

/-- All edges of all words are steps exactly in a separated grammar. -/
theorem steps_iff_separated (unreserved : grammar.Unreserved) (start : String) :
    (∀ word graph, (build grammar word start).chart.graph = .ok graph → ∀ edge ∈ graph.edges,
        (build grammar word start).chart.Steps grammar word.toList edge) ↔
      grammar.Separated start := by
  constructor
  · intro steps p member before name after read first second split viable front long crossed
    obtain ⟨word, i, item, behind, ahead, waits⟩ :=
      Justified.exists_moved unreserved member split viable front long crossed
    rw [← String.toList_ofList (l := word)] at behind ahead
    by_cases nullable : .nonterminal name ∈ grammar.nullable
    · exact nullable
    · have strays := strays_build unreserved behind ahead waits nullable
      obtain ⟨graph, found, edges⟩ := mem_edges_build grammar (String.ofList word) start
      exact absurd (steps _ graph found _ ((edges _).mpr (.inr strays))) strays.not_steps
  · intro separated word graph found edge member
    obtain ⟨same, there, edges⟩ := mem_edges_build grammar word start
    cases found.symm.trans there
    have sound := (underway_build grammar word start).sound
    exact sound.steps_of_links separated (sound.links_iff.mpr ((edges edge).mp member))

/-- The chart of a word has a graph, whose edges are the steps between its items and the links that
stray, which are no steps.  In a grammar that does not mention the reserved nonterminal, all edges of
all words are steps exactly if the grammar is separated. -/
theorem graph_edges_steps (grammar : Grammar) (start : String) :
    (∀ word, ∃ graph, (build grammar word start).chart.graph = .ok graph ∧
      (∀ edge, edge ∈ graph.edges ↔
        (build grammar word start).chart.Steps grammar word.toList edge ∨
          (build grammar word start).chart.Strays grammar edge) ∧
      ∀ edge, (build grammar word start).chart.Strays grammar edge →
        ¬ (build grammar word start).chart.Steps grammar word.toList edge) ∧
    (grammar.Unreserved →
      ((∀ word graph, (build grammar word start).chart.graph = .ok graph → ∀ edge ∈ graph.edges,
          (build grammar word start).chart.Steps grammar word.toList edge) ↔
        grammar.Separated start)) := by
  refine ⟨fun word => ?_, fun unreserved => steps_iff_separated unreserved start⟩
  obtain ⟨graph, found, edges⟩ := mem_edges_build grammar word start
  exact ⟨graph, found, edges, fun _ strays => strays.not_steps⟩

theorem graph_edges_steps_brackets :
    Grammar.brackets.Unreserved ∧ Grammar.brackets.Separated "S" ∧
      ∃ graph, (build .brackets "ab" "S").chart.graph = .ok graph ∧
        ⟨⟨1, ⟨0, 1, .nesting⟩⟩, ⟨1, ⟨0, 2, .nesting⟩⟩, .complete⟩ ∈ graph.edges ∧
        ∀ edge ∈ graph.edges,
          (build .brackets "ab" "S").chart.Steps .brackets "ab".toList edge := by
  have only : ∀ p ∈ Grammar.brackets.augmentedProductions "S", ∀ s ∈ p.body,
      s ∈ Grammar.brackets.nullable ∨ s = .terminal "a" ∨ s = .terminal "b" ∨ s = .empty := by
    decide
  have separated : Grammar.brackets.Separated "S" := by
    intro p member before name after _ _ _ split _ _ _ _
    have inBody : .nonterminal name ∈ p.body := by simp [split]
    exact (only p member _ inBody).resolve_right (by simp [Symbol.empty])
  have before : (⟨0, 1, .nesting⟩ : Item) ∈ (build .brackets "ab" "S").chart.itemsAt 1 := by decide
  have after : (⟨0, 2, .nesting⟩ : Item) ∈ (build .brackets "ab" "S").chart.itemsAt 1 := by decide
  have waits : (⟨0, 1, .nesting⟩ : Item).waitsOn (.nonterminal "S") = true := by decide
  have nullable : .nonterminal "S" ∈ Grammar.brackets.nullable := by decide
  obtain ⟨graphs, steps⟩ := graph_edges_steps .brackets "S"
  obtain ⟨graph, found, edges, _⟩ := graphs "ab"
  have skip : (build .brackets "ab" "S").chart.Steps .brackets "ab".toList
      ⟨⟨1, ⟨0, 1, .nesting⟩⟩, ⟨1, ⟨0, 2, .nesting⟩⟩, .complete⟩ :=
    .skip before after waits nullable
  exact ⟨Grammar.unreserved_brackets, separated, graph, found, (edges _).mpr (.inl skip),
    (steps Grammar.unreserved_brackets).mpr separated "ab" graph found⟩

end Recognition

/-! ## A grammar that is not separated

`S` yields `a` and `aa`.  So in the last column of `aa` the dot is behind one `S` and behind two. -/

def Production.doubling : Production where
  head := "S"
  body := [.nonterminal "S", .nonterminal "S"]
  body_ne_nil := by decide
  epsilon_alone := by decide

theorem Production.head_doubling : Production.doubling.head ≠ augmentedHead := by decide

theorem Production.head_single : Production.single.head ≠ augmentedHead := by decide

def Grammar.doubling : Grammar :=
  (empty.append .doubling (by decide) Production.head_doubling).append .single (by decide)
    Production.head_single

namespace Recognition

theorem doubling_edge_strays :
    Grammar.doubling.Unreserved ∧
      ∃ graph, (build .doubling "aa" "S").chart.graph = .ok graph ∧
        ∃ edge ∈ graph.edges, edge = ⟨⟨2, ⟨0, 1, .doubling⟩⟩, ⟨2, ⟨0, 2, .doubling⟩⟩, .complete⟩ ∧
          ¬ (build .doubling "aa" "S").chart.Steps .doubling "aa".toList edge := by
  have unreserved : Grammar.doubling.Unreserved := by
    unfold Grammar.Unreserved
    decide
  have before : (⟨0, 1, .doubling⟩ : Item) ∈ (build .doubling "aa" "S").chart.itemsAt 2 := by decide
  have after : (⟨0, 2, .doubling⟩ : Item) ∈ (build .doubling "aa" "S").chart.itemsAt 2 := by decide
  have waits : (⟨0, 1, .doubling⟩ : Item).waitsOn (.nonterminal "S") = true := by decide
  have solid : .nonterminal "S" ∉ Grammar.doubling.nullable := by decide
  have uncrossed : ¬ (build .doubling "aa" "S").chart.HasComplete 2 (.nonterminal "S") 2 := by
    unfold Chart.HasComplete
    decide
  have strays : (build .doubling "aa" "S").chart.Strays .doubling
      ⟨⟨2, ⟨0, 1, .doubling⟩⟩, ⟨2, ⟨0, 2, .doubling⟩⟩, .complete⟩ :=
    .within before after waits solid uncrossed
  obtain ⟨graph, found, _, links⟩ := (wellFormed_build .doubling "aa" "S").succeeds_graph_links
  exact ⟨unreserved, graph, found, _, (links _).mpr strays.links, rfl, strays.not_steps⟩

end Recognition

end Earley
