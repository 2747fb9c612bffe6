import Earley.Proofs.Chart.Justified
import Earley.Proofs.Slice

/-!
# Moving the dot over what yields the next characters

Scanning, prediction and completion move the dot of an item behind any symbols that yield the next
characters, wherever these steps are taken: among the items that some rules lead to, or among the
items of a finished chart.  What a completion may take for granted is that the production read
its characters; a body that reads none may be stepped over instead.
-/

set_option autoImplicit false

namespace Earley

/-- Items in columns that the steps of a recognizer do not lead out of. -/
structure Advancing (grammar : Grammar) (word : List Char) (start : String)
    (present : Nat → Item → Prop) : Prop where
  wellPlaced : ∀ {i : Nat} {item : Item}, present i item → item.WellPlaced grammar start i
  predicted : ∀ {i : Nat} {item : Item} {p : Production}, present i item →
    p ∈ grammar.productions → item.waitsOn p.lhs = true → present i (.fresh p i)
  scanned : ∀ {i : Nat} {item : Item} {c : Char}, present i item → word[i]? = some c →
    item.waitsOn (.terminal (String.singleton c)) = true → present (i + 1) item.moved
  completed : ∀ {i : Nat} {waiting : Item} {p : Production} {read : List Char},
    present i waiting → p ∈ grammar.productions → waiting.waitsOn p.lhs = true →
    Yields grammar.productions p.body read →
    (p.isEmpty = false →
      present (i + read.length) ((Item.fresh p i).movedBy p.body.length)) →
    present (i + read.length) waiting.moved

variable {grammar : Grammar} {word : List Char} {start : String} {present : Nat → Item → Prop}

/-- An item moves its dot over symbols that yield the next characters. -/
theorem Advancing.advance (advancing : Advancing grammar word start present)
    {symbols : List Symbol} {read : List Char} (yields : Yields grammar.productions symbols read)
    {i : Nat} {item : Item} (here : present i item) {after : List Symbol}
    (behind : item.body.drop item.dot.toNat = symbols ++ after)
    (solid : ∀ s ∈ symbols, s.isEpsilon = false) (next : read <+: word.drop i) :
    present (i + read.length) (item.movedBy symbols.length) := by
  induction yields generalizing i item after with
  | nil =>
    rw [List.length_nil, List.length_nil, Item.movedBy_zero]
    exact here
  | epsilon name =>
    have epsilon := solid _ List.mem_cons_self
    cases epsilon
  | @terminal c rest read _ ih =>
    have placed := advancing.wellPlaced here
    have first : word[i]? = some c := by
      obtain ⟨rest, same⟩ := next
      rw [← List.head?_drop, ← same]
      rfl
    have moved := advancing.scanned here first (placed.waitsOn_of_drop behind)
    have split : [c] ++ read <+: word.drop i := next
    have further := ih moved (placed.drop_moved behind)
      (fun s member => solid s (List.mem_cons_of_mem _ member)) (prefix_drop_of_append split).2
    rw [Item.movedBy_moved] at further
    rw [List.length_cons, List.length_cons, Nat.add_comm read.length 1, ← Nat.add_assoc]
    exact further
  | @nonterminal p member rest first second inside _ inner_ih behind_ih =>
    have placed := advancing.wellPlaced here
    have waits := placed.waitsOn_of_drop behind
    obtain ⟨early, late⟩ := prefix_drop_of_append next
    have opened := advancing.predicted here member waits
    have moved : present (i + first.length) item.moved := by
      refine advancing.completed here member waits inside fun filled => ?_
      have whole : (Item.fresh p i).body.drop (Item.fresh p i).dot.toNat = p.body ++ [] :=
        (List.append_nil _).symm
      exact inner_ih opened whole (fun s inBody => Production.solid_of_mem_body filled inBody) early
    have further := behind_ih moved (placed.drop_moved behind)
      (fun s inRest => solid s (List.mem_cons_of_mem _ inRest)) late
    rw [Item.movedBy_moved] at further
    rw [List.length_cons, List.length_append, ← Nat.add_assoc]
    exact further

theorem Item.isComplete_fresh_movedBy (p : Production) (origin : Int) :
    ((fresh p origin).movedBy p.body.length).isComplete = true := by
  rw [isComplete_iff]
  exact Int.le_of_eq (Int.zero_add _).symm

end Earley
