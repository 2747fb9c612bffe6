import Earley.Proofs.Chart.Justified
import Earley.Proofs.Slice

/-!
# What a justified item has read

The symbols before the dot of a justified item yield the characters from its origin to its column,
and its head can stand where the characters before the origin have been read.  The augmented
production counts as a production here, and so the bodies may mention its head.
-/

set_option autoImplicit false

namespace Earley

variable {grammar : Grammar} {word : List Char} {start : String} {i k : Nat} {item : Item}
  {s : Symbol}

/-- From the reserved nonterminal the grammar derives the symbol behind symbols that derive the
word `read`. -/
def Grammar.Viable (grammar : Grammar) (start : String) (read : List Char) (s : Symbol) : Prop :=
  ∃ before after,
    Derives (grammar.augmentedProductions start) [.reserved] (before ++ s :: after) ∧
      Derives (grammar.augmentedProductions start) before (Symbol.spelling read)

theorem Grammar.yields_nullable (nullable : s ∈ grammar.nullable) :
    Yields (grammar.augmentedProductions start) [s] [] := by
  obtain ⟨p, member, rfl, inside⟩ := yields_of_mem_nullable nullable
  exact .augment (.of_body member inside)

/-- Behind what an item has read its next symbol is viable. -/
theorem Grammar.Viable.next {first second : List Char} {p : Production} {before after : List Symbol}
    (viable : grammar.Viable start first p.lhs) (member : p ∈ grammar.augmentedProductions start)
    (split : p.body = before ++ s :: after)
    (yields : Yields (grammar.augmentedProductions start) before second) :
    grammar.Viable start (first ++ second) s := by
  obtain ⟨front, back, derives, read⟩ := viable
  refine ⟨front ++ before, after ++ back, ?_, ?_⟩
  · have expanded := derives.trans (.step (.expand member front back) (.refl _))
    rw [split] at expanded
    simpa only [List.append_assoc, List.cons_append] using expanded
  · rw [derives_spelling_iff] at read ⊢
    exact read.append yields

structure Item.Spans (grammar : Grammar) (word : List Char) (start : String) (i : Nat)
    (item : Item) : Prop where
  column_le : i ≤ word.length
  viable : grammar.Viable start (slice word 0 item.origin.toNat) item.lhs
  yields : Yields (grammar.augmentedProductions start) (item.body.take item.dot.toNat)
    (slice word item.origin.toNat i)

theorem Item.WellPlaced.body_split (placed : item.WellPlaced grammar start i)
    (waits : item.waitsOn s = true) :
    item.production.body = item.body.take item.dot.toNat ++
      s :: item.body.drop (item.dot.toNat + 1) := by
  rw [← placed.drop_of_waitsOn waits, List.take_append_drop]
  rfl

theorem Item.Spans.moved (placed : item.WellPlaced grammar start k)
    (spans : item.Spans grammar word start k) (waits : item.waitsOn s = true)
    (inside : i ≤ word.length) (later : k ≤ i)
    (yields : Yields (grammar.augmentedProductions start) [s] (slice word k i)) :
    item.moved.Spans grammar word start i where
  column_le := inside
  viable := spans.viable
  yields := by
    have origin : item.origin.toNat ≤ k := by
      have early := placed.origin_le
      omega
    rw [placed.take_moved waits, origin_moved, ← slice_append origin later inside]
    exact spans.yields.append yields

/-- A justified item has read what its column and its origin say. -/
theorem Justified.spans (justified : Justified grammar word start i item) :
    item.Spans grammar word start i := by
  induction justified with
  | seed =>
    refine ⟨Nat.zero_le _, ⟨[], [], .refl _, ?_⟩, ?_⟩
    · rw [derives_spelling_iff]
      exact .nil
    · exact .nil
  | @predicted i item p before member waits ih =>
    have placed := before.wellPlaced
    have read := ih.viable.next placed.production (placed.body_split waits) ih.yields
    have origin : item.origin.toNat ≤ i := by
      have early := placed.origin_le
      omega
    rw [slice_append (Nat.zero_le _) origin ih.column_le] at read
    refine ⟨ih.column_le, read, ?_⟩
    rw [Item.dot_fresh, Item.origin_fresh, Int.toNat_natCast, slice_self]
    exact .nil
  | skipped before nullable waits ih =>
    refine ih.moved before.wellPlaced waits ih.column_le (Nat.le_refl _) ?_
    rw [slice_self]
    exact Grammar.yields_nullable nullable
  | @scanned i item c before read waits ih =>
    have inside := (List.getElem?_eq_some_iff.mp read).1
    refine ih.moved before.wellPlaced waits inside (Nat.le_succ i) ?_
    rw [slice_succ (Nat.le_refl i) read, slice_self]
    exact .terminal c .nil
  | @completed i k inner waiting before inside complete origin waits ih inner_ih =>
    have later : k ≤ i := by
      have early := inside.wellPlaced.origin_le
      omega
    refine ih.moved before.wellPlaced waits inner_ih.column_le later ?_
    have body := inner_ih.yields
    rw [Item.take_complete complete, origin, Int.toNat_natCast] at body
    exact .of_body inside.wellPlaced.production body

end Earley
