import Earley.Chart.Plain
import Earley.Proofs.Chart.Advance

/-!
# Items without the nullable set

The plain algorithm takes no skips: the item of an empty production counts as completed where it
begins, and nothing is known of nullable symbols.  It leads to the same items.  A skip over a
symbol is the recognition of an empty word, which plain steps make by walking through the bodies
that derive it.
-/

set_option autoImplicit false

namespace Earley

variable {grammar : Grammar} {word : List Char} {start : String} {i k : Nat} {item : Item}

namespace Plain

inductive Reached (grammar : Grammar) (word : List Char) (start : String) : Nat → Item → Prop
  | seed : Reached grammar word start 0 (Chart.seed start)
  | predicted {i : Nat} {item : Item} {p : Production} (before : Reached grammar word start i item)
      (member : p ∈ grammar.productions) (waits : item.waitsOn p.lhs = true) :
      Reached grammar word start i (.fresh p i)
  | scanned {i : Nat} {item : Item} {c : Char} (before : Reached grammar word start i item)
      (read : word[i]? = some c) (waits : item.waitsOn (.terminal (String.singleton c)) = true) :
      Reached grammar word start (i + 1) item.moved
  | completed {i k : Nat} {inner waiting : Item} (before : Reached grammar word start k waiting)
      (inside : Reached grammar word start i inner) (complete : recognized inner = true)
      (origin : inner.origin = k) (waits : waiting.waitsOn inner.lhs = true) :
      Reached grammar word start i waiting.moved

theorem recognized_iff : recognized item = true ↔
    item.isComplete = true ∨ item.dot = 0 ∧ item.production.isEmpty = true := by
  unfold recognized
  rw [Bool.or_eq_true, Bool.and_eq_true, decide_eq_true_iff]

namespace Reached

theorem justified (reached : Reached grammar word start i item) :
    Justified grammar word start i item := by
  induction reached with
  | seed => exact .seed
  | predicted _ member waits ih => exact .predicted ih member waits
  | scanned _ read waits ih => exact .scanned ih read waits
  | @completed i k inner waiting _ _ complete origin waits ih inner_ih =>
    rcases recognized_iff.mp complete with complete | ⟨front, empty⟩
    · exact .completed ih inner_ih complete origin waits
    · -- The epsilon item has read nothing, so its head is skipped in its own column.
      have placed := inner_ih.wellPlaced
      have same : k = i := by
        have began := placed.origin_of_dot front
        omega
      subst same
      rcases Grammar.mem_augmentedProductions.mp placed.production with augmented | member
      · rw [augmented] at empty
        cases empty
      · exact .skipped ih (Grammar.lhs_mem_nullable_of_isEmpty member empty) waits

theorem advancing : Advancing grammar word start (Reached grammar word start) where
  wellPlaced := fun reached => reached.justified.wellPlaced
  predicted := .predicted
  scanned := .scanned
  completed := by
    intro i waiting p read before member waits yields inside
    cases empty : p.isEmpty with
    | true =>
      have opened := before.predicted member waits
      rw [Production.yields_of_isEmpty empty yields]
      exact .completed before opened (recognized_iff.mpr (.inr ⟨rfl, empty⟩)) rfl waits
    | false =>
      have complete := Item.isComplete_fresh_movedBy p i
      exact .completed before (inside empty) (recognized_iff.mpr (.inl complete)) rfl waits

end Reached

end Plain

theorem Justified.reached (justified : Justified grammar word start i item) :
    Plain.Reached grammar word start i item := by
  induction justified with
  | seed => exact .seed
  | predicted _ member waits ih => exact .predicted ih member waits
  | @skipped i item s before nullable waits ih =>
    obtain ⟨p, member, rfl, inside⟩ := Grammar.yields_of_mem_nullable nullable
    have behind := before.wellPlaced.drop_of_waitsOn waits
    have solid : ∀ s ∈ [p.lhs], s.isEpsilon = false := by
      intro s single
      rw [List.mem_singleton.mp single]
      rfl
    exact Plain.Reached.advancing.advance (.of_body member inside) ih behind solid List.nil_prefix
  | scanned _ read waits ih => exact .scanned ih read waits
  | completed _ _ complete origin waits ih inner_ih =>
    exact .completed ih inner_ih (Plain.recognized_iff.mpr (.inl complete)) origin waits

/-- The plain steps lead to the same items. -/
theorem reached_iff_justified :
    Plain.Reached grammar word start i item ↔ Justified grammar word start i item :=
  ⟨Plain.Reached.justified, Justified.reached⟩

end Earley
