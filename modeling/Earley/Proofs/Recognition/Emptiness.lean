import Earley.Proofs.Grammar.Passes
import Earley.Proofs.Recognition.Reserved

/-!
# Nullable nonterminals and empty completions

The nullable set is computed from the productions alone, before any word is read.  A pass comes to
the same answer in each column: of the nonterminals that stand behind a dot there, the nullable ones
are those with an empty production and those that the pass completes in the column where it began
them.  An empty production is never completed, since its dot does not move.
-/

set_option autoImplicit false

namespace Earley

variable {grammar : Grammar} {word : List Char} {start : String} {chart : Chart} {i : Nat}
  {item : Item}

/-- If a nullable symbol is waited on, and no empty production makes it so, then a production of it
has been begun in the column, and its dot has been moved over nullable symbols to the end. -/
theorem Chart.ServedBefore.exists_completed
    (before : chart.ServedBefore grammar word (word.length + 1))
    (sound : chart.Sound grammar word start) (member : item ∈ chart.itemsAt i) {s : Symbol}
    (waits : item.waitsOn s = true) (nullable : s ∈ grammar.nullable) :
    (∃ p ∈ grammar.productions, p.lhs = s ∧ p.isEmpty = true) ∨
      ∃ inner ∈ chart.itemsAt i, inner.isComplete = true ∧ inner.lhs = s ∧
        inner.origin = (i : Nat) := by
  obtain ⟨p, rule, rfl, yields⟩ := Grammar.yields_of_mem_nullable nullable
  cases empty : p.isEmpty with
  | true => exact .inl ⟨p, rule, rfl, empty⟩
  | false =>
    have advancing := before.advancing sound
    have begun := advancing.predicted member rule waits
    have whole : (Item.fresh p (i : Nat)).body.drop (Item.fresh p (i : Nat)).dot.toNat =
        p.body ++ [] := (List.append_nil _).symm
    have ended := advancing.advance yields begun whole
      (fun s inBody => Production.solid_of_mem_body empty inBody) List.nil_prefix
    exact .inr ⟨_, ended, Item.isComplete_fresh_movedBy p i, rfl, rfl⟩

/-- What yields nothing beside the augmented production is nullable without it, or else the start
symbol is: the augmented production can only have put the start symbol in. -/
theorem Yields.nullable_or_start {symbols : List Symbol}
    (yields : Yields (grammar.augmentedProductions start) symbols []) :
    (∀ s ∈ symbols, s.isEpsilon = true ∨ s ∈ grammar.nullable) ∨
      .nonterminal start ∈ grammar.nullable := by
  generalize empty : ([] : List Char) = word at yields
  induction yields with
  | nil => exact .inl nofun
  | epsilon name _ ih =>
    refine (ih empty).imp_left fun others s member => ?_
    rcases List.mem_cons.mp member with rfl | member
    · exact .inl rfl
    · exact others s member
  | terminal => exact absurd empty (by simp)
  | @nonterminal p member rest first second _ _ inside behind =>
    obtain ⟨nothing, also⟩ := List.append_eq_nil_iff.mp empty.symm
    rcases inside nothing.symm with body | started
    · rcases Grammar.mem_augmentedProductions.mp member with rfl | rule
      · have epsilon_or := body (.nonterminal start) List.mem_cons_self
        exact .inr (epsilon_or.resolve_left nofun)
      · refine (behind also.symm).imp_left fun others s member => ?_
        rcases List.mem_cons.mp member with rfl | member
        · exact .inr (Grammar.lhs_mem_nullable rule body)
        · exact others s member
    · exact .inr started

namespace Recognition

theorem accepted_empty_iff : (build grammar "" start).accepted = true ↔
    .nonterminal start ∈ grammar.nullable := by
  constructor
  · intro accepted
    have yields := derives_spelling_iff.mp (derives_augmented_of_accepted accepted)
    rcases yields.nullable_or_start with start_nullable | nullable
    · exact (start_nullable _ List.mem_cons_self).resolve_left nofun
    · exact nullable
  · intro nullable
    obtain ⟨p, rule, same, yields⟩ := Grammar.yields_of_mem_nullable nullable
    apply accepted_of_derives
    rw [derives_spelling_iff, same]
    exact .of_body rule yields

/-- Wherever an item waits on a nonterminal, the nonterminal is nullable exactly when it has an empty
production or a production of it has been completed in the column where it began.  The empty word is
accepted, whatever the bodies mention, exactly when the start symbol is nullable. -/
theorem nullable_iff_completed (grammar : Grammar) (start : String) :
    (grammar.Unreserved → ∀ (word : String) (i : Nat),
      ∀ item ∈ (build grammar word start).chart.itemsAt i, ∀ name : String,
        item.waitsOn (.nonterminal name) = true →
        (.nonterminal name ∈ grammar.nullable ↔
          (∃ p ∈ grammar.productions, p.lhs = .nonterminal name ∧ p.isEmpty = true) ∨
          ∃ inner ∈ (build grammar word start).chart.itemsAt i, inner.isComplete = true ∧
            inner.lhs = .nonterminal name ∧ inner.origin = (i : Nat))) ∧
    (recognize grammar "" start).fault = none ∧
    ((recognize grammar "" start).accepted = true ↔ .nonterminal start ∈ grammar.nullable) := by
  refine ⟨fun unreserved word i item member name waits => ⟨?_, ?_⟩,
    faultless_recognize grammar "" start, ?_⟩
  · have before := servedBefore_build grammar word start
    exact before.exists_completed (underway_build grammar word start).sound member waits
  · have sound := (underway_build grammar word start).sound
    rintro (⟨p, rule, head, empty⟩ | ⟨inner, inside, complete, head, origin⟩)
    · exact head ▸ Grammar.lhs_mem_nullable_of_isEmpty rule empty
    · have waited := sound.justified i item member
      have completed := sound.justified i inner inside
      rw [← head] at waits ⊢
      exact waited.lhs_nullable unreserved completed complete origin waits
  · rw [accepted_recognize]
    exact accepted_empty_iff

end Recognition

/-! ## Brackets behind a leading nonterminal

`A` is nullable, but only through the brackets. -/

theorem Production.head_leading : (Production.leading "A" "S").head ≠ augmentedHead := by decide

def Grammar.leadingBrackets : Grammar :=
  brackets.append (.leading "A" "S") (by decide) Production.head_leading

namespace Recognition

theorem nullable_iff_completed_leading :
    Grammar.leadingBrackets.Unreserved ∧
      Chart.seed "A" ∈ (build .leadingBrackets "ab" "A").chart.itemsAt 0 ∧
      (Chart.seed "A").waitsOn (.nonterminal "A") = true ∧
      .nonterminal "A" ∈ Grammar.leadingBrackets.nullable ∧
      (∃ inner ∈ (build .leadingBrackets "ab" "A").chart.itemsAt 0, inner.isComplete = true ∧
        inner.lhs = .nonterminal "A" ∧ inner.origin = (0 : Nat)) ∧
      (recognize .leadingBrackets "" "A").accepted = true := by
  have unreserved : Grammar.leadingBrackets.Unreserved := by
    unfold Grammar.Unreserved
    decide
  have present : Chart.seed "A" ∈ (build .leadingBrackets "ab" "A").chart.itemsAt 0 := by decide
  have waits : (Chart.seed "A").waitsOn (.nonterminal "A") = true := by decide
  have nullable : .nonterminal "A" ∈ Grammar.leadingBrackets.nullable := by decide
  have filled : ¬ ∃ p ∈ Grammar.leadingBrackets.productions,
      p.lhs = .nonterminal "A" ∧ p.isEmpty = true := by decide
  obtain ⟨columns, _, empty⟩ := nullable_iff_completed .leadingBrackets "A"
  have completed := (columns unreserved "ab" 0 _ present "A" waits).mp nullable
  exact ⟨unreserved, present, waits, nullable, completed.resolve_left filled, empty.mpr nullable⟩

end Recognition

end Earley
