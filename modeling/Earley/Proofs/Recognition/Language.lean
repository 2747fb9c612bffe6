import Earley.Proofs.Grammar.Loading
import Earley.Proofs.Recognition.Contents

/-!
# The language of a recognizer

A word is accepted when the last column has the item of the augmented production with the start
symbol behind it, and the contents of the chart say when it does: when the start symbol derives the
word.  The augmented production does not count in that derivation.
-/

set_option autoImplicit false

namespace Earley

variable {grammar : Grammar} {word start : String}

theorem Grammar.Unreserved.derives_start_iff (unreserved : grammar.Unreserved)
    {word : List Char} :
    Derives (grammar.augmentedProductions start) [.nonterminal start] (Symbol.spelling word) ↔
      Derives grammar.productions [.nonterminal start] (Symbol.spelling word) := by
  have free : .reserved ∉ [Symbol.nonterminal start] ∨ start = augmentedHead :=
    unreserved.free (grammar.mem_augmentedProductions.mpr (.inl rfl))
  rw [derives_spelling_iff, derives_spelling_iff]
  constructor
  · intro yields
    exact yields.of_augment unreserved free
  · exact Yields.augment

namespace Recognition

theorem accepted_build_iff (unreserved : grammar.Unreserved) :
    (build grammar word start).accepted = true ↔
      Derives grammar.productions [.nonterminal start] (Symbol.spelling word.toList) := by
  have final : (Chart.seed start).moved =
      ⟨(0 : Nat), [Symbol.nonterminal start].length, .augmented start⟩ := rfl
  have member : Production.augmented start ∈ grammar.augmentedProductions start :=
    List.mem_cons_self
  have split : (Production.augmented start).body = [.nonterminal start] ++ [] := rfl
  have begins : grammar.Viable start [] .reserved :=
    ⟨[], [], .refl _, derives_spelling_iff.mpr .nil⟩
  rw [accepted_build_iff_mem, mem_itemsAt_build unreserved, final,
    justified_iff unreserved (Nat.le_refl _) member split,
    ← unreserved.derives_start_iff]
  constructor
  · rintro ⟨_, k, origin, _, _, derives⟩
    have zero : k = 0 := by omega
    rw [zero, slice_length] at derives
    exact derives
  · intro derives
    refine ⟨nofun, 0, rfl, Nat.zero_le _, begins, ?_⟩
    rw [slice_length]
    exact derives

/-- A word is recognized without a fault, and it is accepted exactly when the start symbol derives
it.  The grammar was read from lines, or no body of it mentions the reserved nonterminal. -/
theorem recognize_accepts_language (grammar : Grammar)
    (source : (∃ lines, Grammar.ofLines lines = .ok grammar) ∨ grammar.Unreserved)
    (word start : String) :
    (recognize grammar word start).fault = none ∧
      ((recognize grammar word start).accepted = true ↔
        Derives grammar.productions [.nonterminal start] (Symbol.spelling word.toList)) := by
  have unreserved : grammar.Unreserved := by
    rcases source with ⟨lines, loaded⟩ | unreserved
    · exact Grammar.unreserved_ofLines loaded
    · exact unreserved
  have faultless := (underway_build grammar word start).faultless
  unfold recognize
  rw [unlessFaulty_of_faultless faultless]
  exact ⟨faultless, accepted_build_iff unreserved⟩

theorem recognize_accepts_brackets :
    Grammar.brackets.Unreserved ∧ (recognize .brackets "ab" "S").accepted = true ∧
      Derives Grammar.brackets.productions [.nonterminal "S"] (Symbol.spelling "ab".toList) := by
  have accepted : (recognize .brackets "ab" "S").accepted = true := by decide
  have language := recognize_accepts_language .brackets (.inr Grammar.unreserved_brackets) "ab" "S"
  exact ⟨Grammar.unreserved_brackets, accepted, language.2.mp accepted⟩

end Recognition

end Earley
