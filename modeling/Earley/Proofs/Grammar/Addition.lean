import Earley.Grammar.Addition
import Earley.Proofs.Fallible
import Earley.Proofs.Growth

/-!
# What an addition does

A production with the reserved head is refused, one that is there already changes nothing, and any
other goes behind those at hand.  So a grammar that is made of productions has them in order and
without the repetitions, and its own productions make it again.
-/

set_option autoImplicit false

namespace Earley

namespace Grammar

variable {grammar after : Grammar} {p : Production} {productions : List Production}

/-! ## One production -/

theorem add_cases (grammar : Grammar) (p : Production) :
    p.head = augmentedHead ∧ grammar.add p = .error .reservedHead ∨
    p.head ≠ augmentedHead ∧ p ∈ grammar.productions ∧ grammar.add p = .ok (false, grammar) ∨
    ∃ new : p ∉ grammar.productions, ∃ allowed : p.head ≠ augmentedHead,
      grammar.add p = .ok (true, grammar.append p new allowed) := by
  unfold add
  by_cases reserved : p.head = augmentedHead
  · exact .inl ⟨reserved, dif_pos reserved⟩
  · by_cases present : p ∈ grammar.productions
    · exact .inr (.inl ⟨reserved, present, by rw [dif_neg reserved, dif_pos present]⟩)
    · exact .inr (.inr ⟨present, reserved, by rw [dif_neg reserved, dif_neg present]⟩)

theorem insert_cases (inserted : grammar.insert p = .ok after) :
    p.head ≠ augmentedHead ∧ (p ∈ grammar.productions ∧ after = grammar ∨
      ∃ new : p ∉ grammar.productions, ∃ allowed : p.head ≠ augmentedHead,
        after = grammar.append p new allowed) := by
  unfold insert at inserted
  rcases grammar.add_cases p with ⟨_, added⟩ | ⟨allowed, present, added⟩ | ⟨new, allowed, added⟩
  · simp [added, Except.map] at inserted
  · simp only [added, Except.map, Except.ok.injEq] at inserted
    exact ⟨allowed, .inl ⟨present, inserted.symm⟩⟩
  · simp only [added, Except.map, Except.ok.injEq] at inserted
    exact ⟨allowed, .inr ⟨new, allowed, inserted.symm⟩⟩

theorem insert_ok (grammar : Grammar) (allowed : p.head ≠ augmentedHead) :
    ∃ after, grammar.insert p = .ok after ∧
      after.productions = appendNew grammar.productions p := by
  unfold insert
  rcases grammar.add_cases p with ⟨reserved, _⟩ | ⟨_, present, added⟩ | ⟨new, _, added⟩
  · exact absurd reserved allowed
  · exact ⟨grammar, by rw [added]; rfl, by rw [appendNew, if_pos present]⟩
  · exact ⟨_, by rw [added]; rfl, by rw [appendNew, if_neg new]; rfl⟩

/-! ## Several productions -/

theorem foldlM_insert (grammar : Grammar) (allowed : ∀ p ∈ productions, p.head ≠ augmentedHead) :
    ∃ after, productions.foldlM insert grammar = .ok after ∧
      after.productions = productions.foldl appendNew grammar.productions := by
  induction productions generalizing grammar with
  | nil => exact ⟨grammar, rfl, rfl⟩
  | cons p rest ih =>
    obtain ⟨middle, inserted, one⟩ := grammar.insert_ok (allowed p List.mem_cons_self)
    obtain ⟨after, folded, all⟩ :=
      ih middle fun q member => allowed q (List.mem_cons_of_mem p member)
    refine ⟨after, ?_, by rw [all, one]; rfl⟩
    rw [List.foldlM_cons, inserted]
    exact folded

theorem productions_ofProductions (created : ofProductions productions = .ok grammar) :
    grammar.productions = productions.foldl appendNew [] := by
  have allowed : ∀ p ∈ productions, p.head ≠ augmentedHead := by
    intro p member
    obtain ⟨_, _, inserted⟩ := foldlM_step created p member
    exact (insert_cases inserted).1
  obtain ⟨after, folded, grown⟩ := foldlM_insert empty allowed
  cases created.symm.trans folded
  exact grown

theorem known_ofProductions (created : ofProductions productions = .ok grammar) :
    grammar.known = none := by
  refine foldlM_keeps (motive := fun grammar => grammar.known = none) ?_ rfl created
  intro before p after unknown inserted
  rcases (insert_cases inserted).2 with ⟨_, rfl⟩ | ⟨_, _, rfl⟩
  · exact unknown
  · rfl

/-- The productions of a grammar make a grammar with these productions. -/
theorem ofProductions_productions (grammar : Grammar) :
    ∃ fresh, ofProductions grammar.productions = .ok fresh ∧
      fresh.productions = grammar.productions := by
  obtain ⟨fresh, folded, grown⟩ := foldlM_insert empty grammar.head_ne_augmented
  refine ⟨fresh, folded, ?_⟩
  calc fresh.productions = grammar.productions.foldl appendNew [] := grown
    _ = grammar.productions.eraseDups := foldl_appendNew_nil _
    _ = grammar.productions := eraseDups_of_nodup grammar.nodup

end Grammar

/-! ## The three forms of an addition -/

def Addition.allowed? (addition : Addition) : Option Production :=
  match addition.production? with
  | .ok p => if p.head = augmentedHead then none else some p
  | .error _ => none

namespace Grammar

variable {addition : Addition}

theorem extend_of_error (grammar : Grammar) {refusal : Refusal}
    (asked : addition.production? = .error refusal) :
    grammar.extend addition = .error refusal := by
  rw [extend, asked]
  rfl

theorem extend_of_ok (grammar : Grammar) {p : Production}
    (asked : addition.production? = .ok p) :
    grammar.extend addition = (grammar.add p).mapError .grammar := by
  rw [extend, asked]
  rfl

theorem extend_cases (grammar : Grammar) (addition : Addition) :
    (∃ refusal, addition.allowed? = none ∧ grammar.extend addition = .error refusal) ∨
    (∃ p ∈ grammar.productions, addition.allowed? = some p ∧
      grammar.extend addition = .ok (false, grammar)) ∨
    ∃ p, ∃ new : p ∉ grammar.productions, ∃ allowed : p.head ≠ augmentedHead,
      addition.allowed? = some p ∧
        grammar.extend addition = .ok (true, grammar.append p new allowed) := by
  unfold Addition.allowed?
  cases asked : addition.production? with
  | error refusal => exact .inl ⟨refusal, rfl, grammar.extend_of_error asked⟩
  | ok p =>
    rw [grammar.extend_of_ok asked]
    rcases grammar.add_cases p with ⟨reserved, added⟩ | ⟨allowed, present, added⟩ |
      ⟨new, allowed, added⟩
    · exact .inl ⟨.grammar .reservedHead, if_pos reserved, by rw [added]; rfl⟩
    · exact .inr (.inl ⟨p, present, if_neg allowed, by rw [added]; rfl⟩)
    · exact .inr (.inr ⟨p, new, allowed, if_neg allowed, by rw [added]; rfl⟩)

end Grammar

end Earley
