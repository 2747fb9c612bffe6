import Mathlib.Logic.Function.Iterate
import Earley.Proofs.Grammar.Nullable
import Earley.Proofs.Grammar.Unreserved

/-!
# The passes that find the nullable nonterminals

Every pass but the last adds a head, and there are no more heads than productions.  So the passes
end by themselves, at a set that does not depend on the order of the productions: the nonterminals
that derive the empty word.
-/

set_option autoImplicit false

namespace Earley

variable {α : Type} {productions : List Production}

/-- Growing until the length stays is growing some number of times, each time by a value. -/
theorem growUntilStable_eq_iterate {grow : List α → List α}
    (keeping : ∀ values, values <+: grow values) (fuel : Nat) (values : List α) :
    ∃ rounds ≤ fuel, growUntilStable grow fuel values = grow^[rounds] values ∧
      ∀ n < rounds, (grow^[n] values).length < (grow^[n + 1] values).length := by
  induction fuel generalizing values with
  | zero => exact ⟨0, Nat.le_refl 0, rfl, nofun⟩
  | succ fuel ih =>
    by_cases stays : (grow values).length = values.length
    · exact ⟨0, Nat.zero_le _, by simp [growUntilStable, stays], nofun⟩
    · obtain ⟨rounds, enough, same, longer⟩ := ih (grow values)
      refine ⟨rounds + 1, Nat.succ_le_succ enough, ?_, ?_⟩
      · simp [growUntilStable, stays, same]
      · intro n early
        cases n with
        | zero => exact Nat.lt_of_le_of_ne (keeping values).length_le (Ne.symm stays)
        | succ n => exact longer n (Nat.lt_of_succ_lt_succ early)

/-! ## Productions none of which is empty -/

theorem Production.vanishes_nil (p : Production) : p.vanishes [] = p.isEmpty := by
  cases empty : p.isEmpty with
  | true =>
    obtain ⟨name, single⟩ := isEmpty_iff.mp empty
    simp [vanishes, single, Symbol.isEpsilon]
  | false =>
    obtain ⟨s, inBody⟩ := List.exists_mem_of_ne_nil p.body p.body_ne_nil
    have solid := solid_of_mem_body empty inBody
    simp only [vanishes, List.all_eq_false]
    exact ⟨s, inBody, by simp [solid]⟩

theorem nullableSymbols_eq_nil (filled : ∀ p ∈ productions, p.isEmpty = false) :
    nullableSymbols productions = [] := by
  have heads : emptyHeads productions = [] := by
    refine List.foldlRecOn (motive := (· = [])) productions _ rfl fun known nothing p member => ?_
    simp [nothing, filled p member]
  have pass : nullablePass productions [] = [] := by
    refine List.foldlRecOn (motive := (· = [])) productions _ rfl fun known nothing p member => ?_
    simp [nothing, p.vanishes_nil, filled p member]
  unfold nullableSymbols
  rw [heads]
  cases productions.length <;> simp [nullableFrom, pass]

theorem nullableSymbols_eq_nil_iff :
    nullableSymbols productions = [] ↔ ∀ p ∈ productions, p.isEmpty = false := by
  refine ⟨fun nothing p member => ?_, nullableSymbols_eq_nil⟩
  cases empty : p.isEmpty with
  | false => rfl
  | true =>
    obtain ⟨name, single⟩ := Production.isEmpty_iff.mp empty
    have nullable : p.lhs ∈ nullableSymbols productions :=
      lhs_mem_nullableSymbols member fun s inBody => .inl (by simp_all [Symbol.isEpsilon])
    simp [nothing] at nullable

/-! ## The passes -/

/-- Some number of passes, each of which adds a head, leads from the heads of the empty
productions to the set. -/
theorem nullableSymbols_eq_iterate (productions : List Production) :
    ∃ passes ≤ productions.length,
      nullableSymbols productions = (nullablePass productions)^[passes] (emptyHeads productions) ∧
      ∀ n < passes, ((nullablePass productions)^[n] (emptyHeads productions)).length <
        ((nullablePass productions)^[n + 1] (emptyHeads productions)).length := by
  unfold nullableSymbols
  rw [nullableFrom_eq]
  exact growUntilStable_eq_iterate prefix_nullablePass _ _

theorem mem_nullableSymbols_iff {s : Symbol} :
    s ∈ nullableSymbols productions ↔
      ∃ name, s = .nonterminal name ∧ Derives productions [.nonterminal name] [] := by
  have derives (name : String) : Derives productions [.nonterminal name] [] ↔
      Yields productions [.nonterminal name] [] := by
    rw [← derives_spelling_iff]
    rfl
  simp only [derives, ← nonterminal_mem_nullableSymbols_iff]
  constructor
  · intro nullable
    obtain ⟨p, _, rfl, _⟩ := nullableHeads_nullableSymbols.yields s nullable
    exact ⟨p.head, rfl, nullable⟩
  · rintro ⟨name, rfl, nullable⟩
    exact nullable

/-- The passes end: after some number of them, at most as many as there are productions and each
with a head to add, one adds nothing.  Then the set has exactly the nonterminals that derive the
empty word and no other symbol, each of them once.  It is empty if no production is. -/
theorem nullableSymbols_exact (productions : List Production) :
    (∃ passes ≤ productions.length,
      nullableSymbols productions = (nullablePass productions)^[passes] (emptyHeads productions) ∧
      (∀ n < passes, ((nullablePass productions)^[n] (emptyHeads productions)).length <
        ((nullablePass productions)^[n + 1] (emptyHeads productions)).length) ∧
      nullablePass productions (nullableSymbols productions) = nullableSymbols productions) ∧
    (nullableSymbols productions = [] ↔ ∀ p ∈ productions, p.isEmpty = false) ∧
    (nullableSymbols productions).Nodup ∧
    ∀ s : Symbol, s ∈ nullableSymbols productions ↔
      ∃ name, s = .nonterminal name ∧ Derives productions [.nonterminal name] [] := by
  obtain ⟨passes, few, reached, growing⟩ := nullableSymbols_eq_iterate productions
  refine ⟨⟨passes, few, reached, growing, nullablePass_nullableSymbols⟩,
    nullableSymbols_eq_nil_iff, nullableHeads_nullableSymbols.nodup, fun s => ?_⟩
  exact mem_nullableSymbols_iff

theorem Production.leading_ne_nil (next : String) : [Symbol.nonterminal next] ≠ [] :=
  List.cons_ne_nil _ _

theorem Production.leading_alone (next : String) (long : 1 < [Symbol.nonterminal next].length) :
    ∀ s ∈ [Symbol.nonterminal next], s.isEpsilon = false :=
  absurd long (Nat.lt_irrefl 1)

def Production.leading (head next : String) : Production where
  head := head
  body := [.nonterminal next]
  body_ne_nil := leading_ne_nil next
  epsilon_alone := leading_alone next

/-- A chain to the empty production, of which each pass finds one more link, and a circle. -/
def Production.chain : List Production :=
  [leading "A" "B", leading "B" "S", nothing, leading "C" "C"]

theorem nullableSymbols_exact_chain :
    (∃ passes ≤ 4, 1 < passes ∧
      (emptyHeads Production.chain).length <
        ((nullablePass Production.chain)^[1] (emptyHeads Production.chain)).length ∧
      nullableSymbols Production.chain =
        (nullablePass Production.chain)^[passes] (emptyHeads Production.chain)) ∧
    Derives Production.chain [.nonterminal "A"] [] ∧
    ¬ Derives Production.chain [.nonterminal "C"] [] := by
  obtain ⟨⟨passes, few, reached, growing, _⟩, _, _, members⟩ :=
    nullableSymbols_exact Production.chain
  have several : 1 < passes := by
    rcases passes with _ | _ | passes
    · exact absurd reached (by decide)
    · exact absurd reached (by decide)
    · omega
  have found : Symbol.nonterminal "A" ∈ nullableSymbols Production.chain := by decide
  have missing : Symbol.nonterminal "C" ∉ nullableSymbols Production.chain := by decide
  obtain ⟨name, same, derives⟩ := (members _).mp found
  refine ⟨⟨passes, few, several, growing 0 (by omega), reached⟩, ?_, ?_⟩
  · cases same
    exact derives
  · exact fun derives => missing ((members _).mpr ⟨"C", rfl, derives⟩)

end Earley
