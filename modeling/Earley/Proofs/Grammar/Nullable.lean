import Earley.Grammar.Basic
import Earley.Proofs.Grammar.Derivation
import Earley.Proofs.Growth

/-!
# The nullable nonterminals are those that derive the empty word

The passes over the productions end at a set that is closed: the head of a production whose body
is nullable throughout is in it.  Nothing enters the set that does not derive the empty word.
-/

set_option autoImplicit false

namespace Earley

variable {productions : List Production}

theorem Production.isEmpty_iff {p : Production} :
    p.isEmpty = true ↔ ∃ name, p.body = [.epsilon name] := by
  unfold isEmpty
  constructor
  · intro empty
    split at empty
    · rename_i s single
      cases s with
      | epsilon name => exact ⟨name, single⟩
      | terminal => simp [Symbol.isEpsilon] at empty
      | nonterminal => simp [Symbol.isEpsilon] at empty
    · simp at empty
  · rintro ⟨name, single⟩
    rw [single]
    rfl

theorem Production.solid_of_mem_body {p : Production} (filled : p.isEmpty = false) {s : Symbol}
    (member : s ∈ p.body) : s.isEpsilon = false := by
  cases body : p.body with
  | nil => exact absurd body p.body_ne_nil
  | cons t rest =>
    cases rest with
    | nil =>
      rw [body, List.mem_singleton] at member
      unfold isEmpty at filled
      rw [body] at filled
      rw [member]
      exact filled
    | cons u rest =>
      have long : 1 < p.body.length := by
        rw [body, List.length_cons, List.length_cons]
        omega
      exact p.epsilon_alone long s member

theorem Production.vanishes_iff {p : Production} {known : List Symbol} :
    p.vanishes known = true ↔ ∀ s ∈ p.body, s.isEpsilon = true ∨ s ∈ known := by
  simp [vanishes]

/-! ## Passes over the productions -/

structure NullableHeads (productions : List Production) (known : List Symbol) : Prop where
  nodup : known.Nodup
  yields : ∀ s ∈ known, ∃ p ∈ productions, s = p.lhs ∧ Yields productions p.body []

theorem NullableHeads.appendNew {known : List Symbol} (heads : NullableHeads productions known)
    {p : Production} (member : p ∈ productions) (inside : Yields productions p.body []) :
    NullableHeads productions (appendNew known p.lhs) where
  nodup := nodup_appendNew heads.nodup p.lhs
  yields := by
    intro s present
    rcases mem_appendNew.mp present with present | rfl
    · exact heads.yields s present
    · exact ⟨p, member, rfl, inside⟩

theorem NullableHeads.length_le {known : List Symbol} (heads : NullableHeads productions known) :
    known.length ≤ productions.length := by
  have subset : known ⊆ productions.map Production.lhs := by
    intro s present
    obtain ⟨p, member, rfl, _⟩ := heads.yields s present
    exact List.mem_map_of_mem member
  have bounded := heads.nodup.length_le_of_subset subset
  rwa [List.length_map] at bounded

theorem nullableHeads_emptyHeads : NullableHeads productions (emptyHeads productions) := by
  refine List.foldlRecOn productions _ ⟨List.nodup_nil, nofun⟩ ?_
  intro known heads p member
  split
  · rename_i empty
    obtain ⟨name, single⟩ := Production.isEmpty_iff.mp empty
    exact heads.appendNew member (by rw [single]; exact .epsilon name .nil)
  · exact heads

def nullableStep (known : List Symbol) (p : Production) : List Symbol :=
  if p.vanishes known then appendNew known p.lhs else known

theorem nullablePass_eq (known : List Symbol) :
    nullablePass productions known = productions.foldl nullableStep known := rfl

theorem prefix_nullableStep (known : List Symbol) (p : Production) :
    known <+: nullableStep known p := by
  unfold nullableStep
  split
  · exact prefix_appendNew known p.lhs
  · exact List.prefix_rfl

theorem prefix_nullablePass (known : List Symbol) : known <+: nullablePass productions known :=
  prefix_foldl prefix_nullableStep productions known

theorem Yields.nil_of_forall {symbols : List Symbol}
    (each : ∀ s ∈ symbols, s.isEpsilon = true ∨ Yields productions [s] []) :
    Yields productions symbols [] := by
  induction symbols with
  | nil => exact .nil
  | cons s rest ih =>
    have behind := ih fun t member => each t (List.mem_cons_of_mem s member)
    rcases each s List.mem_cons_self with epsilon | yields
    · cases s with
      | epsilon name => exact .epsilon name behind
      | terminal => simp [Symbol.isEpsilon] at epsilon
      | nonterminal => simp [Symbol.isEpsilon] at epsilon
    · exact yields.append behind

theorem nullableHeads_nullablePass (known : List Symbol) (heads : NullableHeads productions known) :
    NullableHeads productions (nullablePass productions known) := by
  rw [nullablePass_eq]
  refine List.foldlRecOn productions nullableStep heads ?_
  intro known heads p member
  unfold nullableStep
  split
  · rename_i vanishes
    refine heads.appendNew member (Yields.nil_of_forall fun s inBody => ?_)
    rcases Production.vanishes_iff.mp vanishes s inBody with epsilon | present
    · exact .inl epsilon
    · obtain ⟨q, other, rfl, inside⟩ := heads.yields s present
      exact .inr (.of_body other inside)
  · exact heads

/-! ## The set that the passes end at -/

theorem nullableFrom_eq (fuel : Nat) (known : List Symbol) :
    nullableFrom productions fuel known =
      growUntilStable (nullablePass productions) fuel known := by
  induction fuel generalizing known with
  | zero => rfl
  | succ fuel ih => simp only [nullableFrom, growUntilStable, ih]

theorem nullableHeads_nullableSymbols :
    NullableHeads productions (nullableSymbols productions) := by
  unfold nullableSymbols
  rw [nullableFrom_eq]
  exact growUntilStable_keeps nullableHeads_nullablePass productions.length
    nullableHeads_emptyHeads

theorem nullablePass_nullableSymbols :
    nullablePass productions (nullableSymbols productions) = nullableSymbols productions := by
  unfold nullableSymbols
  rw [nullableFrom_eq]
  exact grow_growUntilStable prefix_nullablePass nullableHeads_nullablePass
    (fun _ heads => heads.length_le) nullableHeads_emptyHeads (Nat.le_add_right _ _)

theorem lhs_mem_nullableSymbols {p : Production} (member : p ∈ productions)
    (vanishes : ∀ s ∈ p.body, s.isEpsilon = true ∨ s ∈ nullableSymbols productions) :
    p.lhs ∈ nullableSymbols productions := by
  have stays : nullableStep (nullableSymbols productions) p = nullableSymbols productions :=
    step_eq_of_foldl_eq prefix_nullableStep nullablePass_nullableSymbols member
  unfold nullableStep at stays
  rw [if_pos (Production.vanishes_iff.mpr vanishes)] at stays
  rw [← stays]
  exact mem_appendNew.mpr (.inr rfl)

theorem Yields.nullable {symbols : List Symbol} (yields : Yields productions symbols []) :
    ∀ s ∈ symbols, s.isEpsilon = true ∨ s ∈ nullableSymbols productions := by
  generalize empty : ([] : List Char) = word at yields
  induction yields with
  | nil => exact fun s member => absurd member List.not_mem_nil
  | epsilon name _ ih =>
    intro s member
    rcases List.mem_cons.mp member with rfl | member
    · exact .inl rfl
    · exact ih empty s member
  | terminal => exact absurd empty (by simp)
  | nonterminal member _ _ inside behind =>
    obtain ⟨first, second⟩ := List.append_eq_nil_iff.mp empty.symm
    intro s present
    rcases List.mem_cons.mp present with rfl | present
    · exact .inr (lhs_mem_nullableSymbols member (inside first.symm))
    · exact behind second.symm s present

theorem nonterminal_mem_nullableSymbols_iff {name : String} :
    .nonterminal name ∈ nullableSymbols productions ↔
      Yields productions [.nonterminal name] [] := by
  constructor
  · intro nullable
    obtain ⟨p, member, same, inside⟩ := nullableHeads_nullableSymbols.yields _ nullable
    exact same ▸ .of_body member inside
  · intro yields
    rcases yields.nullable _ List.mem_cons_self with epsilon | nullable
    · simp [Symbol.isEpsilon] at epsilon
    · exact nullable

/-! ## The nullable set of a grammar -/

namespace Grammar

variable {grammar : Grammar} {s : Symbol}

theorem yields_of_mem_nullable (nullable : s ∈ grammar.nullable) :
    ∃ p ∈ grammar.productions, s = p.lhs ∧ Yields grammar.productions p.body [] := by
  rw [grammar.nullable_eq] at nullable
  exact nullableHeads_nullableSymbols.yields s nullable

theorem nonterminal_of_mem_nullable (nullable : s ∈ grammar.nullable) :
    ∃ name, s = .nonterminal name := by
  obtain ⟨p, _, same, _⟩ := yields_of_mem_nullable nullable
  exact ⟨p.head, same⟩

theorem lhs_mem_nullable {p : Production} (member : p ∈ grammar.productions)
    (vanishes : ∀ s ∈ p.body, s.isEpsilon = true ∨ s ∈ grammar.nullable) :
    p.lhs ∈ grammar.nullable := by
  rw [grammar.nullable_eq] at vanishes ⊢
  exact lhs_mem_nullableSymbols member vanishes

theorem lhs_mem_nullable_of_isEmpty {p : Production} (member : p ∈ grammar.productions)
    (empty : p.isEmpty = true) : p.lhs ∈ grammar.nullable := by
  obtain ⟨name, single⟩ := Production.isEmpty_iff.mp empty
  apply lhs_mem_nullable member
  intro s inBody
  rw [single, List.mem_singleton] at inBody
  rw [inBody]
  exact .inl rfl

end Grammar

theorem Production.yields_of_isEmpty {p : Production} {word : List Char} (empty : p.isEmpty = true)
    (yields : Yields productions p.body word) : word = [] := by
  obtain ⟨name, single⟩ := isEmpty_iff.mp empty
  rw [single] at yields
  cases yields with
  | epsilon name yields =>
    cases yields
    rfl

end Earley
