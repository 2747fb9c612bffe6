import Earley.Grammar.Loading
import Earley.Proofs.Grammar.Addition
import Earley.Proofs.Grammar.Unreserved

/-!
# Grammars from text

Every production of a grammar that was read from lines was read from two texts.  The reserved
nonterminal has a name of two characters, and a written symbol has one.  So such a grammar does not
mention it.
-/

set_option autoImplicit false

namespace Earley

theorem singleton_ne_augmentedHead (c : Char) : String.singleton c ≠ augmentedHead := by
  intro same
  have names := congrArg String.toList same
  have long : augmentedHead.toList.length = 2 := by decide
  rw [← names, String.toList_singleton, List.length_singleton] at long
  omega

def Symbol.Legible (s : Symbol) : Prop := ∃ c, Symbol.ofChar c = .ok s

theorem Symbol.name_of_ofChar {c : Char} {s : Symbol} (read : ofChar c = .ok s) :
    s.name = String.singleton c := by
  unfold ofChar at read
  split at read
  · rename_i mark
    cases read
    rw [mark]
    rfl
  · split at read
    · cases read
      rfl
    · split at read
      · cases read
        rfl
      · cases read

theorem Symbol.Legible.ne_reserved {s : Symbol} (legible : s.Legible) : s ≠ .reserved := by
  rintro rfl
  obtain ⟨c, read⟩ := legible
  exact singleton_ne_augmentedHead c (name_of_ofChar read).symm

theorem Symbol.legible_of_ofText {text : String} {s : Symbol} (read : ofText text = .ok s) :
    s.Legible := by
  unfold ofText at read
  split at read
  · exact ⟨_, read⟩
  · cases read

/-! ## Productions from text -/

theorem Production.make_eq_ok_iff {lhs : Symbol} {body : List Symbol} {p : Production} :
    make lhs body = .ok p ↔ lhs = p.lhs ∧ body = p.body := by
  constructor
  · intro made
    unfold make at made
    split at made
    · split at made
      · cases made
      · split at made
        · cases made
          exact ⟨rfl, rfl⟩
        · cases made
    · cases made
    · cases made
  · rintro ⟨rfl, rfl⟩
    unfold make Production.lhs
    dsimp only
    rw [dif_neg p.body_ne_nil, dif_pos p.epsilon_alone]

theorem Production.ofText_eq_ok_iff {lhs body : String} {p : Production} :
    ofText lhs body = .ok p ↔
      Symbol.ofText lhs = .ok p.lhs ∧ body.toList.map Symbol.ofChar = p.body.map .ok := by
  rw [← mapM_eq_ok_iff]
  simp [ofText, bind_eq_ok_iff, make_eq_ok_iff]

theorem Production.legible_of_ofText {lhs body : String} {p : Production}
    (read : ofText lhs body = .ok p) : p.lhs.Legible ∧ ∀ s ∈ p.body, s.Legible := by
  obtain ⟨head, symbols⟩ := ofText_eq_ok_iff.mp read
  refine ⟨Symbol.legible_of_ofText head, fun s member => ?_⟩
  have listed : (.ok s : Except GrammarError Symbol) ∈ p.body.map .ok := List.mem_map_of_mem member
  rw [← symbols] at listed
  obtain ⟨c, _, written⟩ := List.mem_map.mp listed
  exact ⟨c, written⟩

theorem Production.not_reserved_of_ofText {lhs body : String} {p : Production}
    (read : ofText lhs body = .ok p) : .reserved ∉ p.body :=
  fun member => ((legible_of_ofText read).2 _ member).ne_reserved rfl

/-! ## Loaded grammars -/

/-- Every production of the grammar was read from two texts. -/
def Grammar.Written (grammar : Grammar) : Prop :=
  ∀ p ∈ grammar.productions, ∃ lhs body, Production.ofText lhs body = .ok p

theorem Grammar.written_addRuleLine {before after : Grammar} {line : RuleLine}
    (written : before.Written) (added : before.addRuleLine line = .ok after) : after.Written := by
  refine foldlM_keeps ?_ written added
  intro before body after written step
  obtain ⟨p, read, inserted⟩ := bind_eq_ok_iff.mp step
  rcases (insert_cases inserted).2 with ⟨_, rfl⟩ | ⟨_, _, rfl⟩
  · exact written
  · intro q member
    rcases List.mem_append.mp member with old | last
    · exact written q old
    · rw [List.mem_singleton.mp last]
      exact ⟨line.head, body, read⟩

theorem Grammar.addLine_cases {before after : Grammar} {line : String}
    (added : before.addLine line = .ok after) :
    Text.strip line = "" ∧ after = before ∨
      ∃ found, RuleLine.parse (Text.strip line) = .ok found ∧
        before.addRuleLine found = .ok after := by
  unfold addLine at added
  dsimp only at added
  split at added
  · rename_i blank
    exact .inl ⟨blank, (Except.ok.inj added).symm⟩
  · exact .inr (bind_eq_ok_iff.mp added)

theorem Grammar.written_addLine {before after : Grammar} {line : String}
    (written : before.Written) (added : before.addLine line = .ok after) : after.Written := by
  rcases addLine_cases added with ⟨_, rfl⟩ | ⟨found, _, added⟩
  · exact written
  · exact written_addRuleLine written added

theorem Grammar.written_ofLines {lines : List String} {grammar : Grammar}
    (loaded : ofLines lines = .ok grammar) : grammar.Written := by
  have start : empty.Written := fun p member => absurd member List.not_mem_nil
  refine foldlM_keeps ?_ start loaded
  intro before line after written added
  exact written_addLine written added

theorem Grammar.unreserved_ofLines {lines : List String} {grammar : Grammar}
    (loaded : ofLines lines = .ok grammar) : grammar.Unreserved := by
  intro p member
  obtain ⟨_, _, read⟩ := written_ofLines loaded p member
  exact Production.not_reserved_of_ofText read

end Earley
