import Earley.Grammar.Derivation

/-!
# Derivations and words

A list of symbols derives a word, spelled out in terminals, exactly when it yields the word.  The
yield relation is the easier one to take apart, since it reads the symbols from left to right.
-/

set_option autoImplicit false

namespace Earley

def Symbol.spelling (word : List Char) : List Symbol :=
  word.map fun c => .terminal (String.singleton c)

theorem Symbol.spelling_append (first second : List Char) :
    spelling (first ++ second) = spelling first ++ spelling second := List.map_append

variable {productions : List Production}

/-! ## Derivations -/

theorem Derives.trans {first middle last : List Symbol} (left : Derives productions first middle)
    (right : Derives productions middle last) : Derives productions first last := by
  induction left with
  | refl => exact right
  | step step _ ih => exact .step step (ih right)

theorem Derives.of_mem {p : Production} (member : p ∈ productions) :
    Derives productions [p.lhs] p.body := by
  have step := Derives.step (.expand member [] []) (.refl _)
  simpa only [List.nil_append, List.append_nil] using step

theorem Rewrites.frame {first second : List Symbol} (step : Rewrites productions first second)
    (before after : List Symbol) :
    Rewrites productions (before ++ (first ++ after)) (before ++ (second ++ after)) := by
  cases step with
  | @expand p member inner outer =>
    have framed := Rewrites.expand member (before ++ inner) (outer ++ after)
    simpa only [List.append_assoc, List.cons_append] using framed
  | erase name inner outer =>
    have framed : Rewrites productions _ _ :=
      .erase name (before ++ inner) (outer ++ after)
    simpa only [List.append_assoc, List.cons_append] using framed

theorem Derives.frame {first last : List Symbol} (derives : Derives productions first last)
    (before after : List Symbol) :
    Derives productions (before ++ (first ++ after)) (before ++ (last ++ after)) := by
  induction derives with
  | refl => exact .refl _
  | step step _ ih => exact .step (step.frame before after) ih

theorem Derives.append {first second first' second' : List Symbol}
    (left : Derives productions first first') (right : Derives productions second second') :
    Derives productions (first ++ second) (first' ++ second') := by
  have front : Derives productions (first ++ second) (first' ++ second) :=
    left.frame [] second
  have back : Derives productions (first' ++ second) (first' ++ second') := by
    simpa only [List.append_nil] using right.frame first' []
  exact front.trans back

/-! ## Yields -/

theorem Yields.append {first second : List Symbol} {word word' : List Char}
    (left : Yields productions first word) (right : Yields productions second word') :
    Yields productions (first ++ second) (word ++ word') := by
  induction left with
  | nil => exact right
  | epsilon name _ ih => exact .epsilon name ih
  | terminal c _ ih => exact .terminal c ih
  | nonterminal member inside _ _ ih =>
    rw [List.cons_append, List.append_assoc]
    exact .nonterminal member inside ih

theorem Yields.split {first second : List Symbol} {word : List Char}
    (yields : Yields productions (first ++ second) word) :
    ∃ left right, word = left ++ right ∧ Yields productions first left ∧
      Yields productions second right := by
  induction first generalizing word with
  | nil => exact ⟨[], word, rfl, .nil, yields⟩
  | cons s first ih =>
    rw [List.cons_append] at yields
    cases yields with
    | epsilon name yields =>
      obtain ⟨left, right, same, front, back⟩ := ih yields
      exact ⟨left, right, same, .epsilon name front, back⟩
    | terminal c yields =>
      obtain ⟨left, right, same, front, back⟩ := ih yields
      exact ⟨c :: left, right, by rw [same, List.cons_append], .terminal c front, back⟩
    | @nonterminal p member _ inner _ inside behind =>
      obtain ⟨left, right, same, front, back⟩ := ih behind
      exact ⟨inner ++ left, right, by rw [same, List.append_assoc],
        .nonterminal member inside front, back⟩

theorem Yields.of_nonterminal {name : String} {word : List Char}
    (yields : Yields productions [.nonterminal name] word) :
    ∃ p ∈ productions, p.head = name ∧ Yields productions p.body word := by
  generalize single : [Symbol.nonterminal name] = symbols at yields
  cases yields with
  | nil => exact absurd single (List.cons_ne_nil _ _)
  | epsilon => simp at single
  | terminal => simp at single
  | @nonterminal p member rest inner outer inside behind =>
    obtain ⟨same, rfl⟩ := List.cons.inj single
    cases behind with
    | nil => exact ⟨p, member, (Symbol.nonterminal.inj same).symm, by rwa [List.append_nil]⟩

theorem Yields.of_body {p : Production} (member : p ∈ productions) {word : List Char}
    (inside : Yields productions p.body word) : Yields productions [p.lhs] word := by
  have single := Yields.nonterminal member inside .nil
  rwa [List.append_nil] at single

theorem Yields.mono {larger : List Production} (subset : ∀ p ∈ productions, p ∈ larger)
    {symbols : List Symbol} {word : List Char} (yields : Yields productions symbols word) :
    Yields larger symbols word := by
  induction yields with
  | nil => exact .nil
  | epsilon name _ ih => exact .epsilon name ih
  | terminal c _ ih => exact .terminal c ih
  | nonterminal member _ _ inside behind => exact .nonterminal (subset _ member) inside behind

theorem yields_spelling (word : List Char) :
    Yields productions (Symbol.spelling word) word := by
  induction word with
  | nil => exact .nil
  | cons c word ih => exact .terminal c ih

/-! ## Derivations of words -/

theorem Rewrites.yields {first second : List Symbol} {word : List Char}
    (step : Rewrites productions first second) (yields : Yields productions second word) :
    Yields productions first word := by
  cases step with
  | expand member before after =>
    obtain ⟨left, _, rfl, front, tail⟩ := yields.split
    obtain ⟨inner, right, rfl, inside, back⟩ := tail.split
    exact front.append (.nonterminal member inside back)
  | erase name before after =>
    obtain ⟨left, right, rfl, front, back⟩ := yields.split
    exact front.append (.epsilon name back)

theorem Yields.derives {symbols : List Symbol} {word : List Char}
    (yields : Yields productions symbols word) :
    Derives productions symbols (Symbol.spelling word) := by
  induction yields with
  | nil => exact .refl _
  | @epsilon name rest word _ ih => exact .step (.erase name [] rest) ih
  | @terminal c rest word _ ih => exact Derives.append (.refl [.terminal (String.singleton c)]) ih
  | @nonterminal p member rest first second _ _ inside behind =>
    have opened : Derives productions (p.lhs :: rest) (p.body ++ rest) :=
      .step (.expand member [] rest) (.refl _)
    rw [Symbol.spelling_append]
    exact opened.trans (inside.append behind)

theorem derives_spelling_iff {symbols : List Symbol} {word : List Char} :
    Derives productions symbols (Symbol.spelling word) ↔ Yields productions symbols word := by
  constructor
  · intro derives
    generalize spelled : Symbol.spelling word = last at derives
    induction derives with
    | refl => exact spelled ▸ yields_spelling word
    | step step _ ih => exact step.yields (ih spelled)
  · exact Yields.derives

end Earley
