import Earley.Proofs.Chart.Span
import Earley.Proofs.Plain.Steps

/-!
# Viable items are justified

The converse of what a justified item has read.  Once a production is begun, the dot of its item
moves behind the symbols that yield the next characters, and the productions of the symbol behind
it are begun.  By induction on a derivation, every production is begun where a sentential form has
its head behind symbols that yield the characters read.  The grammar has to be unreserved: a body
that mentions the reserved nonterminal could derive what no item is begun for.
-/

set_option autoImplicit false

namespace Earley

variable {grammar : Grammar} {word : List Char} {start : String} {i k : Nat}

/-! ## Begun productions -/

/-- A body mentions the reserved nonterminal only if it is the start symbol. -/
theorem Grammar.Unreserved.free (unreserved : grammar.Unreserved) {p : Production}
    (member : p ∈ grammar.augmentedProductions start) :
    .reserved ∉ p.body ∨ start = augmentedHead := by
  rcases mem_augmentedProductions.mp member with rfl | member
  · by_cases circular : start = augmentedHead
    · exact .inr circular
    · refine .inl fun mentioned => circular ?_
      exact (Symbol.nonterminal.inj (List.mem_singleton.mp mentioned)).symm
  · exact .inl (unreserved p member)

/-- Once a production is begun, its dot moves behind the symbols that yield the next characters. -/
theorem Justified.advance_fresh (unreserved : grammar.Unreserved) {p : Production}
    (justified : Justified grammar word start i (.fresh p i)) {before after : List Symbol}
    (split : p.body = before ++ after) (some_left : p.isEmpty = true → before = [])
    {read : List Char} (yields : Yields (grammar.augmentedProductions start) before read)
    (next : read <+: word.drop i) :
    Justified grammar word start (i + read.length) ((Item.fresh p i).movedBy before.length) := by
  have free : .reserved ∉ before ∨ start = augmentedHead := by
    refine (unreserved.free justified.wellPlaced.production).imp_left fun absent => ?_
    rw [Item.production_fresh, split] at absent
    exact fun member => absent (List.mem_append_left after member)
  have solid : ∀ s ∈ before, s.isEpsilon = false := by
    intro s member
    cases empty : p.isEmpty with
    | true =>
      rw [some_left empty] at member
      exact absurd member List.not_mem_nil
    | false =>
      have inBody : s ∈ p.body := split ▸ List.mem_append_left after member
      exact Production.solid_of_mem_body empty inBody
  have advanced := Plain.Reached.advancing.advance (yields.of_augment unreserved free)
    justified.reached split solid next
  exact advanced.justified

theorem Production.nil_of_isEmpty {p : Production} {before after : List Symbol} {name : String}
    (split : p.body = before ++ .nonterminal name :: after) (empty : p.isEmpty = true) :
    before = [] := by
  obtain ⟨epsilon, single⟩ := isEmpty_iff.mp empty
  have inBody : Symbol.nonterminal name ∈ p.body := by
    rw [split]
    exact List.mem_append_right before List.mem_cons_self
  rw [single, List.mem_singleton] at inBody
  cases inBody

/-- Once a production is begun, so are the productions of a symbol of its body, where the symbols
before it yield the next characters. -/
theorem Justified.fresh_inside (unreserved : grammar.Unreserved) {p q : Production}
    (justified : Justified grammar word start k (.fresh q k)) {before after : List Symbol}
    (body : q.body = before ++ p.lhs :: after) {read : List Char}
    (yields : Yields (grammar.augmentedProductions start) before read)
    (next : read <+: word.drop k) (member : p ∈ grammar.augmentedProductions start) :
    Justified grammar word start (k + read.length) (.fresh p (k + read.length : Nat)) := by
  have moved := justified.advance_fresh unreserved body (Production.nil_of_isEmpty body) yields next
  have waits : ((Item.fresh q k).movedBy before.length).waitsOn p.lhs = true :=
    Item.waitsOn_of_split (Int.zero_add _) body
  rcases Grammar.mem_augmentedProductions.mp member with rfl | member
  · rcases Grammar.mem_augmentedProductions.mp justified.wellPlaced.production with rfl | rule
    · -- The augmented production leads to itself: nothing stands before its own head.
      have first : before = [] := by
        rcases List.append_eq_singleton_iff.mp body.symm with ⟨empty, _⟩ | ⟨_, empty⟩
        · exact empty
        · exact absurd empty (List.cons_ne_nil _ _)
      subst first
      cases yields
      exact justified
    · have mentioned : Symbol.reserved ∈ q.body := by
        rw [body]
        exact List.mem_append_right before List.mem_cons_self
      exact absurd mentioned (unreserved q rule)
  · exact moved.predicted member waits

/-! ## Sentential forms -/

/-- Where a sentential form begins with symbols that derive the first characters of the word, the
productions of the next symbol are begun. -/
def Begun (grammar : Grammar) (word : List Char) (start : String) (form : List Symbol) : Prop :=
  ∀ before p after read, form = before ++ p.lhs :: after →
    Yields (grammar.augmentedProductions start) before read → read <+: word →
    p ∈ grammar.augmentedProductions start →
    Justified grammar word start read.length (.fresh p read.length)

theorem append_eq_append_cons {α : Type} {first rest before after : List α} {x : α}
    (same : first ++ rest = before ++ x :: after) :
    (∃ more, first = before ++ x :: more ∧ after = more ++ rest) ∨
      ∃ more, before = first ++ more ∧ rest = more ++ x :: after := by
  rcases List.append_eq_append_iff.mp same with ⟨more, long, rest⟩ | ⟨more, long, short⟩
  · exact .inr ⟨more, long, rest⟩
  · cases more with
    | nil => exact .inr ⟨[], by rw [long, List.append_nil, List.append_nil], short.symm⟩
    | cons y more =>
      obtain ⟨rfl, after⟩ := List.cons.inj short
      exact .inl ⟨more, long, after⟩

theorem begun_reserved (grammar : Grammar) (word : List Char) (start : String) :
    Begun grammar word start [.reserved] := by
  intro before p after read form yields _ member
  cases before with
  | nil =>
    cases yields
    rcases Grammar.mem_augmentedProductions.mp member with rfl | member
    · exact .seed
    · exact absurd (List.cons.inj form).1.symm (Grammar.lhs_ne_reserved member)
  | cons s before =>
    have empty := (List.cons.inj form).2
    exact absurd empty (by simp)

/-- A step of a derivation keeps the productions begun: the next symbol stood there before the step,
or it stands in the body that was put in. -/
theorem Begun.step (unreserved : grammar.Unreserved) {first second : List Symbol}
    (begun : Begun grammar word start first)
    (rewrites : Rewrites (grammar.augmentedProductions start) first second) :
    Begun grammar word start second := by
  intro before p after read form yields early member
  cases rewrites with
  | @expand q rule front back =>
    rcases append_eq_append_cons form with ⟨more, rfl, _⟩ | ⟨more, rfl, rest⟩
    · have kept : before ++ p.lhs :: more ++ q.lhs :: back =
          before ++ p.lhs :: (more ++ q.lhs :: back) := List.append_assoc ..
      exact begun before p _ read kept yields early member
    · rcases append_eq_append_cons rest with ⟨_, body, _⟩ | ⟨more, rfl, rfl⟩
      · obtain ⟨left, right, rfl, outer, inner⟩ := yields.split
        obtain ⟨leftEarly, rightEarly⟩ := prefix_drop_of_append
          (show left ++ right <+: word.drop 0 from early)
        rw [Nat.zero_add] at rightEarly
        have opened := begun front q back left rfl outer leftEarly rule
        rw [List.length_append]
        exact opened.fresh_inside unreserved body inner rightEarly member
      · obtain ⟨left, right, rfl, outer, tail⟩ := yields.split
        obtain ⟨inner, right, rfl, inside, behind⟩ := tail.split
        have kept := outer.append (.nonterminal rule inside behind)
        have form : front ++ q.lhs :: (more ++ p.lhs :: after) =
            front ++ q.lhs :: more ++ p.lhs :: after :=
          (List.append_assoc front (q.lhs :: more) _).symm
        exact begun _ p after _ form kept early member
  | erase name front back =>
    rcases append_eq_append_cons form with ⟨more, rfl, _⟩ | ⟨more, rfl, rfl⟩
    · have kept : before ++ p.lhs :: more ++ .epsilon name :: back =
          before ++ p.lhs :: (more ++ .epsilon name :: back) := List.append_assoc ..
      exact begun before p _ read kept yields early member
    · obtain ⟨left, right, rfl, outer, behind⟩ := yields.split
      have kept := outer.append (.epsilon name behind)
      have form : front ++ .epsilon name :: (more ++ p.lhs :: after) =
          front ++ .epsilon name :: more ++ p.lhs :: after :=
        (List.append_assoc front (.epsilon name :: more) _).symm
      exact begun _ p after _ form kept early member

theorem Begun.derives (unreserved : grammar.Unreserved) {first last : List Symbol}
    (derives : Derives (grammar.augmentedProductions start) first last)
    (begun : Begun grammar word start first) : Begun grammar word start last := by
  induction derives with
  | refl => exact begun
  | step rewrites _ ih => exact ih (begun.step unreserved rewrites)

/-! ## Justified items are those that the derivations ask for -/

theorem Justified.of_viable (unreserved : grammar.Unreserved) {p : Production}
    (member : p ∈ grammar.augmentedProductions start) (inside : k ≤ word.length)
    (viable : grammar.Viable start (slice word 0 k) p.lhs) :
    Justified grammar word start k (.fresh p k) := by
  obtain ⟨before, after, derives, read⟩ := viable
  have begun := (begun_reserved grammar word start).derives unreserved derives
  have early : slice word 0 k <+: word := slice_prefix_drop word 0 k
  have opened := begun before p after _ rfl (derives_spelling_iff.mp read) early member
  rw [length_slice inside, Nat.sub_zero] at opened
  exact opened

/-- An item is justified exactly when its head can stand behind the characters before its origin,
and the symbols before its dot derive the characters from there on.  Only over an epsilon the dot
never moves. -/
theorem justified_iff (unreserved : grammar.Unreserved) (inside : i ≤ word.length) {p : Production}
    (member : p ∈ grammar.augmentedProductions start) {before after : List Symbol}
    (split : p.body = before ++ after) (j : Int) :
    Justified grammar word start i ⟨j, before.length, p⟩ ↔
      (p.isEmpty = true → before = []) ∧
        ∃ k : Nat, j = k ∧ k ≤ i ∧ grammar.Viable start (slice word 0 k) p.lhs ∧
          Derives (grammar.augmentedProductions start) before
            (Symbol.spelling (slice word k i)) := by
  constructor
  · intro justified
    have placed := justified.wellPlaced
    have spans := justified.spans
    obtain ⟨k, early, rfl⟩ := placed.origin_eq
    refine ⟨fun empty => ?_, k, rfl, early, spans.viable, ?_⟩
    · have front : (before.length : Int) = 0 := placed.dot_of_empty empty
      exact List.length_eq_zero_iff.mp (by omega)
    · have read : Yields (grammar.augmentedProductions start) (p.body.take before.length)
          (slice word k i) := spans.yields
      rw [split, List.take_left] at read
      exact derives_spelling_iff.mpr read
  · rintro ⟨at_front, k, rfl, early, viable, read⟩
    have opened := Justified.of_viable unreserved member (by omega) viable
    have moved := opened.advance_fresh unreserved split at_front (derives_spelling_iff.mp read)
      (slice_prefix_drop word k i)
    have column : k + (slice word k i).length = i := by
      rw [length_slice inside]
      omega
    have same : (Item.fresh p k).movedBy before.length = ⟨k, before.length, p⟩ := by
      unfold Item.movedBy
      rw [Item.dot_fresh, Int.zero_add]
      rfl
    rw [column, same] at moved
    exact moved

end Earley
