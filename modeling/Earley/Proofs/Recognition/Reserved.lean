import Earley.Proofs.Chart.Reserved
import Earley.Proofs.Chart.Viable
import Earley.Proofs.Recognition.Saturation

/-!
# Bodies that mention the reserved nonterminal

No production is headed by the reserved nonterminal, but a body may mention it.  Whatever the
bodies are, the chart of a word has all items that the productions of the grammar lead to, so every
word of the language is accepted.  More words can be: the augmented production is completed like any
other, for the items that wait on its head in the first column.  Such an item takes an accepted word
for the reserved nonterminal and goes on to read a tail.

A start symbol that is nullable and leads to the reserved nonterminal is left out of the exact
statements.  The augmented production is completed in the first column then, and which items wait
there by that time depends on the order of the productions.
-/

set_option autoImplicit false

namespace Earley

variable {grammar : Grammar} {word : List Char} {start : String} {chart : Chart} {i k : Nat}
  {item : Item}

/-! ## Every word of the language is accepted -/

namespace Chart

/-- A production completed behind the column where it began moves the dots that waited there. -/
theorem ServedBefore.moved_mem (before : chart.ServedBefore grammar word (word.length + 1))
    (sound : chart.Sound grammar word start) {inner waiting : Item}
    (inside : inner ∈ chart.itemsAt i) (complete : inner.isComplete = true)
    (origin : inner.origin = (k : Nat)) (earlier : k ≠ i) (member : waiting ∈ chart.itemsAt k)
    (waits : waiting.waitsOn inner.lhs = true) : waiting.moved ∈ chart.itemsAt i := by
  have column : i < word.length + 1 := sound.size ▸ lt_size_of_mem_itemsAt inside
  obtain ⟨m, _, began, found, there, items⟩ := sound.origin_column inside
  have same : m = k := by omega
  subst same
  rw [items] at member
  have served := before.served i column inner (by simpa using inside) _
    (.completed complete there member waits)
  rcases served with present | ⟨_, circular⟩
  · exact present
  · omega

theorem ServedBefore.mem_of_not_complete
    (before : chart.ServedBefore grammar word (word.length + 1))
    (sound : chart.Sound grammar word start) (member : item ∈ chart.itemsAt i)
    (short : item.isComplete = false) {x : Item} (follows : chart.Follows grammar i item x) :
    x ∈ chart.itemsAt i := by
  have column : i < word.length + 1 := sound.size ▸ lt_size_of_mem_itemsAt member
  rcases before.served i column item (by simpa using member) x follows with present | ⟨complete, _⟩
  · exact present
  · simp [short] at complete

theorem ServedBefore.advancing (before : chart.ServedBefore grammar word (word.length + 1))
    (sound : chart.Sound grammar word start) :
    Advancing grammar word start fun i item => item ∈ chart.itemsAt i where
  wellPlaced := fun member => (sound.justified _ _ member).wellPlaced
  predicted := fun member rule waits =>
    before.mem_of_not_complete sound member (Item.not_isComplete_of_waitsOn waits)
      (.predicted rule waits)
  scanned := by
    intro i item c member read waits
    have column : i < word.length + 1 := sound.size ▸ lt_size_of_mem_itemsAt member
    exact before.scanned i column c read item member waits
  completed := by
    intro i waiting p read member rule waits yields inside
    cases read with
    | nil =>
      -- The pass may have missed this completion, but not the skip.
      have nullable := Grammar.lhs_mem_nullable rule fun s inBody =>
        grammar.nullable_eq ▸ yields.nullable s inBody
      exact before.mem_of_not_complete sound member (Item.not_isComplete_of_waitsOn waits)
        (.skipped nullable waits)
    | cons c read =>
      have filled : p.isEmpty = false := by
        cases empty : p.isEmpty with
        | false => rfl
        | true => exact absurd (Production.yields_of_isEmpty empty yields) (List.cons_ne_nil c read)
      have later : i ≠ i + (c :: read).length := by simp
      exact before.moved_mem sound (inside filled) (Item.isComplete_fresh_movedBy p i) rfl later
        member waits

/-- Whatever waits on the symbol in the first column has moved over it into a column. -/
def Passed (chart : Chart) (i : Nat) (s : Symbol) : Prop :=
  ∀ item ∈ chart.itemsAt 0, item.waitsOn s = true → item.moved ∈ chart.itemsAt i

/-- Where a nonterminal of the form is passed and nothing is read before it, the rest of the form
leads to the final item. -/
def Carries (grammar : Grammar) (word : List Char) (start : String) (chart : Chart)
    (form : List Symbol) : Prop :=
  ∀ front name back, form = front ++ .nonterminal name :: back →
    Yields grammar.productions front [] → ∀ i tail, 0 < i → chart.Passed i (.nonterminal name) →
    Yields grammar.productions back tail → tail <+: word.drop i →
    (seed start).moved ∈ chart.itemsAt (i + tail.length)

section

variable (before : chart.ServedBefore grammar word (word.length + 1))
  (sound : chart.Sound grammar word start)

include before sound

theorem ServedBefore.mem_of_yields {read : List Char}
    (yields : Yields grammar.productions [.nonterminal start] read) (next : read <+: word) :
    (seed start).moved ∈ chart.itemsAt read.length := by
  have behind : (seed start).body.drop (seed start).dot.toNat = [.nonterminal start] ++ [] := rfl
  have moved := (before.advancing sound).advance yields sound.seeded behind
    (by simp [Symbol.isEpsilon]) (i := 0) next
  rw [Nat.zero_add, List.length_singleton, ← Item.movedBy_moved, Item.movedBy_zero] at moved
  exact moved

omit before in
theorem Sound.carries_start : chart.Carries grammar word start [.nonterminal start] := by
  intro front name back form _ i tail _ passed behind _
  cases front with
  | nil =>
    obtain ⟨same, rfl⟩ := List.cons.inj form
    cases behind
    refine passed _ sound.seeded ?_
    rw [← same]
    exact (Item.waitsOn_iff_getElem? (d := 0) rfl).mpr rfl
  | cons t front => simp at form

/-- If a symbol of a body is passed, the rest of the body leads to the head. -/
theorem ServedBefore.passed_lhs {p : Production} (member : p ∈ grammar.productions) {name : String}
    {front back : List Symbol} (body : p.body = front ++ .nonterminal name :: back)
    (empty : Yields grammar.productions front []) (later : 0 < i)
    (passed : chart.Passed i (.nonterminal name)) {tail : List Char}
    (behind : Yields grammar.productions back tail) (next : tail <+: word.drop i) :
    chart.Passed (i + tail.length) p.lhs := by
  intro waiting there waits
  have advancing := before.advancing sound
  have filled : p.isEmpty = false := by
    cases empty : p.isEmpty with
    | false => rfl
    | true =>
      obtain ⟨epsilon, single⟩ := Production.isEmpty_iff.mp empty
      have inBody : Symbol.nonterminal name ∈ p.body := by simp [body]
      simp [single] at inBody
  have solid : ∀ s ∈ front ++ .nonterminal name :: back, s.isEpsilon = false := fun s inBody =>
    Production.solid_of_mem_body filled (body ▸ inBody)
  have opened := advancing.predicted there member waits
  have whole : (Item.fresh p (0 : Nat)).body.drop (Item.fresh p (0 : Nat)).dot.toNat =
      front ++ .nonterminal name :: back := body
  -- Over what stands before the symbol, over the symbol itself, and over the rest of the body.
  have first := advancing.advance empty opened whole
    (fun s inFront => solid s (by simp [inFront])) List.nil_prefix
  have firstDot : ((Item.fresh p (0 : Nat)).movedBy front.length).dot = front.length :=
    Int.zero_add _
  have waitsInside : ((Item.fresh p (0 : Nat)).movedBy front.length).waitsOn
      (.nonterminal name) = true := by
    rw [Item.waitsOn_iff_getElem? firstDot]
    show p.body[front.length]? = _
    simp [body]
  have second := passed _ first waitsInside
  have placed := (sound.justified _ _ first).wellPlaced
  have rest := placed.drop_moved (placed.drop_of_waitsOn waitsInside)
  have restBody : ((Item.fresh p (0 : Nat)).movedBy front.length).body.drop
      (((Item.fresh p (0 : Nat)).movedBy front.length).dot.toNat + 1) = back ++ [] := by
    rw [firstDot, List.append_nil]
    show p.body.drop _ = _
    simp [body]
  have last := advancing.advance behind second (rest.trans restBody)
    (fun s inBack => solid s (by simp [inBack])) next
  have length : p.body.length = front.length + (back.length + 1) := by simp [body]
  refine before.moved_mem sound last ?_ rfl (by omega) there waits
  rw [Item.isComplete_iff]
  show (p.body.length : Int) ≤ 0 + (front.length : Int) + 1 + back.length
  omega

/-- A step of a derivation is carried: the nonterminal stood there before the step, or it stands in
the body that was put in. -/
theorem ServedBefore.carries_step {first second : List Symbol}
    (carries : chart.Carries grammar word start first)
    (rewrites : Rewrites grammar.productions first second) :
    chart.Carries grammar word start second := by
  intro front name back form empty i tail later passed behind next
  cases rewrites with
  | @expand q rule outer rest =>
    rcases append_eq_append_cons form with ⟨more, rfl, rfl⟩ | ⟨more, rfl, inner⟩
    · -- The nonterminal stands before the head that was rewritten.
      obtain ⟨left, right, rfl, between, right_yields⟩ := behind.split
      obtain ⟨inside, after, rfl, body, last⟩ := right_yields.split
      exact carries front name _ (by simp) empty i _ later passed
        (between.append (.nonterminal rule body last)) next
    · obtain ⟨left, right, both, outer_empty, more_empty⟩ := empty.split
      obtain ⟨rfl, rfl⟩ := List.append_eq_nil_iff.mp both.symm
      rcases append_eq_append_cons inner with ⟨bodyBack, body, rfl⟩ | ⟨tailFront, rfl, rfl⟩
      · -- It stands in the body: first the head is passed, then the rest of the form is read.
        obtain ⟨left, right, rfl, inside, last⟩ := behind.split
        obtain ⟨early, late⟩ := prefix_drop_of_append next
        have passedHead := before.passed_lhs sound rule body more_empty later passed inside early
        have final := carries outer q.head rest rfl outer_empty (i + left.length) right
          (by omega) passedHead last late
        rw [List.length_append, ← Nat.add_assoc]
        exact final
      · -- It stands behind the body, which yields nothing.
        obtain ⟨left, right, both, inside, last⟩ := more_empty.split
        obtain ⟨rfl, rfl⟩ := List.append_eq_nil_iff.mp both.symm
        have kept := outer_empty.append (.nonterminal rule inside last)
        exact carries _ name back (by simp) kept i tail later passed behind next
  | erase epsilon outer rest =>
    rcases append_eq_append_cons form with ⟨more, rfl, rfl⟩ | ⟨more, rfl, rfl⟩
    · obtain ⟨left, right, rfl, between, last⟩ := behind.split
      exact carries front name _ (by simp) empty i _ later passed
        (between.append (.epsilon epsilon last)) next
    · obtain ⟨left, right, both, outer_empty, more_empty⟩ := empty.split
      obtain ⟨rfl, rfl⟩ := List.append_eq_nil_iff.mp both.symm
      have kept := outer_empty.append (.epsilon epsilon more_empty)
      exact carries _ name back (by simp) kept i tail later passed behind next

theorem ServedBefore.carries_derives {first last : List Symbol}
    (derives : Derives grammar.productions first last)
    (carries : chart.Carries grammar word start first) :
    chart.Carries grammar word start last := by
  induction derives with
  | refl => exact carries
  | step rewrites _ ih => exact ih (before.carries_step sound carries rewrites)

/-- Behind a word that is not empty the final item reads on to the end of a tail. -/
theorem ServedBefore.mem_of_tail (final : (seed start).moved ∈ chart.itemsAt i) (later : 0 < i)
    {tail : List Char} (behind : grammar.Tail start tail) (next : tail <+: word.drop i) :
    (seed start).moved ∈ chart.itemsAt (i + tail.length) := by
  obtain ⟨after, derives, rest⟩ := behind
  have complete : (seed start).moved.isComplete = true := Item.isComplete_fresh_movedBy _ _
  have passed : chart.Passed i .reserved := fun waiting there waits =>
    before.moved_mem sound final complete (k := 0) rfl (by omega) there waits
  have carries := before.carries_derives sound derives sound.carries_start
  exact carries [] augmentedHead after rfl .nil i tail later passed (derives_spelling_iff.mp rest)
    next

end

end Chart

namespace Recognition

theorem accepted_of_derives {word : String}
    (derives : Derives grammar.productions [.nonterminal start]
      (Symbol.spelling word.toList)) : (build grammar word start).accepted = true := by
  have before := servedBefore_build grammar word start
  have sound := (underway_build grammar word start).sound
  rw [accepted_build_iff_mem]
  exact before.mem_of_yields sound (derives_spelling_iff.mp derives) List.prefix_rfl

theorem derives_augmented_of_accepted {word : String}
    (accepted : (build grammar word start).accepted = true) :
    Derives (grammar.augmentedProductions start) [.nonterminal start]
      (Symbol.spelling word.toList) := by
  have sound := (underway_build grammar word start).sound
  have spans := (sound.justified _ _ ((accepted_build_iff_mem _ _ _).mp accepted)).spans.yields
  have origin : (Chart.seed start).moved.origin.toNat = 0 := rfl
  rw [origin, slice_length] at spans
  exact derives_spelling_iff.mpr spans

/-- An extended word is read up to its end, wherever the word at hand goes on. -/
theorem mem_of_extended (grammar : Grammar) (word start : String) {first : List Char}
    (solid : .nonterminal start ∉ grammar.nullable) (extended : grammar.Extended start first)
    (early : first <+: word.toList) :
    (Chart.seed start).moved ∈ (build grammar word start).chart.itemsAt first.length := by
  have before := servedBefore_build grammar word start
  have sound := (underway_build grammar word start).sound
  induction extended with
  | word derives => exact before.mem_of_yields sound (derives_spelling_iff.mp derives) early
  | @tail first tail extended behind ih =>
    obtain ⟨next, late⟩ := prefix_drop_of_append
      (show first ++ tail <+: word.toList.drop 0 from early)
    rw [Nat.zero_add] at late
    have later := List.length_pos_iff.mpr (extended.ne_nil solid)
    rw [List.length_append]
    exact before.mem_of_tail sound (ih next) later behind late

theorem accepted_build_iff_extended
    (harmless : .nonterminal start ∉ grammar.nullable ∨ ¬ grammar.LeadsToReserved start)
    (word : String) :
    (build grammar word start).accepted = true ↔ grammar.Extended start word.toList := by
  constructor
  · intro accepted
    have sound := (underway_build grammar word start).sound
    have justified := sound.justified _ _ ((accepted_build_iff_mem _ _ _).mp accepted)
    have extended := justified.extended harmless
    rwa [slice_length] at extended
  · intro extended
    rcases harmless with solid | free
    · rw [accepted_build_iff_mem]
      exact mem_of_extended grammar word start solid extended List.prefix_rfl
    · refine accepted_of_derives (extended.derives fun _ _ _ ⟨after, leads, _⟩ => ?_)
      exact absurd ⟨after, leads⟩ free

/-- Every word of the language is accepted, without a fault, and an accepted word is in the language
of the productions together with the augmented one.  Unless the start symbol is nullable and leads
to the reserved nonterminal, the accepted words are the words of the language with tails behind
them.  So exactly the words of the language are accepted if and only if the language has with a word
also the word with a tail behind it. -/
theorem recognize_accepts_extended_words (grammar : Grammar) (start : String) :
    (∀ word, (recognize grammar word start).fault = none ∧
      (Derives grammar.productions [.nonterminal start] (Symbol.spelling word.toList) →
        (recognize grammar word start).accepted = true) ∧
      ((recognize grammar word start).accepted = true →
        Derives (grammar.augmentedProductions start) [.nonterminal start]
          (Symbol.spelling word.toList))) ∧
    (.nonterminal start ∉ grammar.nullable ∨ ¬ grammar.LeadsToReserved start →
      (∀ word, (recognize grammar word start).accepted = true ↔
        grammar.Extended start word.toList) ∧
      ((∀ word, (recognize grammar word start).accepted = true ↔
          Derives grammar.productions [.nonterminal start] (Symbol.spelling word.toList)) ↔
        ∀ first tail,
          Derives grammar.productions [.nonterminal start] (Symbol.spelling first) →
          grammar.Tail start tail →
          Derives grammar.productions [.nonterminal start]
            (Symbol.spelling (first ++ tail)))) := by
  refine ⟨fun word => ?_, fun harmless => ?_⟩
  · rw [accepted_recognize]
    exact ⟨faultless_recognize grammar word start, accepted_of_derives,
      derives_augmented_of_accepted⟩
  · have extended : ∀ word, (recognize grammar word start).accepted = true ↔
        grammar.Extended start word.toList := fun word => by
      rw [accepted_recognize, accepted_build_iff_extended harmless]
    refine ⟨extended, fun exact_language first tail derives behind => ?_, fun closed word => ?_⟩
    · have accepted := (extended (String.ofList (first ++ tail))).mpr
        (by rw [String.toList_ofList]; exact .tail (.word derives) behind)
      have inside := (exact_language _).mp accepted
      rwa [String.toList_ofList] at inside
    · rw [extended]
      exact ⟨fun more => more.derives closed, .word⟩

end Recognition

/-! ## A body that begins with the reserved nonterminal

The only word of its language is `a`, and a tail is `b`. -/

def Production.leaking : Production where
  head := "S"
  body := [.reserved, .terminal "b"]
  body_ne_nil := by decide
  epsilon_alone := by decide

def Production.single : Production where
  head := "S"
  body := [.terminal "a"]
  body_ne_nil := by decide
  epsilon_alone := by decide

def Grammar.leaking : Grammar :=
  (empty.append .leaking (by decide) (by decide)).append .single (by decide) (by decide)

theorem Grammar.not_yields_reserved (grammar : Grammar) (word : List Char) :
    ¬ Yields grammar.productions [.reserved] word := by
  intro yields
  obtain ⟨p, member, head, _⟩ := yields.of_nonterminal
  exact grammar.head_ne_augmented p member head

theorem Grammar.eq_of_yields_leaking {word : List Char}
    (yields : Yields leaking.productions [.nonterminal "S"] word) : word = ['a'] := by
  obtain ⟨p, member, _, inside⟩ := yields.of_nonterminal
  rcases List.mem_cons.mp member with rfl | member
  · have body : Production.leaking.body = [.reserved] ++ [.terminal "b"] := rfl
    rw [body] at inside
    obtain ⟨front, _, _, reserved, _⟩ := inside.split
    exact absurd reserved (not_yields_reserved leaking front)
  · rw [List.mem_singleton.mp member] at inside
    generalize single : Production.single.body = body at inside
    cases inside with
    | nil => cases single
    | epsilon => cases single
    | nonterminal => cases single
    | @terminal c rest tail behind =>
      obtain ⟨first, rfl⟩ := List.cons.inj single
      cases behind
      have characters := congrArg String.toList (Symbol.terminal.inj first)
      rw [String.toList_singleton] at characters
      exact congrArg (· :: []) (List.cons.inj characters).1.symm

namespace Recognition

theorem recognize_accepts_leaking_tail :
    (.nonterminal "S" ∉ Grammar.leaking.nullable ∨ ¬ Grammar.leaking.LeadsToReserved "S") ∧
      Grammar.leaking.Extended "S" "abb".toList ∧
      (recognize .leaking "abb" "S").accepted = true := by
  have harmless : .nonterminal "S" ∉ Grammar.leaking.nullable ∨
      ¬ Grammar.leaking.LeadsToReserved "S" := .inl (by decide)
  have accepted : (recognize .leaking "abb" "S").accepted = true := by decide
  have words := (recognize_accepts_extended_words .leaking "S").2 harmless
  exact ⟨harmless, (words.1 "abb").mp accepted, accepted⟩

/-- Not only words of the language are accepted: the augmented production is completed for a body
that mentions its head. -/
theorem leaking_accepts_beyond_language :
    (recognize .leaking "ab" "S").accepted = true ∧
      ¬ Derives Grammar.leaking.productions [.nonterminal "S"]
        (Symbol.spelling "ab".toList) := by
  refine ⟨by decide, fun derives => ?_⟩
  have same := Grammar.eq_of_yields_leaking (derives_spelling_iff.mp derives)
  revert same
  decide

end Recognition

end Earley
