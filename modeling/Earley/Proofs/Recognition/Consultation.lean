import Earley.Proofs.Recognition.Soundness

/-!
# What a recognition takes from its grammar

The operations on a chart look at the productions of a grammar, by head, and at its nullable set,
which the productions determine.  So grammars with the same productions give the same chart.  A
recognition leaves its grammar as one reading of the nullable set leaves it, and it reports the
computation that the reading makes: the first turn of column zero predicts, so the set is read even
for the empty word, and every later reading finds it at hand.
-/

set_option autoImplicit false

namespace Earley

variable {grammar other : Grammar} {chart : Chart} {item : Item} {index : Int} {start : String}
  {word : List Char}

/-! ## The same productions -/

section

variable (same : grammar.productions = other.productions)

include same

theorem Grammar.rulesFor_congr : grammar.rulesFor = other.rulesFor := by
  funext head
  rw [rulesFor, rulesFor, grammar.filed_byHead, other.filed_byHead, same]

theorem Grammar.nullable_congr : grammar.nullable = other.nullable := by
  rw [nullable_eq, nullable_eq, same]

namespace Chart

theorem predict_congr : chart.predict grammar item index = chart.predict other item index := by
  have begun : predicted grammar index = predicted other index := by
    funext next
    cases next with
    | none => rfl
    | some s => simp only [predicted, Grammar.rulesFor_congr same]
  have skips : skipped grammar item = skipped other item := by
    funext next
    cases next with
    | none => rfl
    | some s => simp only [skipped, Grammar.nullable_congr same]
  simp only [predict, begun, skips]

theorem visit_congr : chart.visit grammar item index = chart.visit other item index := by
  simp only [visit, predict_congr same]

theorem closeFrom_congr (place fuel visited : Nat) (consulted : Bool) :
    closeFrom grammar index place fuel visited consulted chart =
      closeFrom other index place fuel visited consulted chart := by
  induction fuel generalizing visited consulted chart with
  | zero => rfl
  | succ fuel ih => simp only [closeFrom, visit_congr same, ih]

theorem close_congr : chart.close grammar index = chart.close other index := by
  have known : grammar.withNullable.productions = other.withNullable.productions := same
  simp only [close, itemBound, same, closeFrom_congr known]

end Chart

end

/-- Two recognitions that differ in their events and in what is at hand only. -/
structure Recognition.Alike (r s : Recognition) : Prop where
  productions : r.grammar.productions = s.grammar.productions
  chart : r.chart = s.chart
  fault : r.fault = s.fault

@[simp] theorem Grammar.productions_consult (grammar : Grammar) :
    grammar.consult.1.productions = grammar.productions := by
  unfold consult
  split <;> rfl

namespace Recognition

@[simp] theorem productions_follow (r : Recognition) (outcome : Outcome) (events : List Event) :
    (r.follow outcome events).grammar.productions = r.grammar.productions := by
  rw [grammar_follow]
  split <;> simp

namespace Alike

variable {r s : Recognition}

theorem follow (alike : Alike r s) (outcome : Outcome) (events more : List Event) :
    Alike (r.follow outcome events) (s.follow outcome more) :=
  ⟨by simp [alike.productions], rfl, rfl⟩

theorem unlessFaulty (alike : Alike r s) {next more : Recognition → Recognition}
    (goesOn : Alike (next r) (more s)) : Alike (r.unlessFaulty next) (s.unlessFaulty more) := by
  unfold Recognition.unlessFaulty
  rw [alike.fault]
  split
  · exact alike
  · exact goesOn

theorem close (alike : Alike r s) (index : Int) : Alike (r.close index) (s.close index) := by
  have outcome : r.chart.close r.grammar index = s.chart.close s.grammar index := by
    rw [alike.chart, Chart.close_congr alike.productions]
  refine alike.unlessFaulty ?_
  rw [outcome]
  exact alike.follow _ _ _

theorem scanColumn (alike : Alike r s) (index : Int) (character : String) :
    Alike (r.scanColumn index character) (s.scanColumn index character) := by
  refine alike.unlessFaulty ?_
  rw [alike.chart]
  exact alike.follow _ _ _

theorem readFrom (alike : Alike r s) (number : Nat) (rest : List Char) :
    Alike (readFrom number rest r) (readFrom number rest s) := by
  induction rest generalizing number r s with
  | nil => exact (alike.close _).scanColumn _ _
  | cons c rest ih => exact ih ((alike.close _).scanColumn _ _) (number + 1)

end Alike

theorem alike_build (same : grammar.productions = other.productions) (word start : String) :
    Alike (build grammar word start) (build other word start) := by
  have before : Alike (.start grammar (.ofLength word.toList.length start))
      (.start other (.ofLength word.toList.length start)) := ⟨same, rfl, rfl⟩
  exact before.readFrom 0 word.toList

end Recognition

/-! ## One computation -/

def Event.computed? : Event → Option (List Symbol)
  | nullableComputed nullable => some nullable
  | _ => none

/-- The nullable sets that were computed, as events report it. -/
def computations (events : List Event) : List (List Symbol) :=
  events.filterMap Event.computed?

@[simp] theorem computations_nil : computations [] = [] := rfl

@[simp] theorem computations_append (events more : List Event) :
    computations (events ++ more) = computations events ++ computations more :=
  List.filterMap_append

namespace Grammar

@[simp] theorem known_consult (grammar : Grammar) :
    grammar.consult.1.known = some grammar.nullable := by
  unfold consult nullable
  cases known : grammar.known with
  | none => simp [withNullable, nullable, known]
  | some symbols => simp [known]

@[simp] theorem consult_consult (grammar : Grammar) :
    grammar.consult.1.consult = (grammar.consult.1, []) := by
  have known := grammar.known_consult
  rw [consult, known]

theorem computations_consult (grammar : Grammar) :
    computations grammar.consult.2 =
      if grammar.known = none then [nullableSymbols grammar.productions] else [] := by
  rw [← grammar.nullable_eq]
  unfold consult
  cases grammar.known <;> rfl

end Grammar

namespace Chart

theorem consulted_predict (faultless : (chart.predict grammar item index).fault = none) :
    (chart.predict grammar item index).consulted = true := by
  unfold predict at faultless ⊢
  split
  · rename_i unread
    simp [unread] at faultless
  · rename_i read
    simp only [read] at faultless
    split
    · rename_i faulty
      simp [faulty] at faultless
    · rfl

theorem consulted_closeFrom (place fuel visited : Nat) :
    (closeFrom grammar index place fuel visited true chart).consulted = true := by
  induction fuel generalizing visited chart with
  | zero => rfl
  | succ fuel ih =>
    unfold closeFrom
    split
    · rfl
    · split
      · rfl
      · exact ih _

/-- The first turn of the first column predicts. -/
theorem consulted_close_ofLength (grammar : Grammar) (length : Nat) (start : String) :
    ((ofLength length start).close grammar (0 : Nat)).consulted = true := by
  have found : (ofLength length start).place (0 : Nat) = .ok 0 :=
    place_natCast (by rw [size_ofLength]; exact Nat.succ_pos length)
  have waits : (seed start).waitsOn (.nonterminal start) = true := Item.waitsOn_iff.mpr rfl
  have faultless := (predict_takes grammar.withNullable waits found).1
  have consulted := consulted_predict faultless
  unfold close
  rw [found]
  dsimp only
  unfold itemBound closeFrom
  rw [itemsAt_getElem?, itemsAt_ofLength, List.getElem?_cons_zero]
  dsimp only
  rw [visit_of_waitsOn waits]
  cases outcome : (ofLength length start).predict grammar.withNullable (seed start) (0 : Nat) with
  | mk after read fault =>
    rw [outcome] at faultless consulted
    subst faultless consulted
    exact consulted_closeFrom _ _ _

end Chart

/-- The grammar is as one reading of the nullable set left it, and the reading was reported. -/
structure Recognition.Consulted (grammar : Grammar) (r : Recognition) : Prop where
  grammar_eq : r.grammar = grammar.consult.1
  computations_eq : computations r.log = computations grammar.consult.2

namespace Recognition

variable {r : Recognition}

theorem computations_follow (r : Recognition) (outcome : Outcome) {events : List Event}
    (silent : computations events = []) :
    computations (r.follow outcome events).log = computations r.log ++
      if outcome.consulted then computations r.grammar.consult.2 else [] := by
  cases read : outcome.consulted <;> simp [follow, read, apply_ite computations, silent]

theorem computations_closedEvents (chart : Chart) (index : Int) :
    computations (closedEvents chart index) = [] := by
  unfold closedEvents
  split <;> rfl

theorem Consulted.follow (consulted : Consulted grammar r) (outcome : Outcome)
    {events : List Event} (silent : computations events = []) :
    Consulted grammar (r.follow outcome events) := by
  constructor
  · simp [grammar_follow, consulted.grammar_eq]
  · simp [computations_follow r outcome silent, consulted.grammar_eq, consulted.computations_eq]

theorem Consulted.close (consulted : Consulted grammar r) (index : Int) :
    Consulted grammar (r.close index) := by
  unfold Recognition.close unlessFaulty
  split
  · exact consulted
  · exact consulted.follow _ (computations_closedEvents _ _)

theorem Consulted.scanColumn (consulted : Consulted grammar r) (index : Int) (character : String) :
    Consulted grammar (r.scanColumn index character) := by
  unfold Recognition.scanColumn unlessFaulty
  split
  · exact consulted
  · exact consulted.follow _ rfl

theorem consulted_close_start (grammar : Grammar) (length : Nat) (start : String) :
    Consulted grammar ((Recognition.start grammar (.ofLength length start)).close (0 : Nat)) := by
  have consulted := Chart.consulted_close_ofLength grammar length start
  unfold Recognition.close
  rw [unlessFaulty_of_faultless rfl]
  constructor
  · rw [grammar_follow]
    exact if_pos consulted
  · rw [computations_follow _ _ (computations_closedEvents _ _)]
    exact if_pos consulted

/-- The chart of a word takes one reading of the nullable set. -/
theorem consulted_build (grammar : Grammar) (word start : String) :
    Consulted grammar (build grammar word start) := by
  -- Only the first column is closed by a recognition that has not read the set yet.
  have closes : ∀ (i : Nat) r,
      (i = 0 ∧ r = .start grammar (.ofLength word.toList.length start) ∨ Consulted grammar r) →
      Consulted grammar (r.close i) := by
    rintro i r (⟨rfl, rfl⟩ | consulted)
    · exact consulted_close_start grammar _ start
    · exact consulted.close i
  obtain ⟨last, consulted, built⟩ := build_rule
    (motive := fun i r =>
      i = 0 ∧ r = .start grammar (.ofLength word.toList.length start) ∨ Consulted grammar r)
    (fun i c r _ before => .inr ((closes i r before).scanColumn i _)) (.inl ⟨rfl, rfl⟩)
  rw [built]
  exact (closes _ last consulted).scanColumn _ _

theorem consulted_recognize (grammar : Grammar) (word start : String) :
    Consulted grammar (recognize grammar word start) := by
  obtain ⟨same, computed⟩ := consulted_build grammar word start
  rw [recognize_eq]
  refine ⟨same, ?_⟩
  rw [computations_append, computed]
  exact List.append_nil _

end Recognition

end Earley
