import Earley.Proofs.Chart.Justified
import Earley.Proofs.Chart.Stock
import Earley.Recognition

/-!
# A recognition makes justified items and no fault

Closing a column and scanning from it keep a chart sound: every item is justified in its column.
A justified item can be read and its origin is a column of the chart, so no turn ends in a fault.
This holds of every grammar, word and start symbol.
-/

set_option autoImplicit false

namespace Earley

variable {grammar : Grammar} {word : List Char} {start : String} {chart after : Chart} {i : Nat}

structure Chart.Sound (grammar : Grammar) (word : List Char) (start : String) (chart : Chart) :
    Prop where
  started : chart.start = start
  size : chart.columns.size = word.length + 1
  seeded : seed start ∈ chart.itemsAt 0
  justified : ∀ k item, item ∈ chart.itemsAt k → Justified grammar word start k item

namespace Chart

theorem itemsAt_ofLength (length : Nat) (start : String) :
    (ofLength length start).itemsAt 0 = [seed start] := rfl

theorem itemsAt_ofLength_succ (length : Nat) (start : String) (k : Nat) :
    (ofLength length start).itemsAt (k + 1) = [] := by
  unfold itemsAt ofLength
  rw [List.getElem?_toArray, List.getElem?_cons_succ, List.getElem?_replicate]
  split
  · rename_i column found
    split at found
    · cases found
      rfl
    · cases found
  · rfl

theorem sound_ofLength (grammar : Grammar) (word : List Char) (start : String) :
    (ofLength word.length start).Sound grammar word start where
  started := rfl
  size := size_ofLength word.length start
  seeded := by
    rw [itemsAt_ofLength]
    exact List.mem_cons_self
  justified := by
    intro k item member
    cases k with
    | zero =>
      rw [itemsAt_ofLength, List.mem_singleton] at member
      rw [member]
      exact .seed
    | succ k =>
      rw [itemsAt_ofLength_succ] at member
      exact absurd member List.not_mem_nil

namespace Sound

variable (sound : chart.Sound grammar word start)

include sound

theorem place_natCast (inside : i ≤ word.length) : chart.place i = .ok i := by
  apply Chart.place_natCast
  rw [sound.size]
  omega

theorem takes {batch : List Item} (takes : chart.Takes after i batch)
    (justified : ∀ x ∈ batch, Justified grammar word start i x) :
    after.Sound grammar word start where
  started := takes.start.trans sound.started
  size := takes.size.trans sound.size
  seeded := takes.mem_of_mem sound.seeded
  justified := by
    intro k item member
    by_cases same : k = i
    · subst same
      rcases takes.mem_itemsAt.mp member with old | new
      · exact sound.justified k item old
      · exact justified item new
    · rw [takes.itemsAt_of_ne same] at member
      exact sound.justified k item member

theorem origin_column {item : Item} (member : item ∈ chart.itemsAt i) :
    ∃ k ≤ i, item.origin = (k : Nat) ∧
      ∃ column, chart.column item.origin = .ok column ∧ chart.itemsAt k = column.items := by
  obtain ⟨k, early, origin⟩ := (sound.justified i item member).wellPlaced.origin_eq
  have inside : k < chart.columns.size := Nat.lt_of_le_of_lt early (lt_size_of_mem_itemsAt member)
  obtain ⟨column, _, found, items⟩ := exists_column inside
  rw [← origin] at found
  exact ⟨k, early, origin, column, found, items⟩

theorem justified_of_follows {item x : Item} (member : item ∈ chart.itemsAt i)
    (follows : chart.Follows grammar i item x) : Justified grammar word start i x := by
  have before := sound.justified i item member
  cases follows with
  | predicted rule waits => exact .predicted before rule waits
  | skipped nullable waits => exact .skipped before nullable waits
  | completed complete found among waits =>
    obtain ⟨k, _, origin, column, there, items⟩ := sound.origin_column member
    cases found.symm.trans there
    rw [← items] at among
    exact .completed (sound.justified k _ among) before complete origin waits

theorem turn {item : Item} {batch : List Item} (member : item ∈ chart.itemsAt i)
    (takes : chart.Takes after i batch)
    (follows : ∀ x, x ∈ batch ↔ chart.Follows grammar i item x) :
    after.Sound grammar word start :=
  sound.takes takes fun x new => sound.justified_of_follows member ((follows x).mp new)

theorem visit_faultless {item : Item} (member : item ∈ chart.itemsAt i) :
    (chart.visit grammar item i).fault = none := by
  have inside := lt_size_of_mem_itemsAt member
  rcases turnTakes_or_fault grammar item (Chart.place_natCast inside) with turn | faulty
  · exact turn.1
  · obtain ⟨fault, _, ⟨_, missing⟩ | unread⟩ := faulty
    · obtain ⟨_, _, _, _, there, _⟩ := sound.origin_column member
      rw [there] at missing
      cases missing
    · obtain ⟨next, read⟩ := (sound.justified i item member).wellPlaced.readable
      rw [read] at unread
      cases unread

/-! ## Closing and scanning -/

theorem close_keeps (inside : i ≤ word.length) :
    (chart.close grammar i).fault = none ∧
      (chart.close grammar i).chart.Sound grammar word start ∧
        ∃ batch, chart.Takes (chart.close grammar i).chart i batch := by
  have keeps : TurnKeeps grammar i i fun _ current =>
      current.Sound grammar word start ∧ ∃ batch, chart.Takes current i batch := by
    intro visited current item batch after ⟨sound, all, earlier⟩ turn takes follows
    have member : item ∈ current.itemsAt i := List.mem_of_getElem? turn
    exact ⟨sound.turn member takes follows, all ++ batch, earlier.trans takes⟩
  rcases close_passEnd keeps (sound.place_natCast inside) ⟨sound, [], .nothing chart i⟩ with
    ⟨faultless, holds, _⟩ | ⟨visited, item, fault, _, ⟨sound, _⟩, turn, same⟩
  · exact ⟨faultless, holds⟩
  · have faultless := sound.visit_faultless (List.mem_of_getElem? turn)
    rw [same] at faultless
    cases faultless

end Sound

theorem singleton_ne_endMark (c : Char) : String.singleton c ≠ endMark := by
  intro same
  have characters := congrArg String.toList same
  have long : endMark.toList.length = 3 := by decide
  rw [← characters, String.toList_singleton, List.length_singleton] at long
  omega

/-- Scanning a character takes in the advances of the items that wait on it. -/
theorem Sound.scanColumn_takes (sound : chart.Sound grammar word start) {c : Char}
    (read : word[i]? = some c) :
    (chart.scanColumn i (String.singleton c)).fault = none ∧ ∃ batch,
      chart.Takes (chart.scanColumn i (String.singleton c)).chart (i + 1) batch ∧
        ∀ x, x ∈ batch ↔ ∃ item ∈ chart.itemsAt i,
          item.waitsOn (.terminal (String.singleton c)) = true ∧ x = item.moved := by
  have inside := (List.getElem?_eq_some_iff.mp read).1
  have size := sound.size
  obtain ⟨column, _, found, items⟩ := exists_column (show i < chart.columns.size by omega)
  have next : chart.place ((i : Int) + 1) = .ok (i + 1) := by
    have placed : chart.place ((i + 1 : Nat) : Int) = .ok (i + 1) :=
      Chart.place_natCast (by omega)
    exact placed
  obtain ⟨faultless, takes⟩ := addAll_of_place
    (column.readable_map_moved_waitingOn (.terminal (String.singleton c))) next
  unfold scanColumn
  rw [if_neg (singleton_ne_endMark c), found]
  refine ⟨faultless, _, takes, fun x => ?_⟩
  rw [Column.mem_map_moved_waitingOn, items]

theorem Sound.scanColumn_keeps (sound : chart.Sound grammar word start) {c : Char}
    (read : word[i]? = some c) :
    (chart.scanColumn i (String.singleton c)).chart.Sound grammar word start := by
  obtain ⟨_, batch, takes, scanned⟩ := sound.scanColumn_takes read
  refine sound.takes takes fun x new => ?_
  obtain ⟨item, member, waits, rfl⟩ := (scanned x).mp new
  exact .scanned (sound.justified i item member) read waits

theorem scanColumn_endMark (chart : Chart) (index : Int) :
    chart.scanColumn index endMark = ⟨chart, false, none⟩ := by
  unfold scanColumn
  rw [if_pos rfl]

end Chart

/-! ## Runs -/

/-- A recognition at work on a word: no fault, and a sound chart. -/
structure Underway (grammar : Grammar) (word : List Char) (start : String) (r : Recognition) :
    Prop where
  same : r.grammar = grammar ∨ r.grammar = grammar.withNullable
  faultless : r.fault = none
  sound : r.chart.Sound grammar word start

namespace Recognition

theorem unlessFaulty_of_faultless {r : Recognition} (faultless : r.fault = none)
    (next : Recognition → Recognition) : r.unlessFaulty next = next r := by
  unfold unlessFaulty
  rw [faultless]
  rfl

theorem consult_grammar (grammar : Grammar) :
    grammar.consult.1 = grammar ∨ grammar.consult.1 = grammar.withNullable := by
  unfold Grammar.consult
  split
  · exact .inl rfl
  · exact .inr rfl

theorem grammar_follow (r : Recognition) (outcome : Outcome) (events : List Event) :
    (r.follow outcome events).grammar =
      if outcome.consulted then r.grammar.consult.1 else r.grammar := by
  cases read : outcome.consulted <;> simp [follow, read]

theorem follow_grammar {r : Recognition} {outcome : Outcome} {events : List Event}
    (same : r.grammar = grammar ∨ r.grammar = grammar.withNullable) :
    (r.follow outcome events).grammar = grammar ∨
      (r.follow outcome events).grammar = grammar.withNullable := by
  rw [grammar_follow]
  split
  · rcases same with same | same
    · rw [same]
      exact consult_grammar grammar
    · rw [same]
      exact .inr rfl
  · exact same

end Recognition

namespace Underway

variable {r : Recognition} (underway : Underway grammar word start r)

include underway

theorem follow {outcome : Outcome} (faultless : outcome.fault = none)
    (sound : outcome.chart.Sound grammar word start) (events : List Event) :
    Underway grammar word start (r.follow outcome events) :=
  ⟨Recognition.follow_grammar underway.same, faultless, sound⟩

/-- The grammar at work predicts as the grammar does, also with its nullable set at hand. -/
theorem predict_eq (item : Item) (index : Int) :
    r.chart.predict r.grammar item index = r.chart.predict grammar item index := by
  rcases underway.same with same | same
  · rw [same]
  · rw [same]
    rfl

theorem close_eq (index : Int) :
    r.chart.close r.grammar index = r.chart.close grammar index := by
  rcases underway.same with same | same
  · rw [same]
  · rw [same]
    rfl

theorem chart_close (index : Int) :
    (r.close index).chart = (r.chart.close grammar index).chart := by
  unfold Recognition.close
  rw [Recognition.unlessFaulty_of_faultless underway.faultless, ← underway.close_eq]
  rfl

theorem chart_scanColumn (index : Int) (character : String) :
    (r.scanColumn index character).chart = (r.chart.scanColumn index character).chart := by
  unfold Recognition.scanColumn
  rw [Recognition.unlessFaulty_of_faultless underway.faultless]
  rfl

theorem close (inside : i ≤ word.length) : Underway grammar word start (r.close i) := by
  obtain ⟨faultless, sound, _⟩ := underway.sound.close_keeps inside
  unfold Recognition.close
  rw [Recognition.unlessFaulty_of_faultless underway.faultless, underway.close_eq]
  exact underway.follow faultless sound _

theorem scanColumn {c : Char} (read : word[i]? = some c) :
    Underway grammar word start (r.scanColumn i (String.singleton c)) := by
  unfold Recognition.scanColumn
  rw [Recognition.unlessFaulty_of_faultless underway.faultless]
  exact underway.follow (underway.sound.scanColumn_takes read).1
    (underway.sound.scanColumn_keeps read) []

theorem scanColumn_endMark (index : Int) :
    Underway grammar word start (r.scanColumn index endMark) ∧
      (r.scanColumn index endMark).chart = r.chart := by
  unfold Recognition.scanColumn
  rw [Recognition.unlessFaulty_of_faultless underway.faultless, Chart.scanColumn_endMark]
  exact ⟨underway.follow rfl underway.sound [], rfl⟩

end Underway

namespace Chart

theorem accepted_iff {chart : Chart} {last : Nat} (size : chart.columns.size = last + 1) :
    chart.accepted = true ↔ chart.finalItem ∈ chart.itemsAt last := by
  have back : chart.columns.back? = chart.columns[last]? := by
    rw [Array.back?, size, Nat.add_sub_cancel]
  unfold accepted itemsAt
  rw [back]
  cases chart.columns[last]? with
  | none => simp
  | some column => exact decide_eq_true_iff

end Chart

namespace Recognition

/-- What closing a column and scanning from it keeps holds before the last column is closed. -/
theorem readFrom_rule {motive : Nat → Recognition → Prop}
    (step : ∀ i c r, word[i]? = some c → motive i r →
      motive (i + 1) ((r.close i).scanColumn i (String.singleton c)))
    {rest : List Char} {r : Recognition} (split : word.drop i = rest) (inside : i ≤ word.length)
    (holds : motive i r) :
    ∃ last, motive word.length last ∧
      readFrom i rest r = (last.close word.length).scanColumn word.length endMark := by
  induction rest generalizing i r with
  | nil =>
    have ends : i = word.length := Nat.le_antisymm inside (List.drop_eq_nil_iff.mp split)
    subst ends
    exact ⟨r, holds, rfl⟩
  | cons c rest ih =>
    have read : word[i]? = some c := by
      rw [← List.head?_drop, split]
      rfl
    have shorter : word.drop (i + 1) = rest := by
      rw [← List.drop_drop, split]
      rfl
    have longer := (List.getElem?_eq_some_iff.mp read).1
    exact ih shorter longer (step i c r read holds)

theorem build_rule {motive : Nat → Recognition → Prop} {word : String}
    (step : ∀ (i : Nat) c r, word.toList[i]? = some c → motive i r →
      motive (i + 1) ((r.close i).scanColumn i (String.singleton c)))
    (holds : motive 0 (.start grammar (.ofLength word.toList.length start))) :
    ∃ last, motive word.toList.length last ∧ build grammar word start =
      (last.close word.toList.length).scanColumn word.toList.length endMark :=
  readFrom_rule step List.drop_zero (Nat.zero_le _) holds

theorem underway_start (grammar : Grammar) (word : List Char) (start : String) :
    Underway grammar word start (.start grammar (.ofLength word.length start)) :=
  ⟨.inl rfl, rfl, Chart.sound_ofLength grammar word start⟩

/-- The chart of a word is made without a fault, and all its items are justified. -/
theorem underway_build (grammar : Grammar) (word start : String) :
    Underway grammar word.toList start (build grammar word start) := by
  have step : ∀ (i : Nat) c r, word.toList[i]? = some c → Underway grammar word.toList start r →
      Underway grammar word.toList start ((r.close i).scanColumn i (String.singleton c)) := by
    intro i c r read underway
    have inside := (List.getElem?_eq_some_iff.mp read).1
    exact (underway.close (Nat.le_of_lt inside)).scanColumn read
  obtain ⟨last, underway, built⟩ := build_rule (motive := fun _ => Underway _ _ _) step
    (underway_start grammar word.toList start)
  rw [built]
  exact ((underway.close (Nat.le_refl _)).scanColumn_endMark _).1

/-- What closing a column and scanning from it keep of a sound chart holds of the chart of a
word. -/
theorem build_keeps {motive : Chart → Prop} {word : String}
    (close : ∀ (i : Nat) (chart : Chart), i ≤ word.toList.length →
      chart.Sound grammar word.toList start → motive chart → motive (chart.close grammar i).chart)
    (scan : ∀ (i : Nat) (c : Char) (chart : Chart), word.toList[i]? = some c →
      chart.Sound grammar word.toList start → motive chart →
      motive (chart.scanColumn i (String.singleton c)).chart)
    (holds : motive (.ofLength word.toList.length start)) :
    motive (build grammar word start).chart := by
  have step : ∀ (i : Nat) c r, word.toList[i]? = some c →
      Underway grammar word.toList start r ∧ motive r.chart →
      Underway grammar word.toList start ((r.close i).scanColumn i (String.singleton c)) ∧
        motive ((r.close i).scanColumn i (String.singleton c)).chart := by
    intro i c r read ⟨underway, holds⟩
    have inside := Nat.le_of_lt (List.getElem?_eq_some_iff.mp read).1
    have closed := underway.close inside
    refine ⟨closed.scanColumn read, ?_⟩
    rw [closed.chart_scanColumn]
    refine scan i c _ read closed.sound ?_
    rw [underway.chart_close]
    exact close i _ inside underway.sound holds
  obtain ⟨last, ⟨underway, holds⟩, built⟩ :=
    build_rule (motive := fun _ r => Underway grammar word.toList start r ∧ motive r.chart) step
      ⟨underway_start grammar word.toList start, holds⟩
  have closed := underway.close (Nat.le_refl _)
  rw [built, (closed.scanColumn_endMark _).2, underway.chart_close]
  exact close _ _ (Nat.le_refl _) underway.sound holds

/-! ## The verdict -/

theorem recognize_eq (grammar : Grammar) (word start : String) :
    recognize grammar word start =
      { build grammar word start with
        log := (build grammar word start).log ++
          [.judged word (build grammar word start).accepted] } := by
  unfold recognize
  rw [unlessFaulty_of_faultless (underway_build grammar word start).faultless]

theorem faultless_recognize (grammar : Grammar) (word start : String) :
    (recognize grammar word start).fault = none := by
  rw [recognize_eq]
  exact (underway_build grammar word start).faultless

@[simp] theorem accepted_recognize (grammar : Grammar) (word start : String) :
    (recognize grammar word start).accepted = (build grammar word start).accepted := by
  rw [recognize_eq]
  rfl

theorem accepted_build_iff_mem (grammar : Grammar) (word start : String) :
    (build grammar word start).accepted = true ↔
      (Chart.seed start).moved ∈
        (build grammar word start).chart.itemsAt word.toList.length := by
  have sound := (underway_build grammar word start).sound
  rw [accepted, Chart.accepted_iff sound.size, Chart.finalItem, sound.started]

end Recognition

end Earley
