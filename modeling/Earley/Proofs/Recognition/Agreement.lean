import Earley.Proofs.Chart.Agreement
import Earley.Proofs.Recognition.Soundness
import Earley.Proofs.Slice

/-!
# Recognitions that agree up to a column

Two recognitions read the same characters, with grammars that have the same rules for the symbols
that the start symbol reaches.  One of them may have more to read behind that, and so its chart has
more columns.  The columns that both have closed are the same, item by item: a pass meets reachable
symbols only, and once a column is closed nothing is taken into it any more.  The passes have
different fuel, but neither of them runs out of it.
-/

set_option autoImplicit false

namespace Earley

variable {grammar other : Grammar} {word text : List Char} {start : String}
  {first second chart : Chart} {last i k : Nat} {item : Item}

theorem Justified.allReachable (justified : Justified grammar word start i item) :
    grammar.AllReachable start item.body := by
  induction justified with
  | seed =>
    intro name mentioned
    rw [List.mem_singleton.mp mentioned]
    exact .start
  | @predicted i item p _ member waits ih =>
    have reachable : grammar.Reachable start p.lhs := ih p.head (Item.mem_body_of_waitsOn waits)
    exact reachable.allReachable member
  | skipped _ _ _ ih => exact ih
  | scanned _ _ _ ih => exact ih
  | completed _ _ _ _ _ ih _ => exact ih

namespace Chart

/-! ## Two passes -/

def Closing.Finished (place : Nat) (closing : Closing) : Prop :=
  (closing.chart.itemsAt place).length ≤ closing.visited

theorem closeFrom_of_length_le {index : Int} {place fuel visited : Nat} {read : Bool}
    (all : (chart.itemsAt place).length ≤ visited) :
    closeFrom grammar index place fuel visited read chart = ⟨⟨chart, read, none⟩, visited⟩ := by
  cases fuel with
  | zero => rfl
  | succ fuel =>
    unfold closeFrom
    rw [itemsAt_getElem?, List.getElem?_eq_none all]

theorem closeFrom_of_turn {index : Int} {place fuel visited : Nat} {read : Bool}
    (turn : (chart.itemsAt place)[visited]? = some item)
    (faultless : (chart.visit grammar item index).fault = none) :
    closeFrom grammar.withNullable index place (fuel + 1) visited read chart =
      closeFrom grammar.withNullable index place fuel (visited + 1)
        (read || (chart.visit grammar item index).consulted)
        (chart.visit grammar item index).chart := by
  conv => lhs; unfold closeFrom
  rw [itemsAt_getElem?, turn]
  dsimp only
  rw [visit_withNullable]
  cases outcome : chart.visit grammar item index with
  | mk after consulted fault =>
    rw [outcome] at faultless
    cases faultless
    rfl

theorem Sound.after_visit (sound : chart.Sound grammar word start)
    (member : item ∈ chart.itemsAt i) :
    (chart.visit grammar item i).chart.Sound grammar word start := by
  have inside := Chart.place_natCast (lt_size_of_mem_itemsAt member)
  rcases turnTakes_or_fault grammar item inside with ⟨_, batch, takes, follows⟩ | ⟨fault, same, _⟩
  · exact sound.turn member takes follows
  · rw [same]
    exact sound

theorem Sound.visit_agree (sound : first.Sound grammar word start)
    (same : grammar.SameReachable other start) (agree : Agree last first second)
    (early : i ≤ last) (member : item ∈ first.itemsAt i) :
    Outcome.Agree last (first.visit grammar item i) (second.visit other item i) := by
  obtain ⟨k, before, origin, _⟩ := sound.origin_column member
  apply agree.visit early origin (Nat.le_trans before early)
  intro name waits
  have mentioned := Item.mem_body_of_waitsOn waits
  exact same.sameOn ((sound.justified i item member).allReachable name mentioned)

theorem Sound.closeFrom_agree (same : grammar.SameReachable other start) (early : i ≤ last)
    {fuel more visited : Nat} {read also : Bool} (sound : first.Sound grammar word start)
    (agree : Agree last first second)
    (ends : (closeFrom grammar.withNullable i i fuel visited read first).Finished i)
    (endsToo : (closeFrom other.withNullable i i more visited also second).Finished i) :
    Agree last (closeFrom grammar.withNullable i i fuel visited read first).chart
      (closeFrom other.withNullable i i more visited also second).chart := by
  induction fuel generalizing more visited read also first second with
  | zero =>
    have all : (first.itemsAt i).length ≤ visited := ends
    rw [closeFrom_of_length_le all, closeFrom_of_length_le (agree.itemsAt early ▸ all)]
    exact agree
  | succ fuel ih =>
    cases turn : (first.itemsAt i)[visited]? with
    | none =>
      have all := List.getElem?_eq_none_iff.mp turn
      rw [closeFrom_of_length_le all, closeFrom_of_length_le (agree.itemsAt early ▸ all)]
      exact agree
    | some item =>
      have member := List.mem_of_getElem? turn
      have turnToo : (second.itemsAt i)[visited]? = some item := agree.itemsAt early ▸ turn
      cases more with
      | zero =>
        have all : (second.itemsAt i).length ≤ visited := endsToo
        rw [List.getElem?_eq_none all] at turnToo
        cases turnToo
      | succ more =>
        have alike := sound.visit_agree same agree early member
        have faultless := sound.visit_faultless member
        have faultlessToo := alike.fault ▸ faultless
        rw [closeFrom_of_turn turn faultless] at ends ⊢
        rw [closeFrom_of_turn turnToo faultlessToo] at endsToo ⊢
        exact ih (sound.after_visit member) alike.chart ends endsToo

theorem Sound.close_finished (sound : chart.Sound grammar word start) (inside : i ≤ word.length) :
    (chart.close grammar i).Finished i := by
  have all := visited_close (sound.place_natCast inside) (sound.close_keeps inside).1
  exact Nat.le_of_eq all.symm

theorem Sound.close_agree (sound : first.Sound grammar word start)
    (soundToo : second.Sound other text start) (same : grammar.SameReachable other start)
    (agree : Agree last first second) (early : i ≤ last) (inside : i ≤ word.length)
    (insideToo : i ≤ text.length) :
    Agree last (first.close grammar i).chart (second.close other i).chart := by
  have ends := sound.close_finished inside
  have endsToo := soundToo.close_finished insideToo
  unfold close at ends endsToo ⊢
  rw [sound.place_natCast inside] at ends ⊢
  rw [soundToo.place_natCast insideToo] at endsToo ⊢
  exact sound.closeFrom_agree same early agree ends endsToo

end Chart

variable {r s : Recognition}

namespace Recognition

/-! ## Columns that are closed -/

theorem underway_readFrom {rest : List Char} (underway : Underway grammar word start r)
    (behind : word.drop i = rest) (inside : i ≤ word.length) :
    Underway grammar word start (readFrom i rest r) := by
  induction rest generalizing i r with
  | nil => exact ((underway.close inside).scanColumn_endMark i).1
  | cons c rest ih =>
    obtain ⟨next, shorter⟩ := of_drop_eq_cons behind
    have later := (List.getElem?_eq_some_iff.mp next).1
    exact ih ((underway.close inside).scanColumn next) shorter later

/-- Nothing is taken into a closed column while the rest of the word is read. -/
theorem columns_readFrom {rest : List Char} (underway : Underway grammar word start r)
    (behind : word.drop i = rest) (inside : i ≤ word.length) (closed : k ≤ i) :
    (readFrom i rest r).chart.columns[k]? = (r.close i).chart.columns[k]? := by
  induction rest generalizing i r with
  | nil =>
    unfold readFrom
    rw [((underway.close inside).scanColumn_endMark i).2]
  | cons c rest ih =>
    obtain ⟨next, shorter⟩ := of_drop_eq_cons behind
    have later := (List.getElem?_eq_some_iff.mp next).1
    have scanning := underway.close inside
    have closing := scanning.scanColumn next
    obtain ⟨_, _, scans, _⟩ := scanning.sound.scanColumn_takes next
    obtain ⟨_, _, _, closes⟩ := closing.sound.close_keeps later
    unfold readFrom
    rw [ih closing shorter later (by omega), closing.chart_close,
      closes.elsewhere k (by omega), scanning.chart_scanColumn, scans.elsewhere k (by omega)]

/-! ## Two runs -/

theorem step_agree (same : grammar.SameReachable other start)
    (underway : Underway grammar word start r) (underwayToo : Underway other text start s)
    (agree : Chart.Agree last r.chart s.chart) (later : i + 1 ≤ last) {c : Char}
    (next : word[i]? = some c) (nextToo : text[i]? = some c) :
    Chart.Agree last ((r.close i).scanColumn i (String.singleton c)).chart
      ((s.close i).scanColumn i (String.singleton c)).chart := by
  have inside := Nat.le_of_lt (List.getElem?_eq_some_iff.mp next).1
  have insideToo := Nat.le_of_lt (List.getElem?_eq_some_iff.mp nextToo).1
  have closed := underway.sound.close_agree underwayToo.sound same agree (Nat.le_of_succ_le later)
    inside insideToo
  rw [(underway.close inside).chart_scanColumn, (underwayToo.close insideToo).chart_scanColumn,
    underway.chart_close, underwayToo.chart_close]
  exact (closed.scanColumn (Nat.le_of_succ_le later) later _).chart

/-- Reading a text and more behind it, and reading the text alone. -/
theorem readFrom_agree (same : grammar.SameReachable other start) {rest more : List Char}
    (underway : Underway grammar (text ++ more) start r)
    (underwayToo : Underway other text start s)
    (agree : Chart.Agree text.length r.chart s.chart) (behind : text.drop i = rest)
    (inside : i ≤ text.length) :
    Chart.Agree text.length (readFrom i (rest ++ more) r).chart (readFrom i rest s).chart := by
  have insideWhole : i ≤ (text ++ more).length := by
    rw [List.length_append]
    omega
  induction rest generalizing i r s with
  | nil =>
    have ends : i = text.length := Nat.le_antisymm inside (List.drop_eq_nil_iff.mp behind)
    subst ends
    have closed := underway.sound.close_agree underwayToo.sound same agree (Nat.le_refl _)
      insideWhole inside
    have read := underway_readFrom underway List.drop_left insideWhole
    have readToo := underway_readFrom underwayToo behind inside
    refine ⟨read.sound.started.trans readToo.sound.started.symm, ?_, fun k early => ?_⟩
    · rw [List.nil_append, read.sound.size]
      omega
    · rw [List.nil_append, columns_readFrom underway List.drop_left insideWhole early,
        columns_readFrom underwayToo behind inside early, underway.chart_close,
        underwayToo.chart_close]
      exact closed.columns k early
  | cons c rest ih =>
    obtain ⟨next, shorter⟩ := of_drop_eq_cons behind
    have later := (List.getElem?_eq_some_iff.mp next).1
    have nextWhole : (text ++ more)[i]? = some c := by
      rw [List.getElem?_append_left later, next]
    have stepped := step_agree same underway underwayToo agree later nextWhole next
    apply ih ((underway.close insideWhole).scanColumn nextWhole)
      ((underwayToo.close inside).scanColumn next) stepped shorter later
    rw [List.length_append]
    omega

theorem agree_ofLength {length : Nat} (longer : last ≤ length) (start : String) :
    Chart.Agree last (.ofLength length start) (.ofLength last start) where
  start := rfl
  inside := by
    rw [Chart.size_ofLength]
    omega
  columns := by
    intro k early
    unfold Chart.ofLength
    rw [List.getElem?_toArray, List.getElem?_toArray]
    cases k with
    | zero => rfl
    | succ k => simp [show k < length by omega, show k < last by omega]

/-- The chart of a text that goes on, and the chart of the text alone. -/
theorem build_agree (same : grammar.SameReachable other start) (text more : String) :
    Chart.Agree text.toList.length (build grammar (text ++ more) start).chart
      (build other text start).chart := by
  unfold build
  rw [String.toList_append]
  apply readFrom_agree same (underway_start grammar _ start) (underway_start other _ start) _
    List.drop_zero (Nat.zero_le _)
  apply agree_ofLength
  rw [List.length_append]
  omega

end Recognition

end Earley
