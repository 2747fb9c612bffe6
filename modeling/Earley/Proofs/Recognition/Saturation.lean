import Earley.Proofs.Recognition.Soundness

/-!
# One pass saturates a column

A column is saturated when nothing more follows from its items.  A pass gives every item one turn,
and only a completion may have missed an item: one that came to wait later, in the column where
the completed item began.  So much holds of every grammar, and such a column is served.  If no body
mentions the reserved nonterminal, the head of the completed item is nullable, so the waiting item
has moved over it in its own turn, and served columns are saturated.
-/

set_option autoImplicit false

namespace Earley

variable {grammar : Grammar} {word : List Char} {start : String} {chart after : Chart}
  {i j : Nat} {item x : Item} {batch : List Item}

namespace Chart

def Saturated (grammar : Grammar) (chart : Chart) (i : Nat) : Prop :=
  ∀ item ∈ chart.itemsAt i, ∀ x, chart.Follows grammar i item x → x ∈ chart.itemsAt i

/-- The columns before `i` are saturated and scanned. -/
structure ReadUpTo (grammar : Grammar) (word : List Char) (i : Nat) (chart : Chart) : Prop where
  saturated : ∀ k < i, chart.Saturated grammar k
  scanned : ∀ k < i, ∀ c, word[k]? = some c → ∀ item ∈ chart.itemsAt k,
    item.waitsOn (.terminal (String.singleton c)) = true → item.moved ∈ chart.itemsAt (k + 1)

/-- What follows from an item in a grown chart followed before, unless it is a completion of what
began in the column that grew. -/
theorem Sound.follows_of_takes (sound : chart.Sound grammar word start)
    (takes : chart.Takes after j batch) (member : item ∈ chart.itemsAt i) {index : Int}
    (follows : after.Follows grammar index item x) :
    chart.Follows grammar index item x ∨ item.isComplete = true ∧ item.origin = (j : Nat) := by
  cases follows with
  | predicted rule waits => exact .inl (.predicted rule waits)
  | skipped nullable waits => exact .inl (.skipped nullable waits)
  | completed complete found among waits =>
    obtain ⟨k, _, origin, column, there, items⟩ := sound.origin_column member
    by_cases here : k = j
    · exact .inr ⟨complete, here ▸ origin⟩
    · rw [origin] at found
      rw [← itemsAt_of_column_natCast found, takes.itemsAt_of_ne here, items] at among
      exact .inl (.completed complete there among waits)

/-! ## The pass -/

/-- Everything that follows from the first items of a column is there, except what a completion
inside the column may have missed. -/
def ServedUpTo (grammar : Grammar) (i visited : Nat) (chart : Chart) : Prop :=
  ∀ item ∈ (chart.itemsAt i).take visited, ∀ x, chart.Follows grammar i item x →
    x ∈ chart.itemsAt i ∨ item.isComplete = true ∧ item.origin = (i : Nat)

structure ServedBefore (grammar : Grammar) (word : List Char) (i : Nat) (chart : Chart) : Prop where
  served : ∀ k < i, chart.ServedUpTo grammar k (chart.itemsAt k).length
  scanned : ∀ k < i, ∀ c, word[k]? = some c → ∀ item ∈ chart.itemsAt k,
    item.waitsOn (.terminal (String.singleton c)) = true → item.moved ∈ chart.itemsAt (k + 1)

theorem ServedUpTo.takes {visited : Nat} (served : chart.ServedUpTo grammar i visited)
    (sound : chart.Sound grammar word start) (takes : chart.Takes after j batch) (later : i < j) :
    after.ServedUpTo grammar i visited := by
  intro item member x follows
  rw [takes.itemsAt_of_ne (Nat.ne_of_lt later)] at member ⊢
  have present := List.mem_of_mem_take member
  rcases sound.follows_of_takes takes present follows with follows | ⟨_, origin⟩
  · exact served item member x follows
  · have early := (sound.justified i item present).wellPlaced.origin_le
    omega

theorem ServedBefore.takes (before : chart.ServedBefore grammar word i)
    (sound : chart.Sound grammar word start) (takes : chart.Takes after j batch) (later : i ≤ j) :
    after.ServedBefore grammar word i where
  served := by
    intro k early
    rw [takes.itemsAt_of_ne (by omega)]
    exact (before.served k early).takes sound takes (by omega)
  scanned := by
    intro k early c next item member waits
    rw [takes.itemsAt_of_ne (by omega)] at member
    exact takes.mem_of_mem (before.scanned k early c next item member waits)

theorem take_succ_of_takes (takes : chart.Takes after i batch) {visited : Nat}
    (turn : (chart.itemsAt i)[visited]? = some item) :
    (after.itemsAt i).take (visited + 1) = (chart.itemsAt i).take visited ++ [item] := by
  have inside := (List.getElem?_eq_some_iff.mp turn).1
  obtain ⟨new, grown⟩ := takes.prefix_itemsAt i
  rw [← grown, List.take_append_of_le_length (by omega), List.take_add_one, turn,
    Option.toList_some]

theorem turnKeeps_served (grammar : Grammar) (word : List Char) (start : String) (i : Nat) :
    TurnKeeps grammar i i fun visited current =>
      current.Sound grammar word start ∧ current.ServedUpTo grammar i visited := by
  intro visited current item batch after ⟨sound, served⟩ turn takes follows
  have member : item ∈ current.itemsAt i := List.mem_of_getElem? turn
  refine ⟨sound.turn member takes follows, ?_⟩
  intro other among x later
  rw [take_succ_of_takes takes turn] at among
  rcases List.mem_append.mp among with early | last
  · rcases sound.follows_of_takes takes (List.mem_of_mem_take early) later with before | inside
    · exact (served other early x before).imp_left takes.mem_of_mem
    · exact .inr inside
  · rw [List.mem_singleton.mp last] at later ⊢
    rcases sound.follows_of_takes takes member later with before | inside
    · exact .inl (takes.mem_itemsAt.mpr (.inr ((follows x).mpr before)))
    · exact .inr inside

/-- When all items were served, the completions inside the column have missed nothing. -/
theorem saturated_of_served (unreserved : grammar.Unreserved)
    (sound : chart.Sound grammar word start)
    (served : chart.ServedUpTo grammar i (chart.itemsAt i).length) :
    chart.Saturated grammar i := by
  unfold ServedUpTo at served
  rw [List.take_length] at served
  intro item member x follows
  rcases served item member x follows with there | ⟨complete, origin⟩
  · exact there
  · cases follows with
    | predicted _ waits =>
      exact absurd complete (by simp [Item.not_isComplete_of_waitsOn waits])
    | skipped _ waits => exact absurd complete (by simp [Item.not_isComplete_of_waitsOn waits])
    | completed _ found among waits =>
      rw [origin] at found
      rw [← itemsAt_of_column_natCast found] at among
      have nullable := Justified.lhs_nullable unreserved (sound.justified i _ among)
        (sound.justified i item member) complete origin waits
      rcases served _ among _ (.skipped nullable waits) with there | ⟨waitingComplete, _⟩
      · exact there
      · exact absurd waitingComplete (by simp [Item.not_isComplete_of_waitsOn waits])

theorem ServedBefore.readUpTo (served : chart.ServedBefore grammar word i)
    (unreserved : grammar.Unreserved) (sound : chart.Sound grammar word start) :
    chart.ReadUpTo grammar word i :=
  ⟨fun k early => saturated_of_served unreserved sound (served.served k early), served.scanned⟩

theorem Sound.served_close (sound : chart.Sound grammar word start) (inside : i ≤ word.length) :
    (chart.close grammar i).chart.ServedUpTo grammar i
      ((chart.close grammar i).chart.itemsAt i).length := by
  have unserved : chart.ServedUpTo grammar i 0 := fun item member => absurd member (by simp)
  rcases close_passEnd (turnKeeps_served grammar word start i) (sound.place_natCast inside)
    ⟨sound, unserved⟩ with ⟨_, ⟨_, served⟩, _⟩ | ⟨_, _, fault, failed, _⟩
  · exact served
  · rw [(sound.close_keeps inside).1] at failed
    cases failed

end Chart

/-! ## The chart of a word -/

namespace Recognition

theorem servedBefore_step {r : Recognition} {c : Char} (next : word[i]? = some c)
    (underway : Underway grammar word start r) (before : r.chart.ServedBefore grammar word i) :
    ((r.close i).scanColumn i (String.singleton c)).chart.ServedBefore grammar word (i + 1) := by
  have inside := Nat.le_of_lt (List.getElem?_eq_some_iff.mp next).1
  have closedUnderway := underway.close inside
  rw [closedUnderway.chart_scanColumn, underway.chart_close]
  obtain ⟨_, sound, _, closes⟩ := underway.sound.close_keeps inside
  obtain ⟨_, scan, scans, scanned⟩ := sound.scanColumn_takes next
  have served := underway.sound.served_close inside
  have earlier := (before.takes underway.sound closes (Nat.le_refl i)).takes sound scans
    (Nat.le_succ i)
  refine ⟨?_, ?_⟩
  · intro k early
    rcases Nat.lt_succ_iff_lt_or_eq.mp early with early | rfl
    · exact earlier.served k early
    · rw [scans.itemsAt_of_ne (Nat.ne_of_lt (Nat.lt_succ_self k))]
      exact served.takes sound scans (Nat.lt_succ_self k)
  · intro k early d follows item member waits
    rcases Nat.lt_succ_iff_lt_or_eq.mp early with early | rfl
    · exact earlier.scanned k early d follows item member waits
    · cases Option.some.inj (follows.symm.trans next)
      rw [scans.itemsAt_of_ne (Nat.ne_of_lt (Nat.lt_succ_self k))] at member
      exact scans.mem_itemsAt.mpr (.inr ((scanned _).mpr ⟨item, member, waits, rfl⟩))

/-- All columns of the chart of a word are served and scanned, whatever the bodies mention. -/
theorem servedBefore_build (grammar : Grammar) (word start : String) :
    (build grammar word start).chart.ServedBefore grammar word.toList
      (word.toList.length + 1) := by
  have step : ∀ (i : Nat) c r, word.toList[i]? = some c →
      Underway grammar word.toList start r ∧ r.chart.ServedBefore grammar word.toList i →
      Underway grammar word.toList start ((r.close i).scanColumn i (String.singleton c)) ∧
        ((r.close i).scanColumn i (String.singleton c)).chart.ServedBefore grammar word.toList
          (i + 1) := by
    intro i c r next ⟨underway, before⟩
    have inside := Nat.le_of_lt (List.getElem?_eq_some_iff.mp next).1
    exact ⟨(underway.close inside).scanColumn next, servedBefore_step next underway before⟩
  have nothing : (Recognition.start grammar
      (.ofLength word.toList.length start)).chart.ServedBefore grammar word.toList 0 :=
    ⟨nofun, nofun⟩
  obtain ⟨last, ⟨underway, before⟩, built⟩ :=
    build_rule (motive := fun i r => Underway grammar word.toList start r ∧
      r.chart.ServedBefore grammar word.toList i) step
      ⟨underway_start grammar word.toList start, nothing⟩
  have closed := underway.close (Nat.le_refl _)
  rw [built, (closed.scanColumn_endMark _).2, underway.chart_close]
  obtain ⟨_, _, _, closes⟩ := underway.sound.close_keeps (Nat.le_refl _)
  have served := underway.sound.served_close (Nat.le_refl _)
  have earlier := before.takes underway.sound closes (Nat.le_refl _)
  refine ⟨?_, ?_⟩
  · intro k early
    rcases Nat.lt_succ_iff_lt_or_eq.mp early with early | rfl
    · exact earlier.served k early
    · exact served
  · intro k _ c next item member waits
    have inside := (List.getElem?_eq_some_iff.mp next).1
    exact earlier.scanned k inside c next item member waits

/-- All columns of the chart of a word are saturated and scanned. -/
theorem readUpTo_build (grammar : Grammar) (unreserved : grammar.Unreserved)
    (word start : String) :
    (build grammar word start).chart.ReadUpTo grammar word.toList (word.toList.length + 1) :=
  (servedBefore_build grammar word start).readUpTo unreserved
    (underway_build grammar word start).sound

end Recognition

end Earley
