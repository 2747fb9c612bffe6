import Earley.Proofs.Chart.Stock
import Earley.Proofs.Plain.Steps
import Earley.Proofs.Recognition.Contents

/-!
# The columns of the plain algorithm

The rounds over a column end because a whole round adds nothing: every item of the column has its
dot inside its body and its origin not behind the column, and there are only as many such items as
the rounds have fuel.  What a round that adds nothing leaves is all that the plain steps lead to.
So the columns of the plain algorithm are, as sets, the columns of the chart.
-/

set_option autoImplicit false

namespace Earley

namespace Plain

variable {grammar : Grammar} {word : List Char} {start : String} {i k : Nat}
  {earlier columns : List (List Item)} {column : List Item} {item x : Item}

def itemsAt (columns : List (List Item)) (k : Nat) : List Item := columns[k]?.getD []

theorem itemsAt_append (column : List Item) (early : k < earlier.length) :
    itemsAt (earlier ++ [column]) k = itemsAt earlier k := by
  unfold itemsAt
  rw [List.getElem?_append_left early]

theorem itemsAt_append_last (earlier : List (List Item)) (column : List Item) :
    itemsAt (earlier ++ [column]) earlier.length = column := by
  unfold itemsAt
  rw [List.getElem?_concat_length, Option.getD_some]

theorem mem_itemsAt_append (member : x ∈ itemsAt (earlier ++ [column]) k) :
    k < earlier.length ∧ x ∈ itemsAt earlier k ∨ k = earlier.length ∧ x ∈ column := by
  rcases Nat.lt_trichotomy k earlier.length with early | rfl | late
  · rw [itemsAt_append column early] at member
    exact .inl ⟨early, member⟩
  · rw [itemsAt_append_last] at member
    exact .inr ⟨rfl, member⟩
  · have absent : (earlier ++ [column])[k]? = none := by
      apply List.getElem?_eq_none
      rw [List.length_append, List.length_singleton]
      exact late
    unfold itemsAt at member
    rw [absent] at member
    exact absurd member List.not_mem_nil

/-! ## What follows from an item -/

theorem consequences_of_recognized (recognized : recognized item = true) :
    x ∈ consequences grammar earlier column item ↔
      ∃ waiting ∈ itemsAt (earlier ++ [column]) item.origin.toNat,
        waiting.waitsOn item.lhs = true ∧ x = waiting.moved := by
  unfold consequences itemsAt
  rw [if_pos recognized]
  exact Item.mem_map_moved_filter

theorem consequences_of_not_recognized (further : ¬recognized item = true) :
    x ∈ consequences grammar earlier column item ↔
      ∃ p ∈ grammar.productions, item.waitsOn p.lhs = true ∧ x = .fresh p earlier.length := by
  unfold consequences
  rw [if_neg further]
  constructor
  · intro new
    split at new
    · rename_i s next
      obtain ⟨p, rule, rfl⟩ := List.mem_map.mp new
      obtain ⟨member, rfl⟩ := Grammar.mem_rulesFor.mp rule
      exact ⟨p, member, Item.waitsOn_iff.mpr next, rfl⟩
    · exact absurd new List.not_mem_nil
  · rintro ⟨p, member, waits, rfl⟩
    rw [Item.waitsOn_iff.mp waits]
    exact List.mem_map_of_mem (Grammar.mem_rulesFor.mpr ⟨member, rfl⟩)

def Sound (grammar : Grammar) (word : List Char) (start : String) (columns : List (List Item)) :
    Prop :=
  ∀ k, ∀ x ∈ itemsAt columns k, Reached grammar word start k x

theorem Sound.append (sound : Sound grammar word start earlier)
    (reached : ∀ x ∈ column, Reached grammar word start earlier.length x) :
    Sound grammar word start (earlier ++ [column]) := by
  intro k x member
  rcases mem_itemsAt_append member with ⟨_, early⟩ | ⟨rfl, last⟩
  · exact sound k x early
  · exact reached x last

theorem Reached.of_consequence (sound : Sound grammar word start (earlier ++ [column]))
    (reached : Reached grammar word start earlier.length item)
    (follows : x ∈ consequences grammar earlier column item) :
    Reached grammar word start earlier.length x := by
  by_cases recognized : recognized item = true
  · obtain ⟨waiting, member, waits, rfl⟩ := (consequences_of_recognized recognized).mp follows
    have origin := reached.justified.wellPlaced.origin_nonneg
    exact .completed (sound _ waiting member) reached recognized (by omega) waits
  · obtain ⟨p, member, waits, rfl⟩ := (consequences_of_not_recognized recognized).mp follows
    exact .predicted reached member waits

/-! ## Rounds -/

/-- A column at work behind finished ones. -/
structure AtWork (grammar : Grammar) (word : List Char) (start : String)
    (earlier : List (List Item)) (column : List Item) : Prop where
  nodup : column.Nodup
  reached : ∀ x ∈ column, Reached grammar word start earlier.length x

theorem prefix_round (column : List Item) : column <+: round grammar earlier column :=
  prefix_foldl (fun _ _ => prefix_foldl_appendNew _ _) column column

theorem AtWork.round (sound : Sound grammar word start earlier)
    (atWork : AtWork grammar word start earlier column) :
    AtWork grammar word start earlier (round grammar earlier column) := by
  refine List.foldlRecOn column _ atWork ?_
  intro grown growing item member
  refine ⟨nodup_foldl_appendNew growing.nodup _, ?_⟩
  intro x new
  rcases mem_foldl_appendNew.mp new with old | follows
  · exact growing.reached x old
  · exact (atWork.reached item member).of_consequence (sound.append growing.reached) follows

/-- A round that adds nothing has found all that follows from the items. -/
theorem mem_of_round_eq (stays : round grammar earlier column = column) (member : item ∈ column)
    (follows : x ∈ consequences grammar earlier column item) : x ∈ column := by
  have same := step_eq_of_foldl_eq (fun _ _ => prefix_foldl_appendNew _ _) stays member
  rw [← same]
  exact mem_foldl_appendNew.mpr (.inr follows)

theorem rounds_eq (grammar : Grammar) (earlier : List (List Item)) (fuel : Nat)
    (column : List Item) :
    rounds grammar earlier fuel column = growUntilStable (round grammar earlier) fuel column := by
  induction fuel generalizing column with
  | zero => rfl
  | succ fuel ih =>
    unfold rounds growUntilStable
    dsimp only
    rw [ih]

/-! ## The fuel of the rounds -/

def placements (i : Nat) (p : Production) : List Item :=
  (List.range (p.body.length + 1)).flatMap fun dot : Nat =>
    (List.range (i + 1)).map fun origin : Nat => ⟨origin, dot, p⟩

theorem mem_placements (placed : item.WellPlaced grammar start i) :
    item ∈ placements i item.production := by
  have dot := placed.dot_le
  have front := placed.dot_nonneg
  have origin := placed.origin_le
  have began := placed.origin_nonneg
  have length : item.production.body.length = item.body.length := rfl
  refine List.mem_flatMap.mpr ⟨item.dot.toNat, List.mem_range.mpr (by omega), ?_⟩
  refine List.mem_map.mpr ⟨item.origin.toNat, List.mem_range.mpr (by omega), ?_⟩
  rw [Int.toNat_of_nonneg front, Int.toNat_of_nonneg began]

theorem length_placements (i : Nat) (p : Production) :
    (placements i p).length = (i + 1) * (p.body.length + 1) := by
  unfold placements
  generalize p.body.length + 1 = places
  induction places with
  | zero => rfl
  | succ places ih =>
    have last : List.range (places + 1) = List.range places ++ [places] := List.range_succ
    rw [last, List.flatMap_append, List.length_append, ih, List.flatMap_singleton,
      List.length_map, List.length_range, Nat.mul_succ]

theorem length_flatMap_placements (i : Nat) (productions : List Production) :
    (productions.flatMap (placements i)).length = (i + 1) * Chart.dotPlaces productions := by
  induction productions with
  | nil => rfl
  | cons p rest ih =>
    rw [List.flatMap_cons, List.length_append, ih, length_placements, Chart.dotPlaces_cons,
      ← Nat.mul_add]

theorem roundBound_eq (grammar : Grammar) (earlier : List (List Item)) (start : String) :
    roundBound grammar earlier =
      (earlier.length + 1) * Chart.dotPlaces (grammar.augmentedProductions start) := by
  rw [roundBound, Chart.foldl_add, Grammar.augmentedProductions, Chart.dotPlaces_cons]
  rfl

theorem AtWork.length_le (atWork : AtWork grammar word start earlier column) :
    column.length ≤ roundBound grammar earlier := by
  rw [roundBound_eq grammar earlier start, ← length_flatMap_placements]
  apply atWork.nodup.length_le_of_subset
  intro item member
  have placed := (atWork.reached item member).justified.wellPlaced
  exact List.mem_flatMap.mpr ⟨item.production, placed.production, mem_placements placed⟩

/-! ## Closing a column -/

theorem prefix_close (grammar : Grammar) (earlier : List (List Item)) (column : List Item) :
    column <+: close grammar earlier column := by
  unfold close
  rw [rounds_eq]
  exact prefix_growUntilStable prefix_round _ column

theorem AtWork.close (sound : Sound grammar word start earlier)
    (atWork : AtWork grammar word start earlier column) :
    AtWork grammar word start earlier (close grammar earlier column) := by
  unfold Plain.close
  rw [rounds_eq]
  exact growUntilStable_keeps (fun _ growing => growing.round sound) _ atWork

/-- The rounds over a column end because a whole round adds nothing. -/
theorem AtWork.round_close (sound : Sound grammar word start earlier)
    (atWork : AtWork grammar word start earlier column) :
    Plain.round grammar earlier (Plain.close grammar earlier column) =
      Plain.close grammar earlier column := by
  unfold Plain.close
  rw [rounds_eq]
  exact grow_growUntilStable prefix_round (fun _ growing => growing.round sound)
    (fun _ growing => growing.length_le) atWork (Nat.le_add_right _ _)

inductive Begins (grammar : Grammar) (word : List Char) (start : String) : Nat → Item → Prop
  | seed : Begins grammar word start 0 (Chart.seed start)
  | scanned {i : Nat} {item : Item} {c : Char} (before : Reached grammar word start i item)
      (read : word[i]? = some c) (waits : item.waitsOn (.terminal (String.singleton c)) = true) :
      Begins grammar word start (i + 1) item.moved

theorem Begins.reached (begins : Begins grammar word start i item) :
    Reached grammar word start i item := by
  cases begins with
  | seed => exact .seed
  | scanned before read waits => exact .scanned before read waits

/-- Finished columns: each has the items that are reached there, and a whole round over it adds
nothing. -/
structure Finished (grammar : Grammar) (word : List Char) (start : String)
    (columns : List (List Item)) : Prop where
  members : ∀ k < columns.length, ∀ x,
    x ∈ itemsAt columns k ↔ Reached grammar word start k x
  stays : ∀ k < columns.length,
    Plain.round grammar (columns.take k) (itemsAt columns k) = itemsAt columns k

theorem Finished.sound (finished : Finished grammar word start columns) :
    Sound grammar word start columns := by
  intro k x member
  by_cases inside : k < columns.length
  · exact (finished.members k inside x).mp member
  · unfold itemsAt at member
    rw [List.getElem?_eq_none (Nat.le_of_not_lt inside)] at member
    exact absurd member List.not_mem_nil

/-- Where a round adds nothing behind finished columns, all reached items are there. -/
theorem Finished.mem_of_reached (finished : Finished grammar word start earlier)
    (begins : ∀ x, Begins grammar word start earlier.length x → x ∈ column)
    (stays : Plain.round grammar earlier column = column)
    (reached : Reached grammar word start i item) (here : i = earlier.length) : item ∈ column := by
  induction reached with
  | seed => exact begins _ (here ▸ .seed)
  | scanned before read waits _ => exact begins _ (here ▸ .scanned before read waits)
  | @predicted i item p _ member waits ih =>
    have further : ¬recognized item = true := by
      intro recognized
      rcases recognized_iff.mp recognized with complete | ⟨_, empty⟩
      · rw [Item.not_isComplete_of_waitsOn waits] at complete
        cases complete
      · obtain ⟨name, single⟩ := Production.isEmpty_iff.mp empty
        have inBody := Item.mem_body_of_waitsOn waits
        rw [Item.body, single, List.mem_singleton] at inBody
        cases inBody
    subst here
    exact mem_of_round_eq stays (ih rfl)
      ((consequences_of_not_recognized further).mpr ⟨p, member, waits, rfl⟩)
  | @completed i k inner waiting before inside complete origin waits ih inner_ih =>
    have began := inside.justified.wellPlaced.origin_le
    have place : inner.origin.toNat = k := by omega
    have among : waiting ∈ itemsAt (earlier ++ [column]) inner.origin.toNat := by
      rw [place]
      rcases Nat.lt_or_eq_of_le (show k ≤ earlier.length by omega) with early | rfl
      · rw [itemsAt_append column early]
        exact (finished.members k early waiting).mpr before
      · rw [itemsAt_append_last]
        exact ih rfl
    exact mem_of_round_eq stays (inner_ih here)
      ((consequences_of_recognized complete).mpr ⟨waiting, among, waits, rfl⟩)

theorem Finished.append_close (finished : Finished grammar word start earlier)
    (nodup : column.Nodup) (begins : ∀ x, x ∈ column ↔ Begins grammar word start earlier.length x) :
    Finished grammar word start (earlier ++ [Plain.close grammar earlier column]) := by
  have atWork : AtWork grammar word start earlier column :=
    ⟨nodup, fun x member => ((begins x).mp member).reached⟩
  have stays := atWork.round_close finished.sound
  have inside : ∀ k, k < (earlier ++ [Plain.close grammar earlier column]).length →
      k < earlier.length ∨ k = earlier.length := by
    intro k inside
    rw [List.length_append, List.length_singleton] at inside
    omega
  refine ⟨?_, ?_⟩
  · intro k inRange x
    rcases inside k inRange with early | rfl
    · rw [itemsAt_append _ early]
      exact finished.members k early x
    · rw [itemsAt_append_last]
      constructor
      · exact (atWork.close finished.sound).reached x
      · intro reached
        have kept := (prefix_close grammar earlier column).subset
        exact finished.mem_of_reached (fun y first => kept ((begins y).mpr first)) stays reached rfl
  · intro k inRange
    rcases inside k inRange with early | rfl
    · rw [itemsAt_append _ early, List.take_append_of_le_length (Nat.le_of_lt early)]
      exact finished.stays k early
    · rw [itemsAt_append_last, List.take_left]
      exact stays

/-! ## The columns of a word -/

theorem nodup_scanned (nodup : column.Nodup) (c : Char) : (scanned column c).Nodup := by
  unfold scanned
  refine List.Pairwise.map _ ?_ (nodup.filter _)
  intro first second different same
  exact different (Item.moved_injective same)

theorem Finished.begins_scanned (finished : Finished grammar word start columns)
    (last : columns.length = k + 1) {c : Char} (read : word[k]? = some c) :
    x ∈ scanned (itemsAt columns k) c ↔ Begins grammar word start (k + 1) x := by
  have members := finished.members k (by omega)
  rw [scanned, Item.mem_map_moved_filter]
  constructor
  · rintro ⟨item, member, waits, rfl⟩
    exact .scanned ((members item).mp member) read waits
  · intro begins
    cases begins with
    | @scanned _ item d before again waits =>
      cases Option.some.inj (read.symm.trans again)
      exact ⟨item, (members item).mpr before, waits, rfl⟩

theorem finished_readFrom (finished : Finished grammar word start earlier) (nodup : column.Nodup)
    (begins : ∀ x, x ∈ column ↔ Begins grammar word start earlier.length x) {rest : List Char}
    (split : word.drop earlier.length = rest) (inside : earlier.length ≤ word.length) :
    Finished grammar word start (readFrom grammar earlier column rest) ∧
      (readFrom grammar earlier column rest).length = word.length + 1 := by
  induction rest generalizing earlier column with
  | nil =>
    have ends : word.length = earlier.length :=
      Nat.le_antisymm (List.drop_eq_nil_iff.mp split) inside
    refine ⟨finished.append_close nodup begins, ?_⟩
    rw [readFrom, List.length_append, List.length_singleton, ends]
  | cons c rest ih =>
    have read : word[earlier.length]? = some c := by
      rw [← List.head?_drop, split]
      rfl
    have longer := (List.getElem?_eq_some_iff.mp read).1
    have atWork : AtWork grammar word start earlier column :=
      ⟨nodup, fun x member => ((begins x).mp member).reached⟩
    have closed := finished.append_close nodup begins
    have length : (earlier ++ [Plain.close grammar earlier column]).length =
        earlier.length + 1 := by
      rw [List.length_append, List.length_singleton]
    have next : ∀ x, x ∈ scanned (Plain.close grammar earlier column) c ↔
        Begins grammar word start (earlier.length + 1) x := by
      intro x
      have scans := closed.begins_scanned length read (x := x)
      rwa [itemsAt_append_last] at scans
    apply ih closed (nodup_scanned (atWork.close finished.sound).nodup c)
    · rw [length]
      exact next
    · rw [length, ← List.drop_drop, split]
      rfl
    · rw [length]
      exact longer

theorem finished_columns (grammar : Grammar) (word start : String) :
    Finished grammar word.toList start (Plain.columns grammar word start) ∧
      (Plain.columns grammar word start).length = word.toList.length + 1 := by
  have nothing : Finished grammar word.toList start [] := ⟨nofun, nofun⟩
  have begins : ∀ x, x ∈ [Chart.seed start] ↔ Begins grammar word.toList start 0 x := by
    intro x
    rw [List.mem_singleton]
    constructor
    · rintro rfl
      exact .seed
    · intro begins
      cases begins with
      | seed => rfl
  exact finished_readFrom nothing (List.pairwise_singleton _ _) begins List.drop_zero
    (Nat.zero_le _)

end Plain

namespace Recognition

/-- The chart of a word has, column by column, the items of the plain algorithm, whose rounds over a
column end because a whole round adds nothing. -/
theorem build_agrees_with_plain (grammar : Grammar) (unreserved : grammar.Unreserved)
    (word start : String) :
    (build grammar word start).fault = none ∧
      (Plain.columns grammar word start).length =
        (build grammar word start).chart.columns.size ∧
      ∀ (i : Nat) quick plain, (build grammar word start).chart.columns[i]? = some quick →
        (Plain.columns grammar word start)[i]? = some plain →
          Plain.round grammar ((Plain.columns grammar word start).take i) plain = plain ∧
            ∀ item, item ∈ quick.items ↔ item ∈ plain := by
  have underway := underway_build grammar word start
  obtain ⟨finished, length⟩ := Plain.finished_columns grammar word start
  refine ⟨underway.faultless, length.trans underway.sound.size.symm, ?_⟩
  intro i quick plain there found
  have inside := (List.getElem?_eq_some_iff.mp found).1
  have items : Plain.itemsAt (Plain.columns grammar word start) i = plain := by
    unfold Plain.itemsAt
    rw [found, Option.getD_some]
  refine ⟨?_, fun item => ?_⟩
  · have stays := finished.stays i inside
    rwa [items] at stays
  · rw [← Chart.itemsAt_of_some there, mem_itemsAt_build unreserved, ← items,
      finished.members i inside, reached_iff_justified]

theorem brackets_agrees_with_plain :
    Grammar.brackets.Unreserved ∧
      ∀ (i : Nat) quick plain, (build .brackets "ab" "S").chart.columns[i]? = some quick →
        (Plain.columns .brackets "ab" "S")[i]? = some plain →
          ∀ item, item ∈ quick.items ↔ item ∈ plain := by
  have agrees := build_agrees_with_plain .brackets Grammar.unreserved_brackets "ab" "S"
  refine ⟨Grammar.unreserved_brackets, fun i quick plain there found => ?_⟩
  exact (agrees.2.2 i quick plain there found).2

end Recognition

end Earley
