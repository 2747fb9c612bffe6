import Earley.Chart.Basic
import Earley.Proofs.Chart.Taking
import Earley.Proofs.Grammar.Nullable
import Earley.Proofs.Grammar.Unreserved

/-!
# Justified items

An item is justified in a column when finitely many steps of prediction, nullable skip, scanning
and completion lead to it, whatever the order in which a recognizer takes them.  A justified item
is well placed: its dot is inside its body and its origin is not behind its column.  If it began in
its own column, all that stands before its dot is nullable; so a completion inside a column moves
the dot over nothing that a skip would not have moved it over.
-/

set_option autoImplicit false

namespace Earley

/-- The items that the steps of a recognizer lead to, by column. -/
inductive Justified (grammar : Grammar) (word : List Char) (start : String) : Nat → Item → Prop
  | seed : Justified grammar word start 0 (Chart.seed start)
  | predicted {i : Nat} {item : Item} {p : Production}
      (before : Justified grammar word start i item) (member : p ∈ grammar.productions)
      (waits : item.waitsOn p.lhs = true) :
      Justified grammar word start i (.fresh p i)
  | skipped {i : Nat} {item : Item} {s : Symbol} (before : Justified grammar word start i item)
      (nullable : s ∈ grammar.nullable) (waits : item.waitsOn s = true) :
      Justified grammar word start i item.moved
  | scanned {i : Nat} {item : Item} {c : Char} (before : Justified grammar word start i item)
      (read : word[i]? = some c) (waits : item.waitsOn (.terminal (String.singleton c)) = true) :
      Justified grammar word start (i + 1) item.moved
  | completed {i k : Nat} {inner waiting : Item} (before : Justified grammar word start k waiting)
      (inside : Justified grammar word start i inner) (complete : inner.isComplete = true)
      (origin : inner.origin = k) (waits : waiting.waitsOn inner.lhs = true) :
      Justified grammar word start i waiting.moved

structure Item.WellPlaced (grammar : Grammar) (start : String) (i : Nat) (item : Item) : Prop where
  production : item.production ∈ grammar.augmentedProductions start
  dot_nonneg : 0 ≤ item.dot
  dot_le : item.dot ≤ item.body.length
  origin_nonneg : 0 ≤ item.origin
  origin_le : item.origin ≤ i
  origin_of_dot : item.dot = 0 → item.origin = i
  dot_of_empty : item.production.isEmpty = true → item.dot = 0

variable {grammar : Grammar} {word : List Char} {start : String} {i k : Nat} {item : Item}

namespace Item.WellPlaced

theorem seed : (Chart.seed start).WellPlaced grammar start 0 where
  production := List.mem_cons_self
  dot_nonneg := Int.le_refl 0
  dot_le := Int.natCast_nonneg _
  origin_nonneg := Int.le_refl 0
  origin_le := Int.le_refl 0
  origin_of_dot := fun _ => rfl
  dot_of_empty := fun _ => rfl

theorem fresh {p : Production} (member : p ∈ grammar.augmentedProductions start) :
    (Item.fresh p i).WellPlaced grammar start i where
  production := member
  dot_nonneg := Int.le_refl 0
  dot_le := Int.natCast_nonneg _
  origin_nonneg := Int.natCast_nonneg _
  origin_le := Int.le_refl _
  origin_of_dot := fun _ => rfl
  dot_of_empty := fun _ => rfl

/-- An item may move over a symbol other than an epsilon into its column or a later one. -/
theorem moved (placed : item.WellPlaced grammar start k) (later : k ≤ i) {s : Symbol}
    (waits : item.waitsOn s = true) (solid : s.isEpsilon = false) :
    item.moved.WellPlaced grammar start i where
  production := placed.production
  dot_nonneg := by
    have dot := placed.dot_nonneg
    rw [dot_moved]
    omega
  dot_le := by
    have inside := (dot_bounds_of_waitsOn waits).2
    rw [dot_moved, body_moved]
    omega
  origin_nonneg := placed.origin_nonneg
  origin_le := by
    have origin := placed.origin_le
    rw [origin_moved]
    omega
  origin_of_dot := by
    intro front
    have dot := placed.dot_nonneg
    rw [dot_moved] at front
    omega
  dot_of_empty := by
    intro empty
    obtain ⟨name, single⟩ := Production.isEmpty_iff.mp empty
    have member := mem_body_of_waitsOn waits
    rw [body, ← production_moved, single, List.mem_singleton] at member
    rw [member] at solid
    cases solid

theorem readable (placed : item.WellPlaced grammar start i) : item.Readable := by
  apply readable_of_low
  have dot := placed.dot_nonneg
  omega

theorem dot_eq (placed : item.WellPlaced grammar start i) : item.dot = item.dot.toNat := by
  have dot := placed.dot_nonneg
  omega

theorem origin_eq (placed : item.WellPlaced grammar start i) :
    ∃ k ≤ i, item.origin = (k : Nat) := by
  have low := placed.origin_nonneg
  have high := placed.origin_le
  exact ⟨item.origin.toNat, by omega, by omega⟩

theorem getElem?_of_waitsOn (placed : item.WellPlaced grammar start i) {s : Symbol}
    (waits : item.waitsOn s = true) : item.body[item.dot.toNat]? = some s :=
  (waitsOn_iff_getElem? placed.dot_eq).mp waits

theorem drop_of_waitsOn (placed : item.WellPlaced grammar start i) {s : Symbol}
    (waits : item.waitsOn s = true) :
    item.body.drop item.dot.toNat = s :: item.body.drop (item.dot.toNat + 1) := by
  obtain ⟨inside, found⟩ := List.getElem?_eq_some_iff.mp (placed.getElem?_of_waitsOn waits)
  rw [List.drop_eq_getElem_cons inside, found]

theorem take_moved (placed : item.WellPlaced grammar start i) {s : Symbol}
    (waits : item.waitsOn s = true) :
    item.moved.body.take item.moved.dot.toNat = item.body.take item.dot.toNat ++ [s] := by
  have dot : item.moved.dot.toNat = item.dot.toNat + 1 := by
    have front := placed.dot_nonneg
    rw [dot_moved]
    omega
  rw [dot, body_moved, List.take_add_one, placed.getElem?_of_waitsOn waits, Option.toList_some]

section

variable (placed : item.WellPlaced grammar start i) {s : Symbol} {symbols : List Symbol}
  (behind : item.body.drop item.dot.toNat = s :: symbols)

include placed behind

theorem waitsOn_of_drop : item.waitsOn s = true := by
  rw [waitsOn_iff_getElem? placed.dot_eq, ← List.head?_drop, behind, List.head?_cons]

theorem drop_moved : item.moved.body.drop item.moved.dot.toNat = symbols := by
  have dot : item.moved.dot.toNat = item.dot.toNat + 1 := by
    have front := placed.dot_nonneg
    rw [dot_moved]
    omega
  rw [dot, body_moved, ← List.drop_drop, behind, List.drop_one, List.tail_cons]

end

end Item.WellPlaced

theorem Item.take_complete (complete : item.isComplete = true) :
    item.body.take item.dot.toNat = item.body := by
  have reached := isComplete_iff.mp complete
  apply List.take_of_length_le
  omega

theorem Item.eq_reserved_of_waitsOn {s : Symbol} (waits : item.waitsOn s = true)
    (augmented : item.production = .augmented augmentedHead) : s = .reserved := by
  have member := mem_body_of_waitsOn waits
  rw [body, augmented] at member
  exact List.mem_singleton.mp member

theorem Item.not_complete_of_augmented (complete : item.isComplete = true)
    (augmented : item.production = .augmented start) : item.dot ≠ 0 := by
  have reached := isComplete_iff.mp complete
  have length : item.body.length = 1 := by rw [body, augmented]; rfl
  omega

namespace Justified

theorem wellPlaced (justified : Justified grammar word start i item) :
    item.WellPlaced grammar start i := by
  induction justified with
  | seed => exact .seed
  | predicted _ member _ _ => exact .fresh (List.mem_cons_of_mem _ member)
  | skipped _ nullable waits placed =>
    obtain ⟨name, rfl⟩ := Grammar.nonterminal_of_mem_nullable nullable
    exact placed.moved (Nat.le_refl _) waits rfl
  | scanned _ _ waits placed => exact placed.moved (Nat.le_succ _) waits rfl
  | @completed i k inner waiting _ _ _ origin waits placed inside =>
    have later : k ≤ i := by
      have bound := inside.origin_le
      omega
    exact placed.moved later waits rfl

theorem origin_of_augmented (justified : Justified grammar word start i item)
    (augmented : item.production = .augmented start) : item.origin = 0 := by
  induction justified with
  | seed => rfl
  | @predicted i item p _ member _ _ =>
    rw [Item.production_fresh] at augmented
    exact absurd (congrArg Production.head augmented) (grammar.head_ne_augmented p member)
  | skipped _ _ _ ih => exact ih augmented
  | scanned _ _ _ ih => exact ih augmented
  | completed _ _ _ _ _ ih _ => exact ih augmented

/-! ## Completions inside a column -/

/-- An augmented production that leads to itself is never completed. -/
theorem dot_eq_zero_of_reserved (justified : Justified grammar word augmentedHead i item)
    (augmented : item.production = .augmented augmentedHead) : item.dot = 0 := by
  induction justified with
  | seed => rfl
  | predicted => rfl
  | skipped _ nullable waits _ =>
    have reserved := Item.eq_reserved_of_waitsOn waits augmented
    obtain ⟨p, member, same, _⟩ := Grammar.yields_of_mem_nullable nullable
    exact absurd (same.symm.trans reserved) (Grammar.lhs_ne_reserved member)
  | scanned _ _ waits _ =>
    cases Item.eq_reserved_of_waitsOn waits augmented
  | @completed i k inner waiting _ inside complete _ waits _ ih =>
    have reserved := Item.eq_reserved_of_waitsOn waits augmented
    rcases Grammar.mem_augmentedProductions.mp inside.wellPlaced.production with same | member
    · exact absurd (ih same) (Item.not_complete_of_augmented complete same)
    · exact absurd reserved (Grammar.lhs_ne_reserved member)

/-- In an unreserved grammar the productions that are completed for a waiting item are its own. -/
theorem mem_of_completed (unreserved : grammar.Unreserved) {inner waiting : Item}
    (before : Justified grammar word start k waiting)
    (inside : Justified grammar word start i inner) (complete : inner.isComplete = true)
    (waits : waiting.waitsOn inner.lhs = true) : inner.production ∈ grammar.productions := by
  rcases Grammar.mem_augmentedProductions.mp inside.wellPlaced.production with augmented | member
  · have reserved : inner.lhs = .reserved := by rw [Item.lhs, augmented]; rfl
    have mentioned := Item.mem_body_of_waitsOn waits
    rw [reserved] at mentioned
    rcases Grammar.mem_augmentedProductions.mp before.wellPlaced.production with same | member
    · rw [Item.body, same] at mentioned
      have circular := Symbol.nonterminal.inj (List.mem_singleton.mp mentioned)
      subst circular
      exact absurd (inside.dot_eq_zero_of_reserved augmented)
        (Item.not_complete_of_augmented complete augmented)
    · exact absurd mentioned (unreserved _ member)
  · exact member

/-- What stands before the dot of an item that began in its own column is nullable. -/
theorem nullable_before_dot (unreserved : grammar.Unreserved)
    (justified : Justified grammar word start i item) (origin : item.origin = i) :
    ∀ s ∈ item.body.take item.dot.toNat, s ∈ grammar.nullable := by
  induction justified with
  | seed => exact nofun
  | predicted => exact nofun
  | skipped before nullable waits ih =>
    intro s member
    rw [before.wellPlaced.take_moved waits] at member
    rcases List.mem_append.mp member with early | last
    · exact ih origin s early
    · rw [List.mem_singleton.mp last]
      exact nullable
  | scanned before _ _ _ =>
    have early := before.wellPlaced.origin_le
    rw [Item.origin_moved] at origin
    omega
  | @completed i k inner waiting before inside complete began waits ih inner_ih =>
    have early := before.wellPlaced.origin_le
    have late := inside.wellPlaced.origin_le
    rw [Item.origin_moved] at origin
    have same : k = i := by omega
    subst same
    intro s member
    rw [before.wellPlaced.take_moved waits] at member
    rcases List.mem_append.mp member with early | last
    · exact ih origin s early
    · rw [List.mem_singleton.mp last]
      have member := mem_of_completed unreserved before inside complete waits
      have vanishes := inner_ih began
      rw [Item.take_complete complete] at vanishes
      exact Grammar.lhs_mem_nullable member fun s inBody => .inr (vanishes s inBody)

theorem lhs_nullable (unreserved : grammar.Unreserved) {inner waiting : Item}
    (before : Justified grammar word start k waiting)
    (inside : Justified grammar word start i inner) (complete : inner.isComplete = true)
    (origin : inner.origin = i) (waits : waiting.waitsOn inner.lhs = true) :
    inner.lhs ∈ grammar.nullable := by
  have member := mem_of_completed unreserved before inside complete waits
  have vanishes := inside.nullable_before_dot unreserved origin
  rw [Item.take_complete complete] at vanishes
  exact Grammar.lhs_mem_nullable member fun s inBody => .inr (vanishes s inBody)

end Justified

end Earley
