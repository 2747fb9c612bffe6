import Earley.Proofs.Legible

/-!
# The dot where it is written

Three rules say where the dot of an item is.  Writing puts the dot mark at the nearer end of the
body if the dot lies beyond, reading the next symbol counts a negative dot from the end, and an item
is complete by a comparison.  They agree where the dot is inside the body.  Settling the dot of an
item there changes none of the three, unless the dot counts back over more than the body.
-/

set_option autoImplicit false

namespace Earley.Item

variable {item : Item}

/-! ## Dots inside the body -/

section

variable (inside : item.DotInside)

include inside

theorem DotInside.eq_place : item.dot = (item.dot.toNat : Int) :=
  (Int.toNat_of_nonneg inside.1).symm

theorem isComplete_iff_place :
    item.isComplete = true ↔ item.dot.toNat = (item.body.map Symbol.name).length := by
  obtain ⟨low, high⟩ := inside
  rw [isComplete_iff, List.length_map]
  omega

/-- Cut at its blanks, the written body gives the parts that it was made of. -/
theorem split_parts (free : ∀ s ∈ item.body, ' ' ∉ s.name.toList) :
    Text.split " " (" ".intercalate item.parts) = item.parts := by
  have blank : " ".toList = [' '] := by decide
  apply Text.split_intercalate blank (parts_ne_nil inside)
  intro part member
  rcases mem_parts member with rfl | ⟨s, inBody, rfl⟩
  · simp [dotMark_toList]
  · exact free s inBody

variable (unmarked : dotMark ∉ item.body.map Symbol.name)

include unmarked

theorem count_parts : item.parts.count dotMark = 1 := by
  have same := List.perm_insertIdx dotMark (item.body.map Symbol.name) inside.place_le
  rw [parts, same.count_eq, List.count_cons_self, List.count_eq_zero_of_not_mem unmarked]

theorem erase_parts : item.parts.erase dotMark = item.body.map Symbol.name := by
  rw [List.erase_eq_eraseIdx_of_idxOf (idxOf_parts inside unmarked), parts,
    List.eraseIdx_insertIdx_self]

theorem next_eq_of_parts : item.next = .ok item.body[item.parts.idxOf dotMark]? := by
  rw [idxOf_parts inside unmarked]
  exact next_of_natCast inside.eq_place

theorem getLast?_parts : item.parts.getLast? = some dotMark ↔ item.isComplete = true := by
  rw [isComplete_iff_place inside, parts, List.getLast?_eq_getElem?,
    List.length_insertIdx_of_le_length inside.place_le, Nat.add_sub_cancel]
  constructor
  · intro last
    by_contra short
    have before : item.dot.toNat < (item.body.map Symbol.name).length :=
      Nat.lt_of_le_of_ne inside.place_le short
    rw [List.getElem?_insertIdx_of_gt before] at last
    exact unmarked (List.mem_of_getElem? last)
  · intro reached
    rw [← reached, List.getElem?_insertIdx_self, if_pos inside.place_le]

theorem next_behind_mark (short : item.isComplete = false) :
    ∃ s, item.next = .ok (some s) ∧
      item.parts[item.parts.idxOf dotMark + 1]? = some s.name := by
  have before : item.dot.toNat < item.body.length := by
    have reached := mt (isComplete_iff_place inside).mpr (Bool.eq_false_iff.mp short)
    have place := Nat.lt_of_le_of_ne inside.place_le reached
    rwa [List.length_map] at place
  have found := List.getElem?_eq_getElem before
  refine ⟨item.body[item.dot.toNat], ?_, ?_⟩
  · rw [next_of_natCast inside.eq_place, found]
  · rw [idxOf_parts inside unmarked, parts, List.getElem?_insertIdx_of_gt (Nat.lt_add_one _),
      Nat.add_sub_cancel, List.getElem?_map, found, Option.map_some]

end

/-! ## Settled items -/

/-- The item with its dot counted from the front, at the nearer end of the body if it lies
beyond. -/
def settled (item : Item) : Item :=
  { item with dot := insertionPlace item.body.length item.dot }

@[simp] theorem body_settled (item : Item) : item.settled.body = item.body := rfl

theorem dot_settled (item : Item) :
    item.settled.dot = min (fromFront item.body.length item.dot).toNat item.body.length := by
  simp [settled, insertionPlace]

theorem dotInside_settled (item : Item) : item.settled.DotInside := by
  constructor
  · rw [dot_settled]
    omega
  · rw [dot_settled, body_settled]
    omega

theorem dotted_settled (fits : fitsWord item.dot = true) :
    item.dotted = .ok (" ".intercalate item.settled.parts) := by
  have place : insertionPlace (item.body.map Symbol.name).length item.dot =
      insertionPlace item.body.length item.dot := by rw [List.length_map]
  rw [dotted, if_pos (by simp [fits])]
  simp only [place]
  rfl

theorem isComplete_settled (item : Item) : item.settled.isComplete = item.isComplete := by
  have filled : 0 < item.body.length := List.length_pos_iff.mpr item.production.body_ne_nil
  -- Counted from the end of a body that is not empty, the dot is never at this end.
  rw [Bool.eq_iff_iff, isComplete_iff, isComplete_iff, dot_settled, body_settled, fromFront]
  split <;> omega

theorem next_settled (low : -(item.body.length : Int) ≤ item.dot) :
    item.settled.next = item.next := by
  by_cases complete : item.isComplete = true
  · have stays := (isComplete_settled item).trans complete
    rw [next_of_isComplete complete, next_of_isComplete stays]
  · have high : item.dot < item.body.length := by
      have reached := mt isComplete_iff.mpr complete
      omega
    -- Between the ends of the body, settling only counts the dot from the front.
    have front : item.settled.dot = (fromFront item.body.length item.dot).toNat := by
      rw [dot_settled, fromFront]
      split <;> omega
    rw [next_of_natCast front, next, if_neg complete, position_of_bounds .noSymbol low high]
    rfl

/-! ## Any dot -/

/-- If the names in the body, which may be empty, have no blank in them and none is the dot mark
itself, an item can be written with any dot of a word's size that counts back over no more than the
body.  Cut at its blanks, the text has the dot mark once among the names.  The mark is last exactly
if the item is complete; otherwise it stands right before the name of the next symbol. -/
theorem dotted_shows_next (plain : ∀ s ∈ item.body, ' ' ∉ s.name.toList ∧ s.name ≠ dotMark)
    (fits : fitsWord item.dot = true) (low : -(item.body.length : Int) ≤ item.dot) :
    ∃ text parts, item.dotted = .ok text ∧ Text.split " " text = parts ∧
      parts.count dotMark = 1 ∧ parts.erase dotMark = item.body.map Symbol.name ∧
      item.next = .ok item.body[parts.idxOf dotMark]? ∧
      (parts.getLast? = some dotMark ↔ item.isComplete = true) ∧
      (item.isComplete = false →
        ∃ s, item.next = .ok (some s) ∧ parts[parts.idxOf dotMark + 1]? = some s.name) := by
  have inside := dotInside_settled item
  have free : ∀ s ∈ item.settled.body, ' ' ∉ s.name.toList := fun s inBody => (plain s inBody).1
  have unmarked : dotMark ∉ item.settled.body.map Symbol.name := by
    intro member
    obtain ⟨s, inBody, mark⟩ := List.mem_map.mp member
    exact (plain s inBody).2 mark
  refine ⟨_, item.settled.parts, dotted_settled fits, split_parts inside free,
    count_parts inside unmarked, erase_parts inside unmarked, ?_, ?_, ?_⟩
  · rw [← next_settled low]
    exact next_eq_of_parts inside unmarked
  · rw [← isComplete_settled]
    exact getLast?_parts inside unmarked
  · rw [← isComplete_settled, ← next_settled low]
    exact next_behind_mark inside unmarked

def beforeLastTwo : Item := ⟨0, -2, .nesting⟩

theorem dotted_shows_next_before_last_two :
    (∀ s ∈ beforeLastTwo.body, ' ' ∉ s.name.toList ∧ s.name ≠ dotMark) ∧
    fitsWord beforeLastTwo.dot = true ∧
    -(beforeLastTwo.body.length : Int) ≤ beforeLastTwo.dot ∧
    beforeLastTwo.isComplete = false ∧
    ∃ parts, beforeLastTwo.dotted = .ok "a S • b S" ∧ Text.split " " "a S • b S" = parts ∧
      parts.count dotMark = 1 ∧ parts.erase dotMark = ["a", "S", "b", "S"] ∧
      parts.getLast? ≠ some dotMark ∧
      ∃ s, beforeLastTwo.next = .ok (some s) ∧
        parts[parts.idxOf dotMark + 1]? = some s.name := by
  have plain : ∀ s ∈ beforeLastTwo.body, ' ' ∉ s.name.toList ∧ s.name ≠ dotMark := by decide
  have fits : fitsWord beforeLastTwo.dot = true := by decide
  have low : -(beforeLastTwo.body.length : Int) ≤ beforeLastTwo.dot := by decide
  have short : beforeLastTwo.isComplete = false := by decide
  have written : beforeLastTwo.dotted = .ok "a S • b S" := by decide
  obtain ⟨text, parts, shown, cut, once, names, _, last, behind⟩ :=
    dotted_shows_next plain fits low
  have same : text = "a S • b S" := Except.ok.inj (shown.symm.trans written)
  subst same
  exact ⟨plain, fits, low, short, parts, written, cut, once, names,
    mt last.mp (Bool.eq_false_iff.mp short), behind short⟩

end Earley.Item
