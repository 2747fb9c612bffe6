/-!
# Slices of a word

A slice has the characters from one place in a word up to another.  Slices that meet are one slice
together.
-/

set_option autoImplicit false

namespace Earley

/-- The characters of a word from place `k` up to place `i`. -/
def slice (word : List Char) (k i : Nat) : List Char := (word.take i).drop k

variable {word : List Char} {k m i : Nat}

theorem slice_self (word : List Char) (k : Nat) : slice word k k = [] := by
  unfold slice
  rw [List.drop_eq_nil_iff, List.length_take]
  omega

theorem slice_length (word : List Char) : slice word 0 word.length = word := by
  unfold slice
  rw [List.take_length, List.drop_zero]

theorem slice_left (first second : List Char) : slice (first ++ second) 0 first.length = first := by
  unfold slice
  rw [List.take_left, List.drop_zero]

theorem slice_right (first second : List Char) :
    slice (first ++ second) first.length (first ++ second).length = second := by
  unfold slice
  rw [List.take_length, List.drop_left]

theorem length_slice (inside : i ≤ word.length) : (slice word k i).length = i - k := by
  unfold slice
  rw [List.length_drop, List.length_take]
  omega

theorem slice_append (first : k ≤ m) (second : m ≤ i) (inside : i ≤ word.length) :
    slice word k m ++ slice word m i = slice word k i := by
  have front : word.take m = (word.take i).take m := by
    rw [List.take_take, Nat.min_eq_left second]
  have long : k ≤ ((word.take i).take m).length := by
    rw [List.length_take, List.length_take]
    omega
  unfold slice
  rw [front, ← List.drop_append_of_le_length long, List.take_append_drop]

theorem slice_succ (first : k ≤ i) {c : Char} (read : word[i]? = some c) :
    slice word k (i + 1) = slice word k i ++ [c] := by
  have inside := (List.getElem?_eq_some_iff.mp read).1
  unfold slice
  rw [List.take_add_one, read, Option.toList_some, List.drop_append_of_le_length]
  rw [List.length_take]
  omega

theorem slice_prefix_drop (word : List Char) (k i : Nat) : slice word k i <+: word.drop k := by
  unfold slice
  rw [List.drop_take]
  exact List.take_prefix _ _

/-- The first of the characters from a place on, and those from the next place on. -/
theorem of_drop_eq_cons {c : Char} {rest : List Char} (behind : word.drop i = c :: rest) :
    word[i]? = some c ∧ word.drop (i + 1) = rest := by
  constructor
  · rw [← List.head?_drop, behind, List.head?_cons]
  · rw [← List.drop_drop, behind, List.drop_one, List.tail_cons]

theorem prefix_drop_of_append {first second : List Char}
    (next : first ++ second <+: word.drop i) :
    first <+: word.drop i ∧ second <+: word.drop (i + first.length) := by
  obtain ⟨rest, same⟩ := next
  refine ⟨⟨second ++ rest, by rw [← List.append_assoc, same]⟩, ⟨rest, ?_⟩⟩
  rw [← List.drop_drop, ← same, List.append_assoc, List.drop_left]

end Earley
