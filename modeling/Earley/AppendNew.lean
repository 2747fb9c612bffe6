/-!
# Growing a list without repetition

Productions, items and symbols are kept in lists in the order of their first arrival.
`appendNew` puts a value behind the others unless the list has it already.
-/

set_option autoImplicit false

namespace Earley

variable {α : Type}

def appendNew [DecidableEq α] (values : List α) (x : α) : List α :=
  if x ∈ values then values else values ++ [x]

theorem nodup_append_singleton {values : List α} {x : α} (nodup : values.Nodup)
    (new : x ∉ values) : (values ++ [x]).Nodup := by
  refine List.pairwise_append.mpr ⟨nodup, List.pairwise_singleton _ _, ?_⟩
  intro a member b last same
  rw [List.mem_singleton.mp last] at same
  exact new (same ▸ member)

theorem mem_appendNew [DecidableEq α] {values : List α} {x y : α} :
    y ∈ appendNew values x ↔ y ∈ values ∨ y = x := by
  unfold appendNew
  split
  · rename_i present
    constructor
    · exact Or.inl
    · rintro (member | rfl)
      · exact member
      · exact present
  · rw [List.mem_append, List.mem_singleton]

theorem nodup_appendNew [DecidableEq α] {values : List α} (nodup : values.Nodup) (x : α) :
    (appendNew values x).Nodup := by
  unfold appendNew
  split
  · exact nodup
  · rename_i absent
    exact nodup_append_singleton nodup absent

end Earley
