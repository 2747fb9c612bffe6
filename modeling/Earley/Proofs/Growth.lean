import Earley.AppendNew

/-!
# Lists that only grow

A fold whose every step puts values behind those at hand keeps them as a prefix, and if it changes
nothing, no step does.  Growing a list of bounded length again and again until its length stays
ends at a list that does not grow any more, since every round before the last one adds a value.
-/

set_option autoImplicit false

namespace Earley

variable {α β : Type}

/-! ## Folds -/

theorem prefix_foldl {step : List α → β → List α} (keeping : ∀ values x, values <+: step values x)
    (xs : List β) (values : List α) : values <+: xs.foldl step values := by
  induction xs generalizing values with
  | nil => exact List.prefix_rfl
  | cons x xs ih => exact (keeping values x).trans (ih (step values x))

theorem step_eq_of_foldl_eq {step : List α → β → List α}
    (keeping : ∀ values x, values <+: step values x) {xs : List β} {values : List α}
    (same : xs.foldl step values = values) {x : β} (member : x ∈ xs) : step values x = values := by
  induction xs with
  | nil => exact absurd member List.not_mem_nil
  | cons y xs ih =>
    have later : step values y <+: values := by
      have folded := prefix_foldl keeping xs (step values y)
      rwa [← List.foldl_cons, same] at folded
    have first : step values y = values :=
      later.eq_of_length_le (keeping values y).length_le
    rcases List.mem_cons.mp member with rfl | member
    · exact first
    · rw [List.foldl_cons, first] at same
      exact ih same member

/-! ## New values behind the others -/

section

variable [DecidableEq α]

theorem prefix_appendNew (values : List α) (x : α) : values <+: appendNew values x := by
  unfold appendNew
  split
  · exact List.prefix_rfl
  · exact List.prefix_append values [x]

theorem prefix_foldl_appendNew (values xs : List α) : values <+: xs.foldl appendNew values :=
  prefix_foldl prefix_appendNew xs values

theorem mem_foldl_appendNew {values xs : List α} {y : α} :
    y ∈ xs.foldl appendNew values ↔ y ∈ values ∨ y ∈ xs := by
  induction xs generalizing values with
  | nil => simp
  | cons x xs ih =>
    rw [List.foldl_cons, ih, mem_appendNew, List.mem_cons, or_assoc]

theorem foldl_appendNew_eq (values xs : List α) :
    xs.foldl appendNew values = values ++ (xs.filter (· ∉ values)).eraseDups := by
  induction xs generalizing values with
  | nil => simp
  | cons x xs ih =>
    rw [List.foldl_cons, ih]
    by_cases present : x ∈ values
    · simp [appendNew, present]
    · have fewer : xs.filter (· ∉ values ++ [x]) =
          (xs.filter (· ∉ values)).filter fun y => !y == x := by
        rw [List.filter_filter]
        apply List.filter_congr
        intro y _
        by_cases same : y = x <;> simp [same]
      rw [appendNew, if_neg present, fewer, List.filter_cons_of_pos (by simpa using present),
        List.eraseDups_cons, List.append_assoc, List.singleton_append]

/-- Values put behind one another unless they are there already: the repetitions are dropped. -/
theorem foldl_appendNew_nil (xs : List α) : xs.foldl appendNew [] = xs.eraseDups := by
  rw [foldl_appendNew_eq, List.nil_append, List.filter_eq_self.mpr (by simp)]

theorem eraseDups_of_nodup {xs : List α} (nodup : xs.Nodup) : xs.eraseDups = xs := by
  induction xs with
  | nil => rfl
  | cons x xs ih =>
    obtain ⟨absent, rest⟩ := List.nodup_cons.mp nodup
    have kept : (xs.filter fun y => !y == x) = xs := by
      rw [List.filter_eq_self]
      intro y member
      simpa using fun same : y = x => absent (same ▸ member)
    rw [List.eraseDups_cons, kept, ih rest]

theorem nodup_foldl_appendNew {values : List α} (nodup : values.Nodup) (xs : List α) :
    (xs.foldl appendNew values).Nodup := by
  induction xs generalizing values with
  | nil => exact nodup
  | cons x xs ih => exact ih (nodup_appendNew nodup x)

end

/-! ## Rounds -/

/-- Grows a list until its length stays, at most as often as there is fuel. -/
def growUntilStable (grow : List α → List α) : Nat → List α → List α
  | 0, values => values
  | fuel + 1, values =>
    if (grow values).length = values.length then values
    else growUntilStable grow fuel (grow values)

theorem growUntilStable_keeps {grow : List α → List α} {motive : List α → Prop}
    (keeps : ∀ values, motive values → motive (grow values)) (fuel : Nat) {values : List α}
    (start : motive values) : motive (growUntilStable grow fuel values) := by
  induction fuel generalizing values with
  | zero => exact start
  | succ fuel ih =>
    unfold growUntilStable
    split
    · exact start
    · exact ih (keeps values start)

theorem prefix_growUntilStable {grow : List α → List α} (keeping : ∀ values, values <+: grow values)
    (fuel : Nat) (values : List α) : values <+: growUntilStable grow fuel values :=
  growUntilStable_keeps (fun grown before => before.trans (keeping grown)) fuel List.prefix_rfl

/-- If what growing keeps bounds the length, then with fuel up to the bound the last list does not
grow any more. -/
theorem grow_growUntilStable {grow : List α → List α} (keeping : ∀ values, values <+: grow values)
    {motive : List α → Prop} (keeps : ∀ values, motive values → motive (grow values))
    {bound : Nat} (bounded : ∀ values, motive values → values.length ≤ bound)
    {fuel : Nat} {values : List α} (start : motive values)
    (enough : bound ≤ fuel + values.length) :
    grow (growUntilStable grow fuel values) = growUntilStable grow fuel values := by
  induction fuel generalizing values with
  | zero =>
    have limited := bounded (grow values) (keeps values start)
    exact ((keeping values).eq_of_length_le (by omega)).symm
  | succ fuel ih =>
    unfold growUntilStable
    split
    · rename_i stays
      exact ((keeping values).eq_of_length stays.symm).symm
    · rename_i grows
      have longer := (keeping values).length_le
      exact ih (keeps values start) (by omega)

end Earley
