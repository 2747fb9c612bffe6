/-!
# Steps that can fail

A list is worked through item by item, and the first failure ends the work.  If it succeeds, so
did every step; what every step keeps is kept by the whole.  In the other direction, `Succeeds`
says of a step that it gives a result and how good this is, and it goes from steps to a whole.
-/

set_option autoImplicit false

namespace Earley

variable {α β γ ε : Type}

theorem bind_eq_ok_iff {first : Except ε α} {rest : α → Except ε β} {result : β} :
    first >>= rest = .ok result ↔ ∃ middle, first = .ok middle ∧ rest middle = .ok result := by
  cases first <;> simp [bind, Except.bind]

theorem foldlM_keeps {step : β → α → Except ε β} {motive : β → Prop}
    (keeps : ∀ before x after, motive before → step before x = .ok after → motive after)
    {xs : List α} {before after : β} (start : motive before)
    (folded : xs.foldlM step before = .ok after) : motive after := by
  induction xs generalizing before with
  | nil =>
    cases folded
    exact start
  | cons x xs ih =>
    rw [List.foldlM_cons, bind_eq_ok_iff] at folded
    obtain ⟨middle, first, rest⟩ := folded
    exact ih (keeps before x middle start first) rest

theorem foldlM_step {step : β → α → Except ε β} {xs : List α} {before after : β}
    (folded : xs.foldlM step before = .ok after) :
    ∀ x ∈ xs, ∃ earlier later, step earlier x = .ok later := by
  induction xs generalizing before with
  | nil => exact nofun
  | cons x xs ih =>
    rw [List.foldlM_cons, bind_eq_ok_iff] at folded
    obtain ⟨middle, first, rest⟩ := folded
    intro y member
    rcases List.mem_cons.mp member with rfl | member
    · exact ⟨before, middle, first⟩
    · exact ih rest y member

theorem mapM_eq_ok_iff {f : α → Except ε β} {xs : List α} {ys : List β} :
    xs.mapM f = .ok ys ↔ xs.map f = ys.map .ok := by
  induction xs generalizing ys with
  | nil => simp [pure, Except.pure, eq_comm]
  | cons x xs ih =>
    rw [List.mapM_cons]
    cases ys <;> simp [bind_eq_ok_iff, pure, Except.pure, ← ih]

theorem mapM_eq_ok {f : α → Except ε β} {g : α → β} {xs : List α}
    (each : ∀ x ∈ xs, f x = .ok (g x)) : xs.mapM f = .ok (xs.map g) := by
  rw [mapM_eq_ok_iff, List.map_map]
  exact List.map_congr_left each

/-! ## Success -/

/-- A step succeeds, with a good result. -/
def Succeeds (step : Except ε α) (good : α → Prop) : Prop :=
  ∃ result, step = .ok result ∧ good result

namespace Succeeds

variable {first : Except ε α} {good : α → Prop} {fine : β → Prop}

theorem ok {result : α} (holds : good result) : Succeeds (.ok result : Except ε α) good :=
  ⟨result, rfl, holds⟩

instance [DecidablePred good] : Decidable (Succeeds first good) :=
  match first with
  | .error _ => isFalse fun ⟨_, same, _⟩ => nomatch same
  | .ok result => decidable_of_iff (good result)
      ⟨ok, fun ⟨_, same, holds⟩ => Except.ok.inj same ▸ holds⟩

theorem mono {better : α → Prop} (succeeds : Succeeds first good)
    (implies : ∀ result, good result → better result) : Succeeds first better := by
  obtain ⟨result, same, holds⟩ := succeeds
  exact ⟨result, same, implies result holds⟩

theorem bind {rest : α → Except ε β} (succeeds : Succeeds first good)
    (later : ∀ result, good result → Succeeds (rest result) fine) :
    Succeeds (first >>= rest) fine := by
  obtain ⟨middle, rfl, holds⟩ := succeeds
  exact later middle holds

theorem map {f : α → β} (succeeds : Succeeds first good)
    (keeps : ∀ result, good result → fine (f result)) : Succeeds (first.map f) fine := by
  obtain ⟨middle, rfl, holds⟩ := succeeds
  exact ⟨f middle, rfl, keeps middle holds⟩

/-- If every step over a list succeeds, so does the whole; each result is good for an entry of the
list, and each entry has a good result. -/
theorem mapM {f : α → Except ε β} {good : α → β → Prop} {xs : List α}
    (each : ∀ x ∈ xs, Succeeds (f x) (good x)) :
    Succeeds (xs.mapM f) fun ys =>
      (∀ y ∈ ys, ∃ x ∈ xs, good x y) ∧ ∀ x ∈ xs, ∃ y ∈ ys, good x y := by
  induction xs with
  | nil => exact ⟨[], rfl, nofun, nofun⟩
  | cons x xs ih =>
    rw [List.mapM_cons]
    refine (each x List.mem_cons_self).bind fun y fine => ?_
    refine (ih fun x member => each x (List.mem_cons_of_mem _ member)).bind fun ys others => ok ?_
    simp only [List.mem_cons, forall_eq_or_imp, exists_eq_or_imp]
    refine ⟨⟨.inl fine, fun y member => .inr (others.1 y member)⟩, .inl fine, fun x member => ?_⟩
    exact .inr (others.2 x member)

/-- If every step over a list gives values that can be told, so can the values of the whole. -/
theorem mapM_mem {f : α → Except ε β} (view : β → List γ) {holds : α → γ → Prop} {xs : List α}
    (each : ∀ x ∈ xs, Succeeds (f x) fun y => ∀ z, z ∈ view y ↔ holds x z) :
    Succeeds (xs.mapM f) fun ys => ∀ z, z ∈ ys.flatMap view ↔ ∃ x ∈ xs, holds x z := by
  refine (mapM each).mono fun ys ⟨from_list, listed⟩ z => ?_
  rw [List.mem_flatMap]
  constructor
  · rintro ⟨y, member, inside⟩
    obtain ⟨x, there, same⟩ := from_list y member
    exact ⟨x, there, (same z).mp inside⟩
  · rintro ⟨x, member, holds⟩
    obtain ⟨y, there, same⟩ := listed x member
    exact ⟨y, there, (same z).mpr holds⟩

/-- The results over a list, seen through a function, are in the order of the list. -/
theorem mapM_map {f : α → Except ε β} {view : β → γ} {expected : α → γ} {xs : List α}
    (each : ∀ x ∈ xs, Succeeds (f x) fun y => view y = expected x) :
    Succeeds (xs.mapM f) fun ys => ys.map view = xs.map expected := by
  induction xs with
  | nil => exact ⟨[], rfl, rfl⟩
  | cons x xs ih =>
    rw [List.mapM_cons]
    refine (each x List.mem_cons_self).bind fun y first => ?_
    refine (ih fun x member => each x (List.mem_cons_of_mem _ member)).bind fun ys rest => ok ?_
    rw [List.map_cons, List.map_cons, first, rest]

end Succeeds

end Earley
