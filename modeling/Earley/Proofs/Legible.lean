import Earley.Proofs.Chart.Display
import Earley.Proofs.Grammar.Format
import Mathlib.Data.List.InsertIdx

/-!
# Legible items

The names in a legible item are single letters or the mark of the empty alternative, or the name of
the reserved nonterminal as its head.  None of them has a blank, a comma, a dash or the dot mark in
it.  So the line of an item can be taken apart again, and it tells the item.
-/

set_option autoImplicit false

namespace Earley

/-! ## Names -/

/-- The name of a legible symbol tells its kind. -/
theorem Symbol.Legible.eq_of_name {s t : Symbol} (first : s.Legible) (second : t.Legible)
    (same : s.name = t.name) : s = t := by
  obtain ⟨c, read⟩ := first
  obtain ⟨d, other⟩ := second
  rw [name_of_ofChar read, name_of_ofChar other, String.singleton_inj] at same
  subst same
  exact Except.ok.inj (read.symm.trans other)

/-- A character that is in no name: neither a letter nor the mark of the empty alternative, nor in
the reserved name. -/
def Separates (c : Char) : Prop :=
  (c ≠ emptyMark ∧ c.isAlpha = false) ∧ c ∉ augmentedHead.toList

instance : DecidablePred Separates := fun _ => inferInstanceAs (Decidable (_ ∧ _))

theorem Separates.not_mem_name {c : Char} (separates : Separates c) {s : Symbol}
    (legible : s.Legible) : c ∉ s.name.toList := by
  obtain ⟨d, read⟩ := legible
  rw [Symbol.name_of_ofChar read, String.toList_singleton, List.mem_singleton]
  rintro rfl
  obtain ⟨⟨ne_mark, not_letter⟩, _⟩ := separates
  rcases Symbol.readable_of_ofChar read with mark | letter
  · exact ne_mark mark
  · rw [not_letter] at letter
    cases letter

theorem dotMark_toList : dotMark.toList = ['•'] := by decide

theorem not_mem_toDigits {c : Char} (other : c.isDigit = false) (n : Nat) :
    c ∉ Nat.toDigits 10 n := by
  intro member
  rw [Nat.isDigit_of_mem_toDigits (by decide) (by decide) member] at other
  cases other

/-! ## Lists -/

/-- A list is told by its image if its entries are told by theirs. -/
theorem eq_of_map_eq {α β : Type} {f : α → β} {good : α → Prop}
    (tells : ∀ x, good x → ∀ y, good y → f x = f y → x = y) {xs ys : List α}
    (first : ∀ x ∈ xs, good x) (second : ∀ y ∈ ys, good y) (same : xs.map f = ys.map f) :
    xs = ys := by
  induction xs generalizing ys with
  | nil => exact (List.map_eq_nil_iff.mp same.symm).symm
  | cons x xs ih =>
    cases ys with
    | nil => exact absurd same (List.cons_ne_nil _ _)
    | cons y ys =>
      rw [List.forall_mem_cons] at first second
      rw [List.map_cons, List.map_cons, List.cons.injEq] at same
      rw [tells x first.1 y second.1 same.1, ih first.2 second.2 same.2]

theorem idxOf_insertIdx {x : String} {names : List String} (absent : x ∉ names) {place : Nat}
    (inside : place ≤ names.length) : (names.insertIdx place x).idxOf x = place := by
  induction names generalizing place with
  | nil =>
    rw [Nat.le_zero.mp inside]
    simp
  | cons name rest ih =>
    rw [List.mem_cons, not_or] at absent
    cases place with
    | zero => simp
    | succ place =>
      have other : name ≠ x := Ne.symm absent.1
      rw [List.insertIdx_succ_cons, List.idxOf_cons, beq_false_of_ne other, cond_false,
        ih absent.2 (Nat.le_of_succ_le_succ inside)]

/-! ## Items -/

namespace Item

structure Legible (item : Item) : Prop where
  lhs : item.lhs = .reserved ∨ item.lhs.Legible
  body : ∀ s ∈ item.body, s.Legible
  dotInside : item.DotInside
  origin_nonneg : 0 ≤ item.origin

variable {item other : Item} {c : Char}

theorem ext_fields (head : item.production.head = other.production.head)
    (body : item.body = other.body) (dot : item.dot = other.dot)
    (origin : item.origin = other.origin) : item = other := by
  obtain ⟨_, _, ⟨_, _, _, _⟩⟩ := item
  obtain ⟨_, _, ⟨_, _, _, _⟩⟩ := other
  cases head
  cases body
  cases dot
  cases origin
  rfl

theorem mem_parts {part : String} (member : part ∈ item.parts) :
    part = dotMark ∨ ∃ s ∈ item.body, part = s.name := by
  rcases List.eq_or_mem_of_mem_insertIdx member with mark | listed
  · exact .inl mark
  · obtain ⟨s, inBody, rfl⟩ := List.mem_map.mp listed
    exact .inr ⟨s, inBody, rfl⟩

theorem DotInside.place_le (inside : item.DotInside) :
    item.dot.toNat ≤ (item.body.map Symbol.name).length := by
  have high := inside.2
  rw [List.length_map]
  omega

theorem parts_ne_nil (inside : item.DotInside) : item.parts ≠ [] := by
  have member : dotMark ∈ item.parts := by
    rw [parts, List.mem_insertIdx inside.place_le]
    exact .inl rfl
  exact List.ne_nil_of_mem member

theorem idxOf_parts (inside : item.DotInside) (unmarked : dotMark ∉ item.body.map Symbol.name) :
    item.parts.idxOf dotMark = item.dot.toNat :=
  idxOf_insertIdx unmarked inside.place_le

namespace Legible

section

variable (legible : item.Legible)

include legible

theorem not_mem_head (separates : Separates c) : c ∉ item.production.head.toList := by
  rcases legible.lhs with reserved | written
  · rw [Symbol.nonterminal.inj reserved]
    exact separates.2
  · exact separates.not_mem_name written

theorem not_mem_parts (separates : Separates c) (other : c ≠ '•') :
    ∀ part ∈ item.parts, c ∉ part.toList := by
  intro part member
  rcases mem_parts member with rfl | ⟨s, inBody, rfl⟩
  · rw [dotMark_toList, List.mem_singleton]
    exact other
  · exact separates.not_mem_name (legible.body s inBody)

theorem toList_line : item.line.toList = item.production.head.toList ++
    ' ' :: '→' :: ' ' :: ([' '].intercalate (item.parts.map String.toList) ++
      ',' :: ' ' :: Nat.toDigits 10 item.origin.toNat) := by
  obtain ⟨origin, same⟩ := Int.eq_ofNat_of_zero_le legible.origin_nonneg
  have digits : (toString item.origin).toList = Nat.toDigits 10 item.origin.toNat := by
    rw [same]
    exact Nat.toList_repr
  simp only [line, String.toList_append, String.toList_intercalate, digits]
  simp

theorem dotMark_not_mem_names : dotMark ∉ item.body.map Symbol.name := by
  intro member
  obtain ⟨s, inBody, mark⟩ := List.mem_map.mp member
  have separates : Separates '•' := by decide
  apply separates.not_mem_name (legible.body s inBody)
  rw [mark, dotMark_toList]
  exact List.mem_singleton_self _

theorem not_mem_joined (separates : Separates c) (ne_dot : c ≠ '•') (ne_space : c ≠ ' ') :
    c ∉ [' '].intercalate (item.parts.map String.toList) := by
  apply Text.not_mem_intercalate ne_space
  simpa using legible.not_mem_parts separates ne_dot

theorem feed_not_mem_line : '\n' ∉ item.line.toList := by
  have separates : Separates '\n' := by decide
  have head := legible.not_mem_head separates
  have joined := legible.not_mem_joined separates (by decide) (by decide)
  rw [legible.toList_line]
  simp [head, joined, not_mem_toDigits]

theorem head?_line_ne_dash : item.line.toList.head? ≠ some '-' := by
  have separates : Separates '-' := by decide
  have absent := legible.not_mem_head separates
  rw [legible.toList_line]
  cases letters : item.production.head.toList with
  | nil => simp
  | cons c rest =>
    rw [letters, List.mem_cons, not_or] at absent
    simpa using Ne.symm absent.1

end

variable (legible : item.Legible) (fine : other.Legible)

include legible fine

/-- The dot is where the dot mark is, and the other parts name the symbols of the body. -/
theorem eq_of_parts (same : item.parts = other.parts) :
    item.dot = other.dot ∧ item.body = other.body := by
  obtain ⟨low, high⟩ := legible.dotInside
  obtain ⟨least, most⟩ := fine.dotInside
  have place : item.dot.toNat = other.dot.toNat := by
    have found := congrArg (List.idxOf dotMark) same
    rwa [idxOf_parts legible.dotInside legible.dotMark_not_mem_names,
      idxOf_parts fine.dotInside fine.dotMark_not_mem_names] at found
  refine ⟨by omega, ?_⟩
  rw [parts, parts, place] at same
  exact eq_of_map_eq (fun _ first _ second => first.eq_of_name second) legible.body
    fine.body (List.insertIdx_injective _ _ same)

theorem eq_of_dotted
    (same : " ".intercalate item.parts = " ".intercalate other.parts) :
    item.dot = other.dot ∧ item.body = other.body := by
  have separates : Separates ' ' := by decide
  exact legible.eq_of_parts fine (Text.eq_of_intercalate_eq rfl (parts_ne_nil legible.dotInside)
    (parts_ne_nil fine.dotInside) (legible.not_mem_parts separates (by decide))
    (fine.not_mem_parts separates (by decide)) same)

/-- The line of a legible item tells the item. -/
theorem eq_of_line (same : item.line = other.line) : item = other := by
  have space : Separates ' ' := by decide
  have comma : Separates ',' := by decide
  have texts := congrArg String.toList same
  rw [legible.toList_line, fine.toList_line] at texts
  -- The first blank ends the head, and the first comma behind the arrow ends the body.
  obtain ⟨heads, texts⟩ := Text.append_cons_inj (legible.not_mem_head space)
    (fine.not_mem_head space) texts
  have behind_arrow := (List.cons.inj (List.cons.inj texts).2).2
  obtain ⟨bodies, ends⟩ := Text.append_cons_inj
    (legible.not_mem_joined comma (by decide) (by decide))
    (fine.not_mem_joined comma (by decide) (by decide)) behind_arrow
  have head : item.production.head = other.production.head := String.toList_inj.mp heads
  have joined : " ".intercalate item.parts = " ".intercalate other.parts := by
    rw [← String.toList_inj, String.toList_intercalate, String.toList_intercalate]
    exact bodies
  obtain ⟨dot, body⟩ := legible.eq_of_dotted fine joined
  have origin : item.origin = other.origin := by
    have low := legible.origin_nonneg
    have least := fine.origin_nonneg
    have numbers := congrArg (Nat.ofDigitChars 10 · 0) (List.cons.inj ends).2
    simp only [Nat.ofDigitChars_ten_toDigits] at numbers
    omega
  exact ext_fields head body dot origin

end Legible

end Item

end Earley
