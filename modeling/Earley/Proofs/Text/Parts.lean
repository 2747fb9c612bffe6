import Earley.Proofs.Text.Lines
import Earley.Proofs.Text.Split
import Earley.Text.Blank
import Mathlib.Data.List.DropRight

/-!
# The solid parts of a text

A text is cut at its breaks, each piece is stripped, and the pieces that become empty are dropped.
What is left are the solid parts.  They are the same for every way of cutting that differs only in
empty pieces, and where every break is a blank, more breaks only cut solid parts further.  A line has
at most one solid part exactly when no break stands inside the stripped line.
-/

set_option autoImplicit false

namespace Earley.Text

variable {text left right : List Char} {b c : Char}

/-! ## Stripping -/

theorem stripChars_eq (text : List Char) :
    stripChars text = (text.dropWhile isBlank).rdropWhile isBlank := rfl

theorem toList_strip (text : String) : (strip text).toList = stripChars text.toList :=
  String.toList_ofList

theorem strip_eq_empty_iff {text : String} : strip text = "" ↔ stripChars text.toList = [] := by
  rw [strip, ← String.ofList_nil, String.ofList_inj]

theorem map_toList_ofList (pieces : List (List Char)) :
    (pieces.map String.ofList).map String.toList = pieces := by
  simp

theorem stripChars_cons (blank : isBlank b = true) : stripChars (b :: text) = stripChars text := by
  rw [stripChars_eq, List.dropWhile_cons_of_pos blank, stripChars_eq]

theorem stripChars_concat (blank : isBlank b = true) :
    stripChars (text ++ [b]) = stripChars text := by
  rw [stripChars_eq, stripChars_eq, List.dropWhile_append]
  split
  · rename_i all
    rw [List.isEmpty_iff.mp all, List.dropWhile_cons_of_pos blank, List.dropWhile_nil]
  · exact List.rdropWhile_concat_pos isBlank _ b blank

/-- A text is what stripping leaves with blanks around it. -/
theorem exists_blanks (text : List Char) : ∃ left right,
    (∀ c ∈ left, isBlank c = true) ∧ (∀ c ∈ right, isBlank c = true) ∧
      text = left ++ (stripChars text ++ right) := by
  refine ⟨text.takeWhile isBlank, (text.dropWhile isBlank).rtakeWhile isBlank, ?_, ?_, ?_⟩
  · exact fun c member => List.mem_takeWhile_imp member
  · exact fun c member => List.mem_rtakeWhile_imp member
  · rw [stripChars_eq, List.rdropWhile_append_rtakeWhile, List.takeWhile_append_dropWhile]

theorem not_isBlank_of_stripChars {rest : List Char} (stripped : stripChars text = c :: rest) :
    isBlank c = false := by
  obtain ⟨right, trimmed⟩ := List.rdropWhile_prefix isBlank (text.dropWhile isBlank)
  have first := List.head?_dropWhile_not isBlank text
  rw [← trimmed, ← stripChars_eq, stripped] at first
  exact first

theorem not_isBlank_of_stripChars_concat {before : List Char}
    (stripped : stripChars text = before ++ [c]) : isBlank c = false := by
  have trimmed := stripChars_eq text
  rw [stripped] at trimmed
  have filled : (text.dropWhile isBlank).rdropWhile isBlank ≠ [] := by
    rw [← trimmed]
    exact List.concat_ne_nil c before
  have last := List.rdropWhile_last_not isBlank _ filled
  simp only [← trimmed, List.getLast_concat] at last
  exact Bool.eq_false_iff.mpr last

/-! ## One piece -/

/-- A piece without the blanks around it, unless nothing is left of it. -/
def solid (piece : List Char) : List (List Char) :=
  if stripChars piece = [] then [] else [stripChars piece]

theorem solid_nil : solid [] = [] := rfl

theorem solid_cons (blank : isBlank b = true) : solid (b :: text) = solid text := by
  rw [solid, solid, stripChars_cons blank]

theorem solid_concat (blank : isBlank b = true) : solid (text ++ [b]) = solid text := by
  rw [solid, solid, stripChars_concat blank]

theorem solid_append_left (blank : ∀ b ∈ left, isBlank b = true) (text : List Char) :
    solid (left ++ text) = solid text := by
  induction left with
  | nil => rfl
  | cons b left ih =>
    have rest := ih fun d member => blank d (List.mem_cons_of_mem b member)
    rw [← rest, List.cons_append, solid_cons (blank b List.mem_cons_self)]

theorem solid_append_right (blank : ∀ b ∈ right, isBlank b = true) (text : List Char) :
    solid (text ++ right) = solid text := by
  induction right generalizing text with
  | nil => rw [List.append_nil]
  | cons b right ih =>
    have rest := ih (fun d member => blank d (List.mem_cons_of_mem b member)) (text ++ [b])
    rw [List.append_assoc, List.singleton_append] at rest
    rw [rest, solid_concat (blank b List.mem_cons_self)]

theorem solid_ne_nil (member : c ∈ text) (filled : isBlank c = false) : solid text ≠ [] := by
  obtain ⟨left, right, before, behind, whole⟩ := exists_blanks text
  intro empty
  have stripped : stripChars text = [] := by
    by_contra content
    simp [solid, content] at empty
  rw [whole, stripped, List.nil_append, List.mem_append] at member
  have blank : isBlank c = true := member.elim (before c) (behind c)
  rw [filled] at blank
  cases blank

/-! ## Solid parts -/

variable {isBreak : Char → Bool}

def solidParts (isBreak : Char → Bool) (text : List Char) : List (List Char) :=
  (text.splitOnP isBreak).flatMap solid

theorem solidParts_append_cons (ends : isBreak c = true) (before after : List Char) :
    solidParts isBreak (before ++ c :: after) =
      solidParts isBreak before ++ solidParts isBreak after := by
  rw [solidParts, List.splitOnP_append_cons before after ends, List.flatMap_append, solidParts,
    solidParts]

theorem solidParts_of_free (free : ∀ c ∈ text, isBreak c = false) :
    solidParts isBreak text = solid text := by
  rw [solidParts, List.splitOnP_eq_singleton free, List.flatMap_singleton]

theorem solidParts_append_left (blank : ∀ b ∈ left, isBlank b = true) (text : List Char) :
    solidParts isBreak (left ++ text) = solidParts isBreak text := by
  induction left with
  | nil => rfl
  | cons b left ih =>
    have rest := ih fun d member => blank d (List.mem_cons_of_mem b member)
    rw [← rest, List.cons_append]
    by_cases ends : isBreak b = true
    · exact solidParts_append_cons ends [] (left ++ text)
    · obtain ⟨first, others, cut⟩ :=
        List.exists_cons_of_ne_nil (List.splitOnP_ne_nil isBreak (left ++ text))
      have same : solid (b :: first) = solid first := solid_cons (blank b List.mem_cons_self)
      simp [solidParts, List.splitOnP_cons_eq_if_modifyHead, ends, cut, same]

theorem solidParts_of_blank (blank : ∀ b ∈ text, isBlank b = true) :
    solidParts isBreak text = [] := by
  have all : solidParts isBreak (text ++ []) = solidParts isBreak [] :=
    solidParts_append_left blank []
  rw [List.append_nil] at all
  exact all

theorem solidParts_append_right (free : ∀ c ∈ text, isBreak c = false)
    (blank : ∀ b ∈ right, isBlank b = true) :
    solidParts isBreak (text ++ right) = solid text := by
  induction right generalizing text with
  | nil => rw [List.append_nil, solidParts_of_free free]
  | cons b right ih =>
    have later : ∀ d ∈ right, isBlank d = true :=
      fun d member => blank d (List.mem_cons_of_mem b member)
    by_cases ends : isBreak b = true
    · rw [solidParts_append_cons ends, solidParts_of_free free, solidParts_of_blank later,
        List.append_nil]
    · have longer : ∀ c ∈ text ++ [b], isBreak c = false := by
        intro c member
        rcases List.mem_append.mp member with early | last
        · exact free c early
        · rw [List.mem_singleton.mp last]
          exact Bool.eq_false_iff.mpr ends
      have rest := ih longer later
      rw [List.append_assoc, List.singleton_append] at rest
      rw [rest, solid_concat (blank b List.mem_cons_self)]

/-- Without a break inside the stripped line, a line has no solid part but the whole of it. -/
theorem solidParts_eq_solid (free : ∀ c ∈ stripChars text, isBreak c = false) :
    solidParts isBreak text = solid text := by
  obtain ⟨left, right, before, behind, whole⟩ := exists_blanks text
  rw [whole, solidParts_append_left before, solidParts_append_right free behind,
    solid_append_left before, solid_append_right behind]

section

variable (blanks : ∀ c, isBreak c = true → isBlank c = true)

include blanks

theorem solidParts_ne_nil (member : c ∈ text) (filled : isBlank c = false) :
    solidParts isBreak text ≠ [] := by
  have inside : isBreak c = false :=
    Bool.eq_false_iff.mpr fun ends => Bool.eq_false_iff.mp filled (blanks c ends)
  obtain ⟨piece, listed, there⟩ := exists_piece member inside
  intro empty
  exact solid_ne_nil there filled (List.flatMap_eq_nil_iff.mp empty piece listed)

/-- A break inside the stripped line leaves two solid parts at least. -/
theorem one_lt_solidParts (ends : isBreak c = true) (member : c ∈ stripChars text) :
    1 < (solidParts isBreak text).length := by
  obtain ⟨left, right, _, _, whole⟩ := exists_blanks text
  obtain ⟨before, after, inner⟩ := List.append_of_mem member
  have blank := blanks c ends
  -- The blank is neither the first nor the last character that stripping leaves.
  have first : ∃ d ∈ before, isBlank d = false := by
    cases before with
    | nil => exact absurd (not_isBlank_of_stripChars inner) (by simp [blank])
    | cons d before => exact ⟨d, List.mem_cons_self, not_isBlank_of_stripChars inner⟩
  have last : ∃ d ∈ after, isBlank d = false := by
    rcases List.eq_nil_or_concat after with rfl | ⟨others, d, rfl⟩
    · exact absurd (not_isBlank_of_stripChars_concat inner) (by simp [blank])
    · have ending : stripChars text = (before ++ c :: others) ++ [d] := by simp [inner]
      exact ⟨d, by simp, not_isBlank_of_stripChars_concat ending⟩
  obtain ⟨d, early, filled⟩ := first
  obtain ⟨e, late, solid⟩ := last
  have parts : solidParts isBreak text =
      solidParts isBreak (left ++ before) ++ solidParts isBreak (after ++ right) := by
    rw [← solidParts_append_cons ends]
    conv_lhs => rw [whole, inner]
    simp only [List.append_assoc, List.cons_append]
  have one := List.length_pos_iff.mpr
    (solidParts_ne_nil blanks (List.mem_append_right left early) filled)
  have other := List.length_pos_iff.mpr
    (solidParts_ne_nil blanks (List.mem_append_left right late) solid)
  rw [parts, List.length_append]
  omega

end

end Earley.Text
