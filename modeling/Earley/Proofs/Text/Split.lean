import Earley.Text.Split

/-!
# Cutting at a mark and putting together again

A cut gives the text back with the mark put in.  A mark of one character cuts a text into the pieces
of `List.splitOn`, so pieces without that character are found again in the text that they make
together.  Pieces between some breaks may be cut again at further ones.
-/

set_option autoImplicit false

namespace Earley.Text

variable {mark text before after : List Char}

theorem eq_append_of_cut (found : cut mark text = some (before, after)) :
    text = before ++ (mark ++ after) := by
  induction text generalizing before with
  | nil => simp [cut] at found
  | cons c rest ih =>
    simp only [cut] at found
    split at found
    · rename_i here
      obtain ⟨tail, same⟩ := List.isPrefixOf_iff_prefix.mp here
      simp only [Option.some.injEq, Prod.mk.injEq] at found
      obtain ⟨rfl, rfl⟩ := found
      simp [← same]
    · obtain ⟨⟨earlier, later⟩, cutRest, pair⟩ := Option.map_eq_some_iff.mp found
      simp only [Prod.mk.injEq] at pair
      obtain ⟨rfl, rfl⟩ := pair
      rw [ih cutRest, List.cons_append]

theorem cut_eq_none {c : Char} {more : List Char} (absent : c ∉ text) :
    cut (c :: more) text = none := by
  induction text with
  | nil => rfl
  | cons d rest ih =>
    rw [List.mem_cons, not_or] at absent
    simp [cut, absent.1, ih absent.2]

/-- A character cuts a text where it stands first. -/
theorem cut_append {c : Char} (absent : c ∉ before) (after : List Char) :
    cut [c] (before ++ c :: after) = some (before, after) := by
  induction before with
  | nil => simp [cut]
  | cons d rest ih =>
    rw [List.mem_cons, not_or] at absent
    simp [cut, absent.1, ih absent.2]

/-- Texts with the same first occurrence of a character agree before it and behind it. -/
theorem append_cons_inj {c : Char} {first second rest other : List Char} (absent : c ∉ first)
    (missing : c ∉ second) (same : first ++ c :: rest = second ++ c :: other) :
    first = second ∧ rest = other := by
  have cuts := congrArg (cut [c]) same
  rw [cut_append absent, cut_append missing] at cuts
  exact Prod.mk.inj (Option.some.inj cuts)

theorem pieces_singleton (c : Char) (text : List Char) : pieces [c] text = text.splitOn c := by
  have same : ∀ text, piecesFrom [c] 0 text = text.splitOnP (· == c) := by
    intro text
    induction text with
    | nil => simp [piecesFrom]
    | cons d rest ih =>
      rw [List.splitOnP_cons_eq_if_modifyHead]
      by_cases here : d = c
      · simp [piecesFrom, here, ih]
      · have other : ¬ c = d := fun same => here same.symm
        have filled := List.splitOnP_ne_nil (· == c) rest
        cases pieces : rest.splitOnP (· == c) with
        | nil => exact absurd pieces filled
        | cons piece others => simp [piecesFrom, here, other, ih, pieces, growFirst]
  exact same text

theorem intercalate_pieces (c : Char) (text : List Char) :
    [c].intercalate (pieces [c] text) = text := by
  rw [pieces_singleton, List.intercalate_splitOn]

theorem pieces_intercalate {c : Char} {parts : List (List Char)} (some_part : parts ≠ [])
    (free : ∀ part ∈ parts, c ∉ part) : pieces [c] ([c].intercalate parts) = parts := by
  rw [pieces_singleton, List.splitOn_intercalate c free some_part]

/-- Texts that are joined by a character that none of them has are cut apart there again. -/
theorem split_intercalate {c : Char} {mark : String} (single : mark.toList = [c])
    {parts : List String} (some_part : parts ≠ []) (free : ∀ part ∈ parts, c ∉ part.toList) :
    split mark (mark.intercalate parts) = parts := by
  have apart : pieces [c] ([c].intercalate (parts.map String.toList)) =
      parts.map String.toList := by
    apply pieces_intercalate (mt List.map_eq_nil_iff.mp some_part)
    simpa using free
  rw [split, String.toList_intercalate, single, apart]
  simp

/-- Texts that are joined by a character that none of them has are told from what they make. -/
theorem eq_of_intercalate_eq {c : Char} {joint : String} (single : joint.toList = [c])
    {parts others : List String} (some_part : parts ≠ []) (some_other : others ≠ [])
    (free : ∀ part ∈ parts, c ∉ part.toList) (clear : ∀ part ∈ others, c ∉ part.toList)
    (same : joint.intercalate parts = joint.intercalate others) : parts = others := by
  have both := congrArg (split joint) same
  rwa [split_intercalate single some_part free, split_intercalate single some_other clear] at both

theorem not_mem_intercalate {c d : Char} (other : c ≠ d) {parts : List (List Char)}
    (free : ∀ part ∈ parts, c ∉ part) : c ∉ [d].intercalate parts := by
  induction parts with
  | nil => simp
  | cons part rest ih =>
    have first := free part List.mem_cons_self
    have later := ih fun part member => free part (List.mem_cons_of_mem _ member)
    cases rest with
    | nil => simpa using first
    | cons next rest =>
      rw [List.intercalate_cons_cons]
      simp [first, later, other]

/-! ## Cutting at several breaks -/

variable {isBreak isOther : Char → Bool}

/-- Cutting at some breaks and then at more is cutting at all of them at once. -/
theorem flatMap_splitOnP (more : ∀ c, isBreak c = true → isOther c = true) (text : List Char) :
    (text.splitOnP isBreak).flatMap (·.splitOnP isOther) = text.splitOnP isOther := by
  induction text with
  | nil => simp
  | cons c rest ih =>
    rw [List.splitOnP_cons_eq_if_modifyHead, List.splitOnP_cons_eq_if_modifyHead]
    by_cases ends : isBreak c = true
    · simp [ends, more c ends, ih]
    · obtain ⟨first, others, cut⟩ :=
        List.exists_cons_of_ne_nil (List.splitOnP_ne_nil isBreak rest)
      obtain ⟨piece, pieces, split⟩ :=
        List.exists_cons_of_ne_nil (List.splitOnP_ne_nil isOther first)
      rw [cut, List.flatMap_cons, split, List.cons_append] at ih
      rw [if_neg ends, cut, List.modifyHead_cons, List.flatMap_cons,
        List.splitOnP_cons_eq_if_modifyHead, split, ← ih]
      split <;> simp

theorem exists_piece {c : Char} (member : c ∈ text) (inside : isBreak c = false) :
    ∃ piece ∈ text.splitOnP isBreak, c ∈ piece := by
  induction text with
  | nil => exact absurd member List.not_mem_nil
  | cons d rest ih =>
    obtain ⟨first, others, cut⟩ := List.exists_cons_of_ne_nil (List.splitOnP_ne_nil isBreak rest)
    rw [List.splitOnP_cons_eq_if_modifyHead, cut]
    rw [cut] at ih
    rcases List.mem_cons.mp member with rfl | later
    · simp [inside]
    · obtain ⟨piece, listed, there⟩ := ih later
      split
      · exact ⟨piece, List.mem_cons_of_mem _ listed, there⟩
      · rcases List.mem_cons.mp listed with rfl | behind
        · exact ⟨d :: piece, List.mem_cons_self, List.mem_cons_of_mem d there⟩
        · exact ⟨piece, List.mem_cons_of_mem _ behind, there⟩

end Earley.Text
