import Earley.Grammar.Loading
import Earley.Proofs.Text.Parts
import Earley.Proofs.Text.Split

/-!
# Grammars in one text

Loading sees the solid lines only: blank lines and the blanks around a line have no part in it, not
even in the first error.  So lines that are joined at a character outside them load like the lines
themselves, although joining and cutting again may add an empty line or lose one.
-/

set_option autoImplicit false

namespace Earley.Grammar

def addSolid (grammar : Grammar) (line : List Char) : Except GrammarError Grammar := do
  addRuleLine grammar (← RuleLine.parse (String.ofList line))

theorem addLine_eq_solid (grammar : Grammar) (line : String) :
    grammar.addLine line = (Text.solid line.toList).foldlM addSolid grammar := by
  have empty : Text.strip line = "" ↔ Text.stripChars line.toList = [] := Text.strip_eq_empty_iff
  unfold addLine Text.solid
  by_cases blank : Text.stripChars line.toList = []
  · simp only [if_pos blank, if_pos (empty.mpr blank)]
    rfl
  · simp only [if_neg blank, if_neg (mt empty.mp blank), List.foldlM_cons, List.foldlM_nil]
    exact (bind_pure _).symm

/-- The solid lines decide what is loaded, and which error there is. -/
theorem ofLines_congr {lines others : List String}
    (same : (lines.map String.toList).flatMap Text.solid =
      (others.map String.toList).flatMap Text.solid) : ofLines lines = ofLines others := by
  have solid : ∀ (lines : List String) (grammar : Grammar), lines.foldlM addLine grammar =
      ((lines.map String.toList).flatMap Text.solid).foldlM addSolid grammar := by
    intro lines
    induction lines with
    | nil => exact fun _ => rfl
    | cons line rest ih =>
      intro grammar
      rw [List.foldlM_cons, List.map_cons, List.flatMap_cons, List.foldlM_append, addLine_eq_solid]
      exact bind_congr ih
  rw [ofLines, ofLines, solid, solid, same]

theorem ofLines_of_pieces {pieces : List (List Char)} {lines : List String}
    (same : pieces.flatMap Text.solid = (lines.map String.toList).flatMap Text.solid) :
    ofLines (pieces.map String.ofList) = ofLines lines := by
  apply ofLines_congr
  rw [Text.map_toList_ofList, same]

/-! ## Joining -/

theorem ofText_of_separator (text : String) (c : Char) :
    ofText text (some (String.singleton c)) =
      ofLines ((Text.pieces [c] text.toList).map String.ofList) := by
  have mark : String.singleton c ≠ "" := by simp
  rw [ofText, linesOf]
  simp only [if_neg mark]
  rw [Text.split, String.toList_singleton]

theorem toList_join (c : Char) (lines : List String) :
    ((String.singleton c).intercalate lines).toList =
      [c].intercalate (lines.map String.toList) := by
  rw [String.toList_intercalate, String.toList_singleton]

/-- Without a line there is an empty text, which is one empty piece. -/
theorem pieces_join {c : Char} {lines : List String} (free : ∀ line ∈ lines, c ∉ line.toList) :
    (Text.pieces [c] ([c].intercalate (lines.map String.toList))).flatMap Text.solid =
      (lines.map String.toList).flatMap Text.solid := by
  cases lines with
  | nil => rfl
  | cons line rest =>
    have parts : ∀ part ∈ (line :: rest).map String.toList, c ∉ part := by
      intro part listed
      obtain ⟨line, member, rfl⟩ := List.mem_map.mp listed
      exact free line member
    rw [Text.pieces_intercalate (by simp) parts]

/-- If nothing but one character is a break in a text, the text is cut at this character. -/
theorem splitOnP_eq_pieces {isBreak : Char → Bool} {c : Char} {text : List Char}
    (breaks : ∀ d ∈ text, isBreak d = true ↔ d = c) :
    text.splitOnP isBreak = Text.pieces [c] text := by
  rw [Text.pieces_singleton, List.splitOn_eq_splitOnP]
  induction text with
  | nil => simp
  | cons d rest ih =>
    have same : isBreak d = (d == c) := by
      rw [Bool.eq_iff_iff, breaks d List.mem_cons_self, beq_iff_eq]
    rw [List.splitOnP_cons_eq_if_modifyHead, List.splitOnP_cons_eq_if_modifyHead, same,
      ih fun e member => breaks e (List.mem_cons_of_mem d member)]

theorem mem_join {c d : Char} {lines : List String}
    (member : d ∈ [c].intercalate (lines.map String.toList)) :
    d = c ∨ ∃ line ∈ lines, d ∈ line.toList := by
  by_contra absent
  rw [not_or, not_exists] at absent
  refine Text.not_mem_intercalate absent.1 (fun part listed there => ?_) member
  obtain ⟨line, inside, rfl⟩ := List.mem_map.mp listed
  exact absent.2 line ⟨inside, there⟩

/-- Lines without a certain character, joined at this character and cut at it again, load like the
lines themselves: the same grammar, or the same first error.  Lines without a line boundary may be
joined by line feeds and cut at the line boundaries. -/
theorem ofText_join (lines : List String) :
    (∀ c, (∀ line ∈ lines, c ∉ line.toList) →
      ofText ((String.singleton c).intercalate lines) (some (String.singleton c)) =
        ofLines lines) ∧
    ((∀ line ∈ lines, ∀ c ∈ line.toList, Text.isLineBoundary c = false) →
      ofText ("\n".intercalate lines) none = ofLines lines) := by
  constructor
  · intro c free
    rw [ofText_of_separator, toList_join]
    exact ofLines_of_pieces (pieces_join free)
  · intro free
    have feed : Text.isLineBoundary '\n' = true := by decide
    have absent : ∀ line ∈ lines, '\n' ∉ line.toList := by
      intro line member there
      rw [free line member _ there] at feed
      cases feed
    -- Of the characters in the joined text, only the line feeds between the lines are boundaries.
    have breaks : ∀ d ∈ ['\n'].intercalate (lines.map String.toList),
        Text.isLineBoundary d = true ↔ d = '\n' := by
      intro d member
      rcases mem_join member with rfl | ⟨line, listed, there⟩
      · exact iff_of_true feed rfl
      · rw [free line listed d there]
        exact iff_of_false nofun fun same => absent line listed (same ▸ there)
    have joined : ("\n".intercalate lines).toList = ['\n'].intercalate (lines.map String.toList) :=
      toList_join '\n' lines
    rw [ofText, linesOf, Text.splitLines, joined]
    apply ofLines_of_pieces
    rw [Text.flatMap_allLines Text.solid_nil feed (by decide), splitOnP_eq_pieces breaks,
      pieces_join absent]

/-- Here the character that joins the lines is one of the format, and it stands at both ends. -/
theorem ofText_join_at_bars :
    (∀ line ∈ ["", "S->aS", " ", "S->~", ""], '|' ∉ line.toList) ∧
    (∀ line ∈ ["", "S->aS", " ", "S->~", ""], ∀ c ∈ line.toList,
      Text.isLineBoundary c = false) ∧
    ofText "|S->aS| |S->~|" (some "|") = ofLines ["", "S->aS", " ", "S->~", ""] ∧
    ofText "\nS->aS\n \nS->~\n" none = ofLines ["", "S->aS", " ", "S->~", ""] ∧
    (ofLines ["", "S->aS", " ", "S->~", ""]).isOk = true := by
  have free : ∀ line ∈ ["", "S->aS", " ", "S->~", ""], '|' ∉ line.toList := by decide
  have inner : ∀ line ∈ ["", "S->aS", " ", "S->~", ""], ∀ c ∈ line.toList,
      Text.isLineBoundary c = false := by
    have all : (["", "S->aS", " ", "S->~", ""].all fun line =>
      line.toList.all fun c => !Text.isLineBoundary c) = true := by decide
    simp only [List.all_eq_true, Bool.not_eq_true'] at all
    exact all
  obtain ⟨bars, feeds⟩ := ofText_join ["", "S->aS", " ", "S->~", ""]
  exact ⟨free, inner, bars '|' free, feeds inner, by decide⟩

end Earley.Grammar
