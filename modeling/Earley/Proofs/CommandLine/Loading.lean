import Earley.Proofs.CommandLine.Delivery
import Earley.Proofs.Grammar.Format
import Earley.Proofs.Grammar.Joined

/-!
# A grammar in a file and in memory

A file is cut into lines at line feeds and carriage returns, a text in memory at the other line
boundaries too.  All line boundaries are blanks, so the further cuts are without effect unless a
line of the file has two pieces that are not blank.  Such a line is never in the format, but its
pieces may be; then the text in memory writes a grammar and the file does not.
-/

set_option autoImplicit false

namespace Earley

namespace Text

/-- The pieces of a line between line boundaries that are not blank. -/
def filledPieces (line : String) : List String :=
  (splitLines line).filter fun piece => strip piece ≠ ""

theorem isBlank_of_isLineBoundary {c : Char} (ends : isLineBoundary c = true) :
    isBlank c = true := by
  simp only [isLineBoundary, isBlank, blankRanges, inRanges, List.any_cons, List.any_nil,
    Bool.or_false, Bool.or_eq_true, Bool.and_eq_true, decide_eq_true_eq] at ends ⊢
  omega

theorem isLineBoundary_of_isNewline {c : Char} (ends : isNewline c = true) :
    isLineBoundary c = true := by
  rcases Bool.or_eq_true_iff.mp ends with feed | returns
  · rw [beq_iff_eq.mp feed]
    decide
  · rw [beq_iff_eq.mp returns]
    decide

theorem not_isAlpha_of_isLineBoundary {c : Char} (ends : isLineBoundary c = true) :
    c.isAlpha = false := by
  rw [Bool.eq_false_iff]
  intro letter
  have range : 65 ≤ c.toNat ∧ c.toNat ≤ 122 := by
    rcases isAlpha_iff.mp letter with upper | lower
    · have bounds : 65 ≤ c.toNat ∧ c.toNat ≤ 90 := of_decide_eq_true upper
      omega
    · have bounds : 97 ≤ c.toNat ∧ c.toNat ≤ 122 :=
        (Bool.and_eq_true_iff.mp lower).imp of_decide_eq_true of_decide_eq_true
      omega
  simp only [isLineBoundary, inRanges, List.any_cons, List.any_nil, Bool.or_false,
    Bool.or_eq_true, Bool.and_eq_true, decide_eq_true_eq] at ends
  omega

theorem length_flatMap_solid (pieces : List (List Char)) :
    (pieces.flatMap solid).length = (pieces.filter fun piece => stripChars piece ≠ []).length := by
  induction pieces with
  | nil => rfl
  | cons piece rest ih => by_cases blank : stripChars piece = [] <;> simp [solid, blank, ih]

theorem length_filledPieces (line : String) :
    (filledPieces line).length = (solidParts isLineBoundary line.toList).length := by
  have stripped : ∀ piece : List Char,
      strip (String.ofList piece) ≠ "" ↔ stripChars piece ≠ [] := by
    intro piece
    rw [Ne, strip_eq_empty_iff, String.toList_ofList]
  rw [solidParts, ← flatMap_allLines solid_nil (by decide) (by decide), length_flatMap_solid,
    filledPieces, splitLines, List.filter_map, List.length_map]
  simp only [Function.comp_def, stripped]

theorem one_lt_filledPieces_iff (line : String) :
    1 < (filledPieces line).length ↔
      ∃ c ∈ stripChars line.toList, isLineBoundary c = true := by
  rw [length_filledPieces]
  constructor
  · intro crowded
    by_contra absent
    have free : ∀ c ∈ stripChars line.toList, isLineBoundary c = false :=
      fun c member => Bool.eq_false_iff.mpr fun ends => absent ⟨c, member, ends⟩
    rw [solidParts_eq_solid free, solid] at crowded
    split at crowded <;> simp at crowded
  · rintro ⟨c, member, ends⟩
    exact one_lt_solidParts (fun _ => isBlank_of_isLineBoundary) ends member

/-- The solid lines of a text are the solid parts of the lines of the file. -/
theorem flatMap_solid_splitLines (text : String) :
    ((splitLines text).map String.toList).flatMap solid =
      ((fileLines text).map String.toList).flatMap (solidParts isLineBoundary) := by
  rw [splitLines, fileLines, map_toList_ofList, map_toList_ofList,
    flatMap_allLines solid_nil (by decide) (by decide),
    flatMap_allLines rfl (by decide) (by decide),
    ← flatMap_splitOnP fun _ => isLineBoundary_of_isNewline, List.flatMap_assoc]
  rfl

end Text

namespace WrittenRule

theorem not_isLineBoundary (rule : WrittenRule) {c : Char} (member : c ∈ rule.characters) :
    Text.isLineBoundary c = false := by
  rw [Bool.eq_false_iff]
  intro ends
  have other : ∀ d, Text.isLineBoundary d = false → c ≠ d := by
    rintro d inside rfl
    rw [ends] at inside
    cases inside
  have sign := Text.not_isAlpha_of_isLineBoundary ends
  simp only [characters, List.mem_cons] at member
  rcases member with rfl | dash | tip | inside
  · rw [isAlpha_iff.mpr (.inl rule.head_upper)] at sign
    cases sign
  · exact other '-' (by decide) dash
  · exact other '>' (by decide) tip
  · exact Text.not_mem_intercalate (other '|' (by decide))
      (rule.not_mem_characters (other emptyMark (by decide)) sign) inside

end WrittenRule

theorem InFormat.filledPieces_le {line : String} (format : InFormat line) :
    (Text.filledPieces line).length ≤ 1 := by
  rw [← Nat.not_lt, Text.one_lt_filledPieces_iff]
  rintro ⟨c, member, ends⟩
  rw [← Text.toList_strip] at member
  rcases format with blank | ⟨rule, written⟩
  · rw [blank] at member
    exact absurd member List.not_mem_nil
  · rw [written] at member
    rw [rule.not_isLineBoundary member] at ends
    cases ends

namespace CommandLine

variable {text : String}

/-- The two loadings give the same productions, or they both refuse the grammar as malformed. -/
def LoadsAlike : Except GrammarError Grammar → Except LoadError Grammar → Prop
  | .ok first, .ok second => first.productions = second.productions
  | .error _, .error (.malformed _) => True
  | _, _ => False

theorem LoadsAlike.isOk_eq {first : Except GrammarError Grammar}
    {second : Except LoadError Grammar} (alike : LoadsAlike first second) :
    first.isOk = second.isOk := by
  cases first with
  | ok grammar =>
    cases second with
    | ok other => rfl
    | error error => exact alike.elim
  | error error =>
    cases second with
    | ok grammar => exact alike.elim
    | error other => rfl

theorem isOk_mapError {α ε δ : Type} (step : Except ε α) (f : ε → δ) :
    (step.mapError f).isOk = step.isOk := by
  cases step <;> rfl

theorem ofText_eq_of_uncrowded
    (uncrowded : ∀ line ∈ Text.fileLines text, (Text.filledPieces line).length ≤ 1) :
    Grammar.ofText text none = Grammar.ofLines (Text.fileLines text) := by
  apply Grammar.ofLines_congr
  rw [Grammar.linesOf, Text.flatMap_solid_splitLines]
  apply List.flatMap_congr
  intro part listed
  obtain ⟨line, member, rfl⟩ := List.mem_map.mp listed
  apply Text.solidParts_eq_solid
  intro c inside
  refine Bool.eq_false_iff.mpr fun ends => Nat.not_lt.mpr (uncrowded line member) ?_
  exact (Text.one_lt_filledPieces_iff line).mpr ⟨c, inside, ends⟩

theorem uncrowded_of_ofLines {lines : List String} {grammar : Grammar}
    (loaded : Grammar.ofLines lines = .ok grammar) :
    ∀ line ∈ lines, (Text.filledPieces line).length ≤ 1 := by
  intro line member
  obtain ⟨earlier, later, added⟩ := foldlM_step loaded line member
  exact (inFormat_of_addLine added).filledPieces_le

/-- A grammar that a file writes is also written by the text of the file.  Unless some line of the
file has two pieces between line boundaries that are not blank, both loadings give the same, errors
included.  They differ exactly when the text writes a grammar although there is such a line: the file
is refused then. -/
theorem loadBytes_against_ofText (text : String) :
    (∀ grammar, loadBytes text.toUTF8.data.toList = .ok grammar →
      Grammar.ofText text none = .ok grammar) ∧
    ((∀ line ∈ Text.fileLines text, (Text.filledPieces line).length ≤ 1) →
      loadBytes text.toUTF8.data.toList = (Grammar.ofText text none).mapError .malformed) ∧
    (LoadsAlike (Grammar.ofText text none) (loadBytes text.toUTF8.data.toList) ↔
      ¬ ((∃ grammar, Grammar.ofText text none = .ok grammar) ∧
        ∃ line ∈ Text.fileLines text, 1 < (Text.filledPieces line).length)) := by
  rw [loadBytes_toUTF8]
  cases file : Grammar.ofLines (Text.fileLines text) with
  | ok grammar =>
    -- A line with two pieces is not in the format, so a file that loads has none.
    have uncrowded := uncrowded_of_ofLines file
    have same := ofText_eq_of_uncrowded uncrowded
    rw [same, file]
    refine ⟨fun other loaded => ?_, fun _ => rfl, iff_of_true rfl ?_⟩
    · cases loaded
      rfl
    · rintro ⟨_, line, member, crowded⟩
      exact absurd crowded (Nat.not_lt.mpr (uncrowded line member))
  | error error =>
    refine ⟨nofun, fun uncrowded => by rw [ofText_eq_of_uncrowded uncrowded, file], ?_⟩
    cases written : Grammar.ofText text none with
    | error other =>
      refine iff_of_true trivial ?_
      rintro ⟨⟨_, absent⟩, _⟩
      cases absent
    | ok grammar =>
      refine iff_of_false id (not_not_intro ⟨⟨grammar, rfl⟩, ?_⟩)
      by_contra absent
      have uncrowded : ∀ line ∈ Text.fileLines text, (Text.filledPieces line).length ≤ 1 :=
        fun line member => Nat.not_lt.mp fun crowded => absent ⟨line, member, crowded⟩
      rw [ofText_eq_of_uncrowded uncrowded, file] at written
      cases written

/-- A vertical tab at the end of a line divides nothing that is not blank. -/
theorem loadBytes_against_ofText_trailing_tab :
    (∀ line ∈ Text.fileLines "S->a\x0b\r\nS->b\n", (Text.filledPieces line).length ≤ 1) ∧
      loadBytes "S->a\x0b\r\nS->b\n".toUTF8.data.toList =
        (Grammar.ofText "S->a\x0b\r\nS->b\n" none).mapError .malformed := by
  have uncrowded : ∀ line ∈ Text.fileLines "S->a\x0b\r\nS->b\n",
      (Text.filledPieces line).length ≤ 1 := by decide
  exact ⟨uncrowded, (loadBytes_against_ofText _).2.1 uncrowded⟩

/-- A vertical tab between two rules divides the text in memory only. -/
theorem vertical_tab_loads_unlike :
    ¬ LoadsAlike (Grammar.ofText "S->a\x0bS->b" none)
      (loadBytes "S->a\x0bS->b".toUTF8.data.toList) := by
  have divided : Grammar.linesOf "S->a\x0bS->b" none = ["S->a", "S->b"] := by decide
  have whole : Text.fileLines "S->a\x0bS->b" = ["S->a\x0bS->b"] := by decide
  have written : (Grammar.ofLines ["S->a", "S->b"]).isOk = true := by decide
  have refused : (Grammar.ofLines ["S->a\x0bS->b"]).isOk = false := by decide
  refine mt LoadsAlike.isOk_eq ?_
  rw [loadBytes_toUTF8, isOk_mapError, Grammar.ofText, divided, whole, written, refused]
  decide

end CommandLine

end Earley
