import Earley.CommandLine.Run
import Earley.Proofs.CommandLine.Delivery
import Earley.Proofs.Recognition.WellFormed

/-!
# The verdict of a run

A run builds the chart of its word itself and shows it before it judges.  A chart that was built can
always be shown, so a run with a grammar and a word ends with the verdict of the recognizer.  What
is reported, printed or drawn besides has no part in it.
-/

set_option autoImplicit false

namespace Earley.CommandLine

open Recognition (build recognize)

variable {path start word : String} {options : Options} {input : Input}

/-! ## Loading -/

section

variable (named : '\x00' ∉ path.toList)

include named

theorem load_unopened (error : FileError) :
    load path (.error error) = .error (.unopened error) :=
  if_neg named

theorem load_opened (file : OpenedFile) : load path (.ok file) = loadFile file :=
  if_neg named

end

/-! ## The word -/

/-- The word of the arguments or, if there is none, the first line of the input without the blanks
around it. -/
inductive Asked (options : Options) (input : Input) (word : String) : Prop
  | given (given : options.word = some word)
  | read {content line : String} (absent : options.word = none) (opened : input = .text content)
      (solid : content ≠ "") (first : Text.FirstLine content line) (stripped : word = Text.strip line)

theorem readWord_eq {content line : String} (solid : content ≠ "")
    (first : Text.FirstLine content line) : readWord content = some (Text.strip line) := by
  rw [readWord, if_neg solid, Text.firstLine_eq first]

theorem judgeGiven_without (grammar : Grammar) (absent : options.word = none) :
    judgeGiven options grammar (.text "") = withoutWord options grammar := by
  simp [judgeGiven, absent, readWord]

theorem judgeGiven_asked (grammar : Grammar) (asked : Asked options input word) :
    judgeGiven options grammar input =
      judge options grammar (if options.word.isSome then "" else prompt) word := by
  cases asked with
  | given given => simp [judgeGiven, given]
  | read absent opened solid first stripped =>
    simp [judgeGiven, absent, opened, readWord_eq solid first, stripped]

/-! ## Judging -/

section

variable {grammar : Grammar} {chart : Chart} (formed : chart.WellFormed grammar start)
  (options : Options)

include formed

theorem succeeds_dumped : Succeeds (dumped options chart) fun _ => True := by
  unfold dumped
  split
  · exact formed.succeeds_rows.map fun _ _ => trivial
  · exact .ok trivial

theorem succeeds_drawn : Succeeds (drawn options chart) fun _ => True := by
  unfold drawn
  split
  · exact formed.succeeds_drawing.map fun _ _ => trivial
  · exact .ok trivial

end

/-- Nothing that is done with a chart keeps a run from its verdict. -/
theorem judge_verdict (options : Options) (grammar : Grammar) (before word : String) :
    ∃ table, dumped options (build grammar word options.start).chart = .ok table ∧
      (judge options grammar before word).status =
        .ok (if (recognize grammar word options.start).accepted then 0 else 1) ∧
      (judge options grammar before word).output =
        before ++ table ++ verdict (recognize grammar word options.start).accepted := by
  have faultless := (Recognition.underway_build grammar word options.start).faultless
  have formed := Recognition.wellFormed_build grammar word options.start
  obtain ⟨table, written, _⟩ := succeeds_dumped formed options
  obtain ⟨drawing, made, _⟩ := succeeds_drawn formed options
  exact ⟨table, written, by simp [judge, faultless, written, made]⟩

/-! ## The run -/

section

variable (named : '\x00' ∉ options.grammarFile.toList)

include named

theorem runWith_unopened (error : FileError) (input : Input) :
    runWith options (.error error) input =
      .refusal "" (error.messageFor options.grammarFile ++ "\n") := by
  rw [runWith, load_unopened named]
  rfl

theorem runWith_failed {file : OpenedFile} {error : LoadError} (failed : loadFile file = .error error)
    (input : Input) :
    runWith options (.ok file) input = error.report options.grammarFile := by
  rw [runWith, load_opened named, failed]

theorem runWith_loaded {file : OpenedFile} {grammar : Grammar}
    (loaded : loadFile file = .ok grammar) (input : Input) :
    runWith options (.ok file) input = judgeGiven options grammar input := by
  rw [runWith, load_opened named, loaded]

end

def OpenedFile.brackets : OpenedFile where
  pieces := ["S->a".toUTF8.data.toList, "SbS|~\n".toUTF8.data.toList]

end Earley.CommandLine
