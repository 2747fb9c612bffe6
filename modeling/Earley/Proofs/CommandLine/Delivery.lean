import Earley.CommandLine.Reader
import Earley.Proofs.Text.Decoding
import Earley.Proofs.Text.Lines
import Mathlib.Data.List.Induction

/-!
# What a file delivers

Reading a file adds some lines to the grammar and then ends: with the file, with an error of the
system or with a flaw.  Which lines these are depends on the text that the pieces encode, and not on
where one piece ends and the next begins.  Only a flaw shows where its piece begins, since no line
of that piece is added.
-/

set_option autoImplicit false

namespace Earley.CommandLine

open Text (allLines cutFinished isNewline)
open Text.Utf8 (Legible decode encode)

variable {file : OpenedFile} {pieces : List (List UInt8)} {lines : List String}
  {text : List Char} {tail : List UInt8}

inductive Ending where
  | complete
  | broken (error : FileError)
  | undecodable

/-- The lines that are added to the grammar if none of them is malformed, and what ends them. -/
inductive Delivers (file : OpenedFile) : List String → Ending → Prop
  | whole {text : String} (unbroken : file.broken = none)
      (encoded : file.pieces.flatten = text.toUTF8.data.toList) :
      Delivers file (Text.fileLines text) .complete
  | cutOff {text : String} {tail : List UInt8} (unbroken : file.broken = none)
      (legible : Legible file.pieces.flatten text.toList tail) (short : tail ≠ []) :
      Delivers file (Text.finishedFileLines text) .undecodable
  | broken {text : String} {tail : List UInt8} {error : FileError}
      (broken : file.broken = some error)
      (legible : Legible file.pieces.flatten text.toList tail) :
      Delivers file (Text.finishedFileLines text) (.broken error)
  | flawed {text : String} {tail piece : List UInt8} {before after : List (List UInt8)}
      (cut : file.pieces = before ++ piece :: after)
      (legible : Legible before.flatten text.toList tail)
      (flawed : ∀ text tail, ¬ Legible (before ++ [piece]).flatten text tail) :
      Delivers file (Text.finishedFileLines text) .undecodable

/-! ## Every file delivers something -/

theorem exists_flawed_piece (flawed : ∀ text tail, ¬ Legible pieces.flatten text tail) :
    ∃ before piece after text tail, pieces = before ++ piece :: after ∧
      Legible before.flatten text tail ∧
      ∀ text tail, ¬ Legible (before ++ [piece]).flatten text tail := by
  induction pieces using List.reverseRecOn with
  | nil => exact absurd (Text.Utf8.legible_encode []) (flawed [] [])
  | append_singleton pieces piece ih =>
    by_cases legible : ∃ text tail, Legible pieces.flatten text tail
    · obtain ⟨text, tail, legible⟩ := legible
      exact ⟨pieces, piece, [], text, tail, rfl, legible, flawed⟩
    · simp only [not_exists] at legible
      obtain ⟨before, first, after, text, tail, rfl, start, shown⟩ := ih legible
      exact ⟨before, first, after ++ [piece], text, tail, by simp, start, shown⟩

theorem exists_delivers (file : OpenedFile) : ∃ lines ending, Delivers file lines ending := by
  by_cases legible : ∃ text tail, Legible file.pieces.flatten text tail
  · obtain ⟨text, tail, legible⟩ := legible
    rw [← String.toList_ofList (l := text)] at legible
    cases broken : file.broken with
    | some error => exact ⟨_, _, .broken broken legible⟩
    | none =>
      by_cases short : tail = []
      · have encoded := legible.spelled
        rw [short, List.append_nil, ← Text.Utf8.toList_toUTF8] at encoded
        exact ⟨_, _, .whole broken encoded⟩
      · exact ⟨_, _, .cutOff broken legible short⟩
  · simp only [not_exists] at legible
    obtain ⟨before, piece, after, text, tail, cut, start, shown⟩ := exists_flawed_piece legible
    rw [← String.toList_ofList (l := text)] at start
    exact ⟨_, _, .flawed cut start shown⟩

/-! ## The reader -/

theorem addLines_append (grammar : Grammar) (first second : List (List Char)) :
    Reader.addLines grammar (first ++ second) =
      (do Reader.addLines (← Reader.addLines grammar first) second) := by
  simp only [Reader.addLines, List.map_append, List.foldlM_append]
  cases (first.map String.ofList).foldlM Grammar.addLine grammar <;> rfl

theorem addLines_empty (lines : List (List Char)) :
    Reader.addLines .empty lines =
      (Grammar.ofLines (lines.map String.ofList)).mapError .malformed := rfl

theorem take_eq (reader : Reader) {piece : List UInt8}
    (legible : Legible (reader.pending ++ piece) text tail) :
    reader.take piece = (do
      let grammar ← Reader.addLines reader.grammar (cutFinished isNewline (reader.held ++ text)).1
      return ⟨tail, (cutFinished isNewline (reader.held ++ text)).2, grammar⟩) := by
  rw [Reader.take, Text.Utf8.ready_decode_iff.mpr legible]
  rfl

theorem finish_eq (held : List Char) (grammar : Grammar) :
    Reader.finish ⟨[], held, grammar⟩ = Reader.addLines grammar (allLines isNewline held) := by
  show Reader.addLines grammar (allLines isNewline (held ++ [])) = _
  rw [List.append_nil]

/-- Wherever legible bytes are cut into pieces, the finished lines have been added and the rest is
kept. -/
theorem foldlM_take (legible : Legible pieces.flatten text tail) :
    pieces.foldlM Reader.take {} = (do
      let grammar ← Reader.addLines .empty (cutFinished isNewline text).1
      return ⟨tail, (cutFinished isNewline text).2, grammar⟩) := by
  induction pieces using List.reverseRecOn generalizing text tail with
  | nil =>
    have read := Text.Utf8.ready_decode_iff.mpr legible
    cases read
    rfl
  | append_singleton pieces piece ih =>
    rw [List.flatten_append, List.flatten_singleton] at legible
    obtain ⟨front, left, earlier⟩ := legible.front
    obtain ⟨later, rfl, behind⟩ := earlier.append_iff.mp legible
    rw [List.foldlM_append, ih earlier, Text.cutFinished_append rfl, addLines_append]
    cases Reader.addLines .empty (cutFinished isNewline front).1 with
    | error error => rfl
    | ok grammar =>
      show Reader.take ⟨left, (cutFinished isNewline front).2, grammar⟩ piece >>= pure = _
      rw [bind_pure, take_eq ⟨left, _, grammar⟩ behind]
      rfl

theorem loadFile_eq (legible : Legible file.pieces.flatten text tail) :
    loadFile file = (do
      let grammar ← Reader.addLines .empty (cutFinished isNewline text).1
      match file.broken with
      | some error => throw (.broken error)
      | none => Reader.finish ⟨tail, (cutFinished isNewline text).2, grammar⟩) := by
  rw [loadFile, foldlM_take legible]
  cases Reader.addLines .empty (cutFinished isNewline text).1 <;> rfl

/-- The grammar of a file that encodes a text is read from the lines of the text. -/
theorem loadFile_encoded {text : String} (unbroken : file.broken = none)
    (encoded : file.pieces.flatten = text.toUTF8.data.toList) :
    loadFile file = (Grammar.ofLines (Text.fileLines text)).mapError .malformed := by
  have legible := Text.Utf8.legible_encode text.toList
  rw [← Text.Utf8.toList_toUTF8, ← encoded] at legible
  rw [loadFile_eq legible, unbroken, Text.fileLines, ← addLines_empty,
    Text.allLines_eq_cutFinished rfl, addLines_append]
  simp only [finish_eq]

/-! ## Files with given bytes -/

theorem flatten_cutPieces (bytes : List UInt8) : (OpenedFile.cutPieces bytes).flatten = bytes := by
  fun_induction OpenedFile.cutPieces bytes with
  | case1 => rfl
  | case2 bytes solid ih => rw [List.flatten_cons, ih, List.take_append_drop]

theorem loadBytes_toUTF8 (text : String) :
    loadBytes text.toUTF8.data.toList =
      (Grammar.ofLines (Text.fileLines text)).mapError .malformed :=
  loadFile_encoded rfl (flatten_cutPieces _)

/-! ## What loading comes to -/

def Ending.outcome (grammar : Grammar) (failure : Text.Utf8.Failure) :
    Ending → Except LoadError Grammar
  | complete => .ok grammar
  | broken error => .error (.broken error)
  | undecodable => .error (.undecodable failure)

theorem exists_incomplete (legible : Legible pieces.flatten text tail) (short : tail ≠ []) :
    ∃ failure, (decode tail).complete = .error failure := by
  have begun := legible.unfinished.resolve_left short
  have spelled : tail = encode [] ++ tail := rfl
  obtain ⟨failure, read⟩ := Text.Utf8.decode_eq_cutOff_iff.mpr ⟨spelled, begun⟩
  exact ⟨failure, by rw [read]; rfl⟩

theorem exists_unready {before : List (List UInt8)} {piece : List UInt8}
    (legible : Legible before.flatten text tail)
    (flawed : ∀ text tail, ¬ Legible (before ++ [piece]).flatten text tail) :
    ∃ failure, (decode (tail ++ piece)).ready = .error failure := by
  cases read : (decode (tail ++ piece)).ready with
  | error failure => exact ⟨failure, rfl⟩
  | ok result =>
    have behind := Text.Utf8.ready_decode_iff.mp read
    have whole := legible.append_iff.mpr ⟨_, rfl, behind⟩
    rw [← List.flatten_concat] at whole
    exact absurd whole (flawed _ _)

/-- What loading gives is told by the lines that a file delivers and by what ends them. -/
theorem loadFile_of_delivers {ending : Ending} (delivers : Delivers file lines ending) :
    ∃ failure, loadFile file = (do
      let grammar ← (Grammar.ofLines lines).mapError .malformed
      ending.outcome grammar failure) := by
  cases delivers with
  | whole unbroken encoded =>
    refine ⟨⟨.earlyEnd, 0, []⟩, ?_⟩
    rw [loadFile_encoded unbroken encoded]
    exact (bind_pure _).symm
  | @cutOff text tail unbroken legible short =>
    obtain ⟨failure, shown⟩ := exists_incomplete legible short
    refine ⟨failure, ?_⟩
    rw [loadFile_eq legible, unbroken]
    simp only [Reader.finish, shown]
    rfl
  | @broken text tail error broken legible =>
    refine ⟨⟨.earlyEnd, 0, []⟩, ?_⟩
    rw [loadFile_eq legible, broken]
    rfl
  | @flawed text tail piece before after cut legible flawed =>
    obtain ⟨failure, shown⟩ := exists_unready legible flawed
    refine ⟨failure, ?_⟩
    rw [loadFile, cut, List.foldlM_append, foldlM_take legible]
    show _ = (do
      let grammar ← Reader.addLines .empty (cutFinished isNewline text.toList).1
      Ending.undecodable.outcome grammar failure)
    cases Reader.addLines .empty (cutFinished isNewline text.toList).1 with
    | error error => rfl
    | ok grammar =>
      show (do (piece :: after).foldlM Reader.take ⟨tail, _, grammar⟩) >>= _ = _
      rw [List.foldlM_cons, Reader.take, shown]
      rfl

end Earley.CommandLine
