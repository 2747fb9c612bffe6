import Earley.Text.Lines
import Mathlib.Data.List.Basic
import Mathlib.Data.List.TakeWhile

/-!
# Lines and breaks

The lines of a text are the pieces between its breaks, but for empty ones.  A text that comes in
pieces may be cut piece by piece: what is left of a piece is cut with the next one.  Only a carriage
return at the end of a piece has to wait, since a line feed may follow.
-/

set_option autoImplicit false

namespace Earley.Text

variable {isBreak : Char → Bool} {c : Char} {text second : List Char}

/-! ## A text in pieces -/

theorem cutLines_cons (single : ¬ (c = '\r' ∧ text.head? = some '\n')) :
    cutLines isBreak (c :: text) =
      if isBreak c then ([] :: (cutLines isBreak text).1, (cutLines isBreak text).2)
      else match (cutLines isBreak text).1 with
        | [] => ([], c :: (cutLines isBreak text).2)
        | line :: others => ((c :: line) :: others, (cutLines isBreak text).2) := by
  have apart : ∀ rest, c = '\r' → text = '\n' :: rest → False := by
    rintro rest rfl rfl
    exact single ⟨rfl, rfl⟩
  exact cutLines.eq_3 isBreak c text apart

theorem inside_of_mem_remainder
    (member : c ∈ (cutLines isBreak text).2) : isBreak c = false := by
  fun_induction cutLines isBreak text with
  | case1 => exact absurd member List.not_mem_nil
  | case2 rest lines remainder cut ih => exact ih (by simpa [cut] using member)
  | case3 d rest _ lines remainder cut ends ih => exact ih (by simpa [cut] using member)
  | case4 d rest _ remainder inside cut ih =>
    rcases List.mem_cons.mp member with rfl | member
    · exact Bool.eq_false_iff.mpr inside
    · exact ih (by simpa [cut] using member)
  | case5 d rest _ remainder inside line others cut ih => exact ih (by simpa [cut] using member)

theorem holdReturn_of_last (last : text.getLast? ≠ some '\r') : holdReturn text = (text, []) :=
  if_neg last

theorem holdReturn_concat (text : List Char) : holdReturn (text ++ ['\r']) = (text, ['\r']) := by
  simp [holdReturn]

theorem last_or_concat (text : List Char) :
    text.getLast? ≠ some '\r' ∨ ∃ front, text = front ++ ['\r'] := by
  rw [or_iff_not_imp_left, not_not]
  exact List.getLast?_eq_some_iff.mp

theorem holdReturn_append (first : List Char) (solid : second ≠ []) :
    holdReturn (first ++ second) = (first ++ (holdReturn second).1, (holdReturn second).2) := by
  rcases last_or_concat second with last | ⟨front, rfl⟩
  · rw [holdReturn_of_last last]
    apply holdReturn_of_last
    rwa [List.getLast?_append_of_ne_nil _ solid]
  · rw [holdReturn_concat, ← List.append_assoc]
    exact holdReturn_concat (first ++ front)

theorem cutFinished_of_last (last : text.getLast? ≠ some '\r') :
    cutFinished isBreak text = cutLines isBreak text := by
  simp [cutFinished, holdReturn_of_last last]

theorem cutFinished_concat (text : List Char) :
    cutFinished isBreak (text ++ ['\r']) =
      ((cutLines isBreak text).1, (cutLines isBreak text).2 ++ ['\r']) := by
  simp [cutFinished, holdReturn_concat]

section

variable (returns : isBreak '\r' = true)

include returns

/-- Cutting goes on behind a front with what is left of it, unless the front ends inside a break. -/
theorem cutLines_append (first second : List Char)
    (whole : ¬ (first.getLast? = some '\r' ∧ second.head? = some '\n')) :
    cutLines isBreak (first ++ second) =
      ((cutLines isBreak first).1 ++ (cutLines isBreak ((cutLines isBreak first).2 ++ second)).1,
        (cutLines isBreak ((cutLines isBreak first).2 ++ second)).2) := by
  have behind : ∀ start rest : List Char, first = start ++ rest →
      ¬ (rest.getLast? = some '\r' ∧ second.head? = some '\n') := by
    rintro start rest rfl ⟨last, feed⟩
    exact whole ⟨by simp [last], feed⟩
  match first with
  | [] => rfl
  | c :: rest =>
    by_cases pair : c = '\r' ∧ rest.head? = some '\n'
    · obtain ⟨rfl, feed⟩ := pair
      obtain ⟨more, rfl⟩ := List.head?_eq_some_iff.mp feed
      have ih := cutLines_append more second (behind ['\r', '\n'] more rfl)
      simp [cutLines, ih]
    · have ih := cutLines_append rest second (behind [c] rest rfl)
      have beside : ¬ (c = '\r' ∧ (rest ++ second).head? = some '\n') := by
        rintro ⟨rfl, feed⟩
        cases rest with
        | nil => exact whole ⟨rfl, feed⟩
        | cons next more => exact pair ⟨rfl, feed⟩
      rw [List.cons_append, cutLines_cons pair, cutLines_cons beside, ih]
      by_cases ends : isBreak c = true
      · simp [ends]
      · have inside : ∀ text : List Char, ¬ (c = '\r' ∧ text.head? = some '\n') := by
          rintro text ⟨rfl, _⟩
          exact ends returns
        cases lines : (cutLines isBreak rest).1 with
        | nil => simp [ends, cutLines_cons (inside _)]
        | cons line others => simp [ends]
termination_by first.length

theorem cutLines_remainder (text : List Char) :
    cutLines isBreak (cutLines isBreak text).2 = ([], (cutLines isBreak text).2) := by
  have again := cutLines_append returns text [] (by simp)
  simp only [List.append_nil, Prod.ext_iff, List.self_eq_append_right] at again
  exact Prod.ext again.1 again.2.symm

/-- The lines of a text are those that are finished and those of what is left. -/
theorem allLines_eq_cutFinished (text : List Char) :
    allLines isBreak text = (cutFinished isBreak text).1 ++
      allLines isBreak (cutFinished isBreak text).2 := by
  rcases last_or_concat text with last | ⟨front, rfl⟩
  · simp only [allLines, cutFinished_of_last last, cutLines_remainder returns]
    split <;> simp
  · have cut := cutLines_append returns front ['\r'] (by simp)
    simp only [allLines, cutFinished_concat, cut]
    split <;> simp

theorem cutFinished_behind (front tail : List Char) (solid : tail ≠ [])
    (whole : ¬ (front.getLast? = some '\r' ∧ tail.head? = some '\n')) :
    cutFinished isBreak (front ++ tail) =
      ((cutLines isBreak front).1 ++ (cutFinished isBreak ((cutLines isBreak front).2 ++ tail)).1,
        (cutFinished isBreak ((cutLines isBreak front).2 ++ tail)).2) := by
  have apart : ¬ (front.getLast? = some '\r' ∧ (holdReturn tail).1.head? = some '\n') := by
    rintro ⟨last, feed⟩
    refine whole ⟨last, ?_⟩
    rcases last_or_concat tail with ends | ⟨start, rfl⟩
    · rwa [holdReturn_of_last ends] at feed
    · rw [holdReturn_concat] at feed
      simp [feed]
  simp [cutFinished, holdReturn_append _ solid, cutLines_append returns front _ apart]

/-- A text may be cut in two steps: what the first leaves is cut with what follows. -/
theorem cutFinished_append (first second : List Char) :
    cutFinished isBreak (first ++ second) =
      ((cutFinished isBreak first).1 ++
          (cutFinished isBreak ((cutFinished isBreak first).2 ++ second)).1,
        (cutFinished isBreak ((cutFinished isBreak first).2 ++ second)).2) := by
  rcases last_or_concat first with last | ⟨front, rfl⟩
  · rw [cutFinished_of_last last]
    by_cases solid : second = []
    · have ends : (cutLines isBreak first).2.getLast? ≠ some '\r' := by
        intro last
        rw [inside_of_mem_remainder (List.mem_of_getLast? last)] at returns
        cases returns
      simp only [solid, List.append_nil, cutFinished_of_last ends, cutFinished_of_last last,
        cutLines_remainder returns]
    · exact cutFinished_behind returns first second solid fun divided => last divided.1
  · rw [cutFinished_concat]
    simpa using cutFinished_behind returns front ('\r' :: second) (by simp) (by simp)

end

/-! ## The first line -/

/-- All of a text without a line feed, or what stands before the first one. -/
def FirstLine (text line : String) : Prop :=
  '\n' ∉ line.toList ∧ (text = line ∨ ∃ rest, text = line ++ "\n" ++ rest)

theorem firstLine_eq {text line : String} (first : FirstLine text line) :
    firstLine text = line := by
  obtain ⟨single, whole⟩ := first
  have before : ∀ c ∈ line.toList, (decide (c ≠ '\n')) = true := by
    intro c member
    simpa using ne_of_mem_of_not_mem member single
  rw [firstLine, ← String.toList_inj, String.toList_ofList]
  rcases whole with rfl | ⟨rest, rfl⟩
  · exact List.takeWhile_eq_self_iff.mpr before
  · rw [String.append_assoc, String.toList_append, List.takeWhile_append_of_pos before]
    simp

theorem firstLine_spec (text : String) : FirstLine text (firstLine text) := by
  have cut := List.takeWhile_append_dropWhile (p := (· ≠ '\n')) (l := text.toList)
  refine ⟨?_, ?_⟩
  · rw [firstLine, String.toList_ofList]
    intro member
    simpa using List.mem_takeWhile_imp member
  · cases behind : text.toList.dropWhile (· ≠ '\n') with
    | nil =>
      left
      rw [behind, List.append_nil] at cut
      rw [firstLine, cut, String.ofList_toList]
    | cons c rest =>
      have feed := List.head?_dropWhile_not (· ≠ '\n') text.toList
      rw [behind] at cut feed
      obtain rfl : c = '\n' := by simpa using feed
      refine .inr ⟨String.ofList rest, ?_⟩
      rw [← String.toList_inj, ← cut, firstLine]
      simp

/-! ## All lines -/

/-- A view that shows nothing of an empty piece is the same of the lines as of the pieces between
the breaks. -/
theorem flatMap_allLines {α : Type} {view : List Char → List α} (nothing : view [] = [])
    (feed : isBreak '\n' = true) (returns : isBreak '\r' = true) (text : List Char) :
    (allLines isBreak text).flatMap view = (text.splitOnP isBreak).flatMap view := by
  -- The first pieces are equal, so a character that is no break can be put before them.
  have pieces : ∃ first lines others,
      (cutLines isBreak text).1 ++ [(cutLines isBreak text).2] = first :: lines ∧
        text.splitOnP isBreak = first :: others ∧ lines.flatMap view = others.flatMap view := by
    fun_induction cutLines isBreak text with
    | case1 => exact ⟨[], [], [], rfl, List.splitOnP_nil, rfl⟩
    | case2 rest lines remainder cut ih =>
      obtain ⟨first, more, others, left, right, same⟩ := ih
      rw [cut] at left
      refine ⟨[], first :: more, [] :: first :: others, by simp [← left], ?_, ?_⟩
      · simp [List.splitOnP_cons_eq_if_modifyHead, feed, returns, right]
      · simp [nothing, same]
    | case3 c rest _ lines remainder cut ends ih =>
      obtain ⟨first, more, others, left, right, same⟩ := ih
      rw [cut] at left
      refine ⟨[], first :: more, first :: others, by simp [← left], ?_, by simp [same]⟩
      simp [List.splitOnP_cons_eq_if_modifyHead, ends, right]
    | case4 c rest _ remainder inside cut ih =>
      obtain ⟨first, more, others, left, right, same⟩ := ih
      rw [cut] at left
      simp only [List.nil_append, List.cons.injEq] at left
      obtain ⟨rfl, rfl⟩ := left
      refine ⟨c :: remainder, [], others, rfl, ?_, same⟩
      simp [List.splitOnP_cons_eq_if_modifyHead, inside, right]
    | case5 c rest _ remainder inside line lines cut ih =>
      obtain ⟨first, more, others, left, right, same⟩ := ih
      rw [cut] at left
      simp only [List.cons_append, List.cons.injEq] at left
      obtain ⟨rfl, rfl⟩ := left
      refine ⟨c :: line, lines ++ [remainder], others, rfl, ?_, same⟩
      simp [List.splitOnP_cons_eq_if_modifyHead, inside, right]
  obtain ⟨first, lines, others, left, right, same⟩ := pieces
  rw [right, List.flatMap_cons, ← same, ← List.flatMap_cons, ← left]
  unfold allLines
  dsimp only
  split
  · rename_i empty
    rw [List.isEmpty_iff.mp empty]
    simp [nothing]
  · rfl

end Earley.Text
