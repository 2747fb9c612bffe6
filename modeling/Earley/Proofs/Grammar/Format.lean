import Earley.Proofs.Grammar.Loading
import Earley.Proofs.Text.Split

/-!
# The format of a written grammar

Each line of a written grammar is blank, or it has one uppercase letter, an arrow and bodies between
bars; a body is the mark of the empty alternative alone, or ASCII letters, at least one.  Loading
takes the lines of this format and no others, and the productions are those that the lines write,
in reading order and without the repetitions.
-/

set_option autoImplicit false

namespace Earley

/-- What stands between two bars. -/
structure WrittenBody where
  characters : List Char
  written : characters = [emptyMark] ∨ characters ≠ [] ∧ ∀ c ∈ characters, c.isAlpha = true

/-- A line that writes productions. -/
structure WrittenRule where
  head : Char
  bodies : List WrittenBody
  head_upper : head.isUpper = true
  bodies_ne_nil : bodies ≠ []

def WrittenRule.characters (rule : WrittenRule) : List Char :=
  rule.head :: '-' :: '>' :: ['|'].intercalate (rule.bodies.map WrittenBody.characters)

def Symbol.written (c : Char) : Symbol :=
  if c = emptyMark then .empty
  else if c.isUpper then .nonterminal (String.singleton c)
  else .terminal (String.singleton c)

theorem Symbol.isEpsilon_written {c : Char} : (written c).isEpsilon = true ↔ c = emptyMark := by
  by_cases mark : c = emptyMark
  · simp [written, mark, Symbol.empty, isEpsilon]
  · by_cases upper : c.isUpper = true <;> simp [written, mark, upper, isEpsilon]

theorem isAlpha_iff {c : Char} : c.isAlpha = true ↔ c.isUpper = true ∨ c.isLower = true :=
  Bool.or_eq_true_iff

theorem Symbol.ofChar_eq_written {c : Char} (readable : c = emptyMark ∨ c.isAlpha = true) :
    ofChar c = .ok (written c) := by
  by_cases mark : c = emptyMark
  · simp [ofChar, written, mark]
  · have letter := readable.resolve_left mark
    by_cases upper : c.isUpper = true
    · simp [ofChar, written, mark, upper]
    · have lower : c.isLower = true := (isAlpha_iff.mp letter).resolve_left upper
      simp [ofChar, written, mark, upper, lower]

theorem Symbol.readable_of_ofChar {c : Char} {s : Symbol} (read : ofChar c = .ok s) :
    c = emptyMark ∨ c.isAlpha = true := by
  by_cases mark : c = emptyMark
  · exact .inl mark
  · by_cases upper : c.isUpper = true
    · exact .inr (isAlpha_iff.mpr (.inl upper))
    · by_cases lower : c.isLower = true
      · exact .inr (isAlpha_iff.mpr (.inr lower))
      · simp [ofChar, mark, upper, lower] at read

/-! ## Bodies -/

namespace WrittenBody

theorem characters_ne_nil (body : WrittenBody) : body.characters ≠ [] := by
  rcases body.written with mark | ⟨filled, _⟩
  · simp [mark]
  · exact filled

theorem readable (body : WrittenBody) {c : Char} (member : c ∈ body.characters) :
    c = emptyMark ∨ c.isAlpha = true := by
  rcases body.written with mark | ⟨_, letters⟩
  · exact .inl (by simpa [mark] using member)
  · exact .inr (letters c member)

theorem not_mem_of_not_readable (body : WrittenBody) {c : Char} (other : c ≠ emptyMark)
    (sign : c.isAlpha = false) : c ∉ body.characters := by
  intro member
  rcases body.readable member with mark | letter
  · exact other mark
  · simp [sign] at letter

def production (head : Char) (body : WrittenBody) : Production where
  head := String.singleton head
  body := body.characters.map Symbol.written
  body_ne_nil := by simpa using body.characters_ne_nil
  epsilon_alone := by
    intro long s member
    rcases body.written with mark | ⟨_, letters⟩
    · simp [mark] at long
    · obtain ⟨c, inBody, rfl⟩ := List.mem_map.mp member
      rw [Bool.eq_false_iff, Ne, Symbol.isEpsilon_written]
      rintro rfl
      simpa [emptyMark] using letters _ inBody

theorem ofText_eq {head : Char} (upper : head.isUpper = true) (body : WrittenBody) :
    Production.ofText (String.ofList [head]) (String.ofList body.characters) =
      .ok (body.production head) := by
  have other : head ≠ emptyMark := by
    rintro rfl
    simp [emptyMark] at upper
  rw [Production.ofText_eq_ok_iff]
  refine ⟨by simp [Symbol.ofText, Symbol.ofChar, other, upper]; rfl, ?_⟩
  rw [String.toList_ofList, production, List.map_map]
  exact List.map_congr_left fun c member => Symbol.ofChar_eq_written (body.readable member)

/-- If two texts write a production, then the head is uppercase and the body has the format. -/
theorem exists_of_ofText {head : Char} {characters : List Char} {p : Production}
    (read : Production.ofText (String.ofList [head]) (String.ofList characters) = .ok p) :
    head.isUpper = true ∧ ∃ body : WrittenBody, body.characters = characters := by
  rw [Production.ofText_eq_ok_iff, String.toList_ofList] at read
  obtain ⟨first, symbols⟩ := read
  have readable : ∀ c ∈ characters, c = emptyMark ∨ c.isAlpha = true := by
    intro c member
    have listed := List.mem_map_of_mem (f := Symbol.ofChar) member
    rw [symbols] at listed
    obtain ⟨s, _, same⟩ := List.mem_map.mp listed
    exact Symbol.readable_of_ofChar same.symm
  have written : characters.map Symbol.written = p.body := by
    have both : (characters.map Symbol.written).map (.ok : Symbol → Except GrammarError Symbol) =
        p.body.map .ok := by
      rw [← symbols, List.map_map]
      exact List.map_congr_left fun c member => (Symbol.ofChar_eq_written (readable c member)).symm
    exact (List.map_inj_right fun _ _ => Except.ok.inj).mp both
  refine ⟨?_, ⟨⟨characters, ?_⟩, rfl⟩⟩
  · by_cases upper : head.isUpper = true
    · exact upper
    · by_cases mark : head = emptyMark
      · simp [Symbol.ofText, Symbol.ofChar, mark, Symbol.empty, Production.lhs] at first
      · by_cases lower : head.isLower = true
        · simp [Symbol.ofText, Symbol.ofChar, mark, upper, lower, Production.lhs] at first
        · simp [Symbol.ofText, Symbol.ofChar, mark, upper, lower] at first
  · by_cases marked : emptyMark ∈ characters
    · -- An epsilon is alone in a body, so its mark is the only character.
      left
      have short : ¬ 1 < characters.length := by
        intro long
        have alone := p.epsilon_alone (by simpa [← written] using long)
        have epsilon := alone (Symbol.written emptyMark)
          (by rw [← written]; exact List.mem_map_of_mem marked)
        rw [Symbol.isEpsilon_written.mpr rfl] at epsilon
        cases epsilon
      obtain ⟨c, rfl⟩ := List.length_eq_one_iff.mp
        (Nat.le_antisymm (Nat.not_lt.mp short) (List.length_pos_of_mem marked))
      rw [List.mem_singleton.mp marked]
    · right
      have filled := p.body_ne_nil
      rw [← written] at filled
      refine ⟨fun empty => filled (by rw [empty]; rfl), fun c member => ?_⟩
      exact (readable c member).resolve_left fun mark => marked (mark ▸ member)

end WrittenBody

/-! ## Lines -/

theorem Text.isUppercase_of_isUpper {c : Char} (upper : c.isUpper = true) :
    isUppercase c = true := by
  have low : 65 ≤ c.toNat ∧ c.toNat ≤ 90 := of_decide_eq_true upper
  simp [isUppercase, inRanges, uppercaseRanges, low]

theorem arrow_toList : arrow.toList = ['-', '>'] := by decide

theorem bar_toList : bar.toList = ['|'] := by decide

namespace WrittenRule

def productions (rule : WrittenRule) : List Production :=
  rule.bodies.map (·.production rule.head)

theorem not_mem_characters (rule : WrittenRule) {c : Char} (other : c ≠ emptyMark)
    (sign : c.isAlpha = false) : ∀ part ∈ rule.bodies.map WrittenBody.characters, c ∉ part := by
  intro part listed
  obtain ⟨body, _, rfl⟩ := List.mem_map.mp listed
  exact body.not_mem_of_not_readable other sign

theorem parse_eq {line : String} (rule : WrittenRule) (written : line.toList = rule.characters) :
    RuleLine.parse line = .ok ⟨String.ofList [rule.head],
      (rule.bodies.map WrittenBody.characters).map String.ofList⟩ := by
  have other : ¬ '-' = rule.head := by
    intro same
    simpa [← same] using rule.head_upper
  have first : Text.cut ['-', '>'] rule.characters =
      some ([rule.head], ['|'].intercalate (rule.bodies.map WrittenBody.characters)) := by
    simp [characters, Text.cut, other]
  have free : '-' ∉ ['|'].intercalate (rule.bodies.map WrittenBody.characters) :=
    Text.not_mem_intercalate (by decide) (rule.not_mem_characters (by decide) (by decide))
  have second : Text.cut ['-', '>'] (['|'].intercalate
      (rule.bodies.map WrittenBody.characters)) = none := Text.cut_eq_none free
  have head : RuleLine.isHead [rule.head] = true := Text.isUppercase_of_isUpper rule.head_upper
  have parts := Text.pieces_intercalate (by simpa using rule.bodies_ne_nil)
    (rule.not_mem_characters (c := '|') (by decide) (by decide))
  have filled : [] ∉ rule.bodies.map WrittenBody.characters := by
    intro listed
    obtain ⟨body, _, empty⟩ := List.mem_map.mp listed
    exact body.characters_ne_nil empty
  unfold RuleLine.parse
  rw [arrow_toList, bar_toList, written, first]
  simp [second, head, parts, filled]

end WrittenRule

theorem RuleLine.eq_of_parse {line : String} {found : RuleLine} (parsed : parse line = .ok found) :
    ∃ c body, line.toList = c :: '-' :: '>' :: body ∧
      found = ⟨String.ofList [c], (Text.pieces ['|'] body).map String.ofList⟩ := by
  unfold parse at parsed
  rw [arrow_toList, bar_toList] at parsed
  split at parsed
  · cases parsed
  · rename_i head body cut
    split at parsed
    · cases parsed
    · split at parsed
      · cases parsed
      · rename_i headed
        dsimp only at parsed
        split at parsed
        · cases parsed
        · cases parsed
          have whole := Text.eq_append_of_cut cut
          match head, headed with
          | [c], _ => exact ⟨c, body, whole, rfl⟩

theorem WrittenBody.exists_map {parts : List (List Char)}
    (written : ∀ part ∈ parts, ∃ body : WrittenBody, body.characters = part) :
    ∃ bodies : List WrittenBody, bodies.map characters = parts := by
  induction parts with
  | nil => exact ⟨[], rfl⟩
  | cons part parts ih =>
    obtain ⟨body, rfl⟩ := written part List.mem_cons_self
    obtain ⟨bodies, rfl⟩ := ih fun other member => written other (List.mem_cons_of_mem _ member)
    exact ⟨body :: bodies, rfl⟩

/-- If a line is taken apart and all its alternatives are read, then it has the format. -/
theorem WrittenRule.exists_of_parse {line : String} {found : RuleLine}
    (parsed : RuleLine.parse line = .ok found)
    (read : ∀ text ∈ found.alternatives, ∃ p, Production.ofText found.head text = .ok p) :
    ∃ rule : WrittenRule, line.toList = rule.characters := by
  obtain ⟨c, body, whole, rfl⟩ := RuleLine.eq_of_parse parsed
  have written : ∀ part ∈ Text.pieces ['|'] body, c.isUpper = true ∧
      ∃ body : WrittenBody, body.characters = part := by
    intro part member
    obtain ⟨p, made⟩ := read _ (List.mem_map_of_mem member)
    exact WrittenBody.exists_of_ofText made
  obtain ⟨bodies, parts⟩ := WrittenBody.exists_map fun part member => (written part member).2
  have together := Text.intercalate_pieces '|' body
  cases bodies with
  | nil =>
    rw [← parts] at together
    rw [← together] at parts
    simp [Text.pieces, Text.piecesFrom] at parts
  | cons first rest =>
    have upper := (written first.characters (by simp [← parts])).1
    refine ⟨⟨c, first :: rest, upper, List.cons_ne_nil _ _⟩, ?_⟩
    rw [whole, characters, parts, together]

/-! ## Loading -/

namespace Grammar

theorem addRuleLine_ok (grammar : Grammar) {head : Char} (upper : head.isUpper = true)
    (bodies : List WrittenBody) :
    ∃ after, grammar.addRuleLine ⟨String.ofList [head],
        (bodies.map WrittenBody.characters).map String.ofList⟩ = .ok after ∧
      after.productions =
        (bodies.map (·.production head)).foldl appendNew grammar.productions := by
  unfold addRuleLine
  dsimp only
  induction bodies generalizing grammar with
  | nil => exact ⟨grammar, rfl, rfl⟩
  | cons body bodies ih =>
    obtain ⟨middle, inserted, grown⟩ :=
      grammar.insert_ok (p := body.production head) (singleton_ne_augmentedHead head)
    obtain ⟨after, added, all⟩ := ih middle
    refine ⟨after, ?_, by rw [all, grown]; rfl⟩
    rw [List.map_cons, List.map_cons, List.foldlM_cons, WrittenBody.ofText_eq upper]
    simp only [bind, Except.bind, inserted]
    exact added

theorem addLine_blank (grammar : Grammar) {line : String} (blank : Text.strip line = "") :
    grammar.addLine line = .ok grammar := by
  simp [addLine, blank]

theorem addLine_rule (grammar : Grammar) {line : String} {rule : WrittenRule}
    (written : (Text.strip line).toList = rule.characters) :
    ∃ after, grammar.addLine line = .ok after ∧
      after.productions = rule.productions.foldl appendNew grammar.productions := by
  have filled : Text.strip line ≠ "" := by
    intro empty
    simp [empty, WrittenRule.characters] at written
  obtain ⟨after, added, grown⟩ := grammar.addRuleLine_ok rule.head_upper rule.bodies
  refine ⟨after, ?_, grown⟩
  simp only [addLine, if_neg filled, rule.parse_eq written, bind, Except.bind]
  exact added

end Grammar

/-- The line is blank or writes productions. -/
def InFormat (line : String) : Prop :=
  Text.strip line = "" ∨ ∃ rule : WrittenRule, (Text.strip line).toList = rule.characters

theorem inFormat_of_addLine {before after : Grammar} {line : String}
    (added : before.addLine line = .ok after) : InFormat line := by
  rcases Grammar.addLine_cases added with ⟨blank, _⟩ | ⟨found, parsed, added⟩
  · exact .inl blank
  · refine .inr (WrittenRule.exists_of_parse parsed fun text member => ?_)
    obtain ⟨earlier, later, inserted⟩ := foldlM_step added text member
    obtain ⟨p, read, _⟩ := bind_eq_ok_iff.mp inserted
    exact ⟨p, read⟩

/-- What some lines write, in reading order and with the repetitions. -/
inductive WrittenLines : List String → List Production → Prop
  | nil : WrittenLines [] []
  | blank {line : String} {lines : List String} {productions : List Production}
      (blank : Text.strip line = "") (rest : WrittenLines lines productions) :
      WrittenLines (line :: lines) productions
  | rule {line : String} {lines : List String} {productions : List Production} {rule : WrittenRule}
      (written : (Text.strip line).toList = rule.characters)
      (rest : WrittenLines lines productions) :
      WrittenLines (line :: lines) (rule.productions ++ productions)

theorem exists_written {lines : List String} (format : ∀ line ∈ lines, InFormat line) :
    ∃ productions, WrittenLines lines productions := by
  induction lines with
  | nil => exact ⟨[], .nil⟩
  | cons line lines ih =>
    obtain ⟨productions, rest⟩ :=
      ih fun other member => format other (List.mem_cons_of_mem _ member)
    rcases format line List.mem_cons_self with blank | ⟨rule, written⟩
    · exact ⟨productions, .blank blank rest⟩
    · exact ⟨rule.productions ++ productions, .rule written rest⟩

theorem WrittenLines.loads {lines : List String} {productions : List Production}
    (written : WrittenLines lines productions) (before : Grammar) :
    ∃ after, lines.foldlM Grammar.addLine before = .ok after ∧
      after.productions = productions.foldl appendNew before.productions := by
  induction written generalizing before with
  | nil => exact ⟨before, rfl, rfl⟩
  | blank blank _ ih =>
    obtain ⟨after, loaded, grown⟩ := ih before
    refine ⟨after, ?_, grown⟩
    rw [List.foldlM_cons, before.addLine_blank blank]
    exact loaded
  | rule written _ ih =>
    obtain ⟨middle, added, first⟩ := before.addLine_rule written
    obtain ⟨after, loaded, grown⟩ := ih middle
    refine ⟨after, ?_, by rw [grown, first, List.foldl_append]⟩
    rw [List.foldlM_cons, added]
    exact loaded

/-- Lines are loaded exactly when each one is in the format; otherwise there is an error.  The
productions are those that the lines write, in reading order and without the repetitions. -/
theorem Grammar.ofLines_reads_format (lines : List String) :
    ((∃ grammar, ofLines lines = .ok grammar) ↔ ∀ line ∈ lines, InFormat line) ∧
      ((∀ line ∈ lines, InFormat line) → ∃ productions, WrittenLines lines productions) ∧
      (∀ productions, WrittenLines lines productions →
        ∃ grammar, ofLines lines = .ok grammar ∧ grammar.productions = productions.eraseDups) ∧
      ((¬ ∀ line ∈ lines, InFormat line) → ∃ error, ofLines lines = .error error) := by
  have loads : ∀ productions, WrittenLines lines productions →
      ∃ grammar, ofLines lines = .ok grammar ∧ grammar.productions = productions.eraseDups := by
    intro productions written
    obtain ⟨grammar, loaded, grown⟩ := written.loads empty
    exact ⟨grammar, loaded, by rw [grown, ← foldl_appendNew_nil]; rfl⟩
  have format : ∀ grammar, ofLines lines = .ok grammar → ∀ line ∈ lines, InFormat line := by
    intro grammar loaded line member
    obtain ⟨earlier, later, added⟩ := foldlM_step loaded line member
    exact inFormat_of_addLine added
  refine ⟨⟨fun ⟨grammar, loaded⟩ => format grammar loaded, fun all => ?_⟩, exists_written, loads,
    fun other => ?_⟩
  · obtain ⟨productions, written⟩ := exists_written all
    obtain ⟨grammar, loaded, _⟩ := loads productions written
    exact ⟨grammar, loaded⟩
  · cases loaded : ofLines lines with
    | error error => exact ⟨error, rfl⟩
    | ok grammar => exact absurd (format grammar loaded) other

end Earley
