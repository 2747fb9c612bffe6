import Earley.Proofs.CommandLine.Verdict

/-!
# The status of a run

Arguments that can be read lead to a status, unless the name of the file has a null character, the
file is not UTF-8, or the word is to be read from an input that is closed.  Nothing guards against
these.  Arguments are texts here, which have no lone surrogates, an input that is not closed gives a
text, and the output takes every text.
-/

set_option autoImplicit false

namespace Earley.CommandLine

variable {arguments : List String} {options : Options} {opened : Except FileError OpenedFile}
  {input : Input} {file : OpenedFile} {lines : List String} {ending : Ending} {grammar : Grammar}

/-- What nothing in the program guards against, and how it ends a run. -/
inductive Unguarded (options : Options) (opened : Except FileError OpenedFile) (input : Input) :
    Escape → Prop
  | nullInName (null : '\x00' ∈ options.grammarFile.toList) :
      Unguarded options opened input .nullInName
  | undecodable {file : OpenedFile} {lines : List String} {grammar : Grammar}
      {failure : Text.Utf8.Failure} (opens : opened = .ok file)
      (delivers : Delivers file lines .undecodable) (loaded : Grammar.ofLines lines = .ok grammar) :
      Unguarded options opened input (.undecodable failure)
  | lostInput {file : OpenedFile} {lines : List String} {grammar : Grammar}
      (opens : opened = .ok file) (delivers : Delivers file lines .complete)
      (loaded : Grammar.ofLines lines = .ok grammar) (absent : options.word = none)
      (closed : input = .closed) : Unguarded options opened input .lostInput

/-! ## Runs with given options -/

theorem asked_cases (options : Options) (input : Input) :
    (∃ word, Asked options input word) ∨
      options.word = none ∧ (input = .closed ∨ input = .text "") := by
  cases given : options.word with
  | some word => exact .inl ⟨word, .given given⟩
  | none =>
    cases input with
    | closed => exact .inr ⟨rfl, .inl rfl⟩
    | text content =>
      by_cases solid : content = ""
      · exact .inr ⟨rfl, .inr (congrArg _ solid)⟩
      · exact .inl ⟨_, .read given rfl solid (Text.firstLine_spec content) rfl⟩

theorem judgeGiven_closed (grammar : Grammar) (absent : options.word = none) :
    (judgeGiven options grammar .closed).status = .error .lostInput := by
  simp [judgeGiven, absent]

section

variable (named : '\x00' ∉ options.grammarFile.toList)

include named

theorem runWith_malformed {error : GrammarError} (delivers : Delivers file lines ending)
    (wrong : Grammar.ofLines lines = .error error) (input : Input) :
    runWith options (.ok file) input = .refusal "" (error.message ++ "\n") := by
  obtain ⟨failure, read⟩ := loadFile_of_delivers delivers
  rw [wrong] at read
  exact runWith_failed named read input

variable (loaded : Grammar.ofLines lines = .ok grammar) (input : Input)

include loaded

theorem runWith_complete (delivers : Delivers file lines .complete) :
    runWith options (.ok file) input = judgeGiven options grammar input := by
  obtain ⟨failure, read⟩ := loadFile_of_delivers delivers
  rw [loaded] at read
  exact runWith_loaded named read input

theorem runWith_broken {error : FileError} (delivers : Delivers file lines (.broken error)) :
    runWith options (.ok file) input = .refusal "" (error.message ++ "\n") := by
  obtain ⟨failure, read⟩ := loadFile_of_delivers delivers
  rw [loaded] at read
  exact runWith_failed named read input

theorem runWith_undecodable (delivers : Delivers file lines .undecodable) :
    ∃ failure, (runWith options (.ok file) input).status = .error (.undecodable failure) := by
  obtain ⟨failure, read⟩ := loadFile_of_delivers delivers
  rw [loaded] at read
  exact ⟨failure, by rw [runWith_failed named read]; rfl⟩

end

theorem judgeGiven_cases (options : Options) (grammar : Grammar) (input : Input) :
    (∃ status ≤ 2, (judgeGiven options grammar input).status = .ok status) ∨
      options.word = none ∧ input = .closed := by
  rcases asked_cases options input with ⟨word, asked⟩ | ⟨absent, closed | rfl⟩
  · obtain ⟨_, _, status, _⟩ := judge_verdict options grammar
      (if options.word.isSome then "" else prompt) word
    rw [judgeGiven_asked grammar asked, status]
    refine .inl ⟨_, ?_, rfl⟩
    split <;> decide
  · exact .inr ⟨absent, closed⟩
  · rw [judgeGiven_without grammar absent]
    exact .inl ⟨2, Nat.le_refl 2, rfl⟩

/-- A run ends with a status, or it meets what is not guarded against. -/
theorem runWith_cases (options : Options) (opened : Except FileError OpenedFile) (input : Input) :
    (∃ status ≤ 2, (runWith options opened input).status = .ok status) ∨
      ∃ escape, Unguarded options opened input escape ∧
        (runWith options opened input).status = .error escape := by
  by_cases null : '\x00' ∈ options.grammarFile.toList
  · exact .inr ⟨.nullInName, .nullInName null, by simp [runWith, load, null, LoadError.report]⟩
  cases opened with
  | error error =>
    rw [runWith_unopened null]
    exact .inl ⟨2, Nat.le_refl 2, rfl⟩
  | ok file =>
    obtain ⟨lines, ending, delivers⟩ := exists_delivers file
    cases loaded : Grammar.ofLines lines with
    | error error =>
      rw [runWith_malformed null delivers loaded]
      exact .inl ⟨2, Nat.le_refl 2, rfl⟩
    | ok grammar =>
      cases ending with
      | complete =>
        rw [runWith_complete null loaded input delivers]
        rcases judgeGiven_cases options grammar input with status | ⟨absent, rfl⟩
        · exact .inl status
        · exact .inr ⟨_, .lostInput rfl delivers loaded absent rfl, judgeGiven_closed grammar absent⟩
      | broken error =>
        rw [runWith_broken null loaded input delivers]
        exact .inl ⟨2, Nat.le_refl 2, rfl⟩
      | undecodable =>
        obtain ⟨failure, escaped⟩ := runWith_undecodable null loaded input delivers
        exact .inr ⟨_, .undecodable rfl delivers loaded, escaped⟩

theorem Unguarded.escapes {escape : Escape} (unguarded : Unguarded options opened input escape) :
    ∃ actual, (runWith options opened input).status = .error actual := by
  -- A null character in the name ends the run before anything else can.
  by_cases null : '\x00' ∈ options.grammarFile.toList
  · exact ⟨.nullInName, by simp [runWith, load, null, LoadError.report]⟩
  cases unguarded with
  | nullInName contained => exact absurd contained null
  | undecodable opens delivers loaded =>
    subst opens
    obtain ⟨_, escaped⟩ := runWith_undecodable null loaded input delivers
    exact ⟨_, escaped⟩
  | lostInput opens delivers loaded absent closed =>
    subst opens closed
    rw [runWith_complete null loaded .closed delivers]
    exact ⟨_, judgeGiven_closed _ absent⟩

/-! ## Runs with given arguments -/

theorem run_eq (parsed : parse arguments = .ok options)
    (openFile : String → Except FileError OpenedFile) (input : Input) :
    run arguments openFile input = runWith options (openFile options.grammarFile) input := by
  unfold run
  rw [parsed]

/-- A run with arguments that can be read ends with status 0, 1 or 2, or without one, and without
one only through what is not guarded against, which always ends it so; no fault of a chart does.  A
file that cannot be opened or read to its end, a malformed line and an empty input are reported on
the error output, and the status is 2. -/
theorem run_status (parsed : parse arguments = .ok options)
    (openFile : String → Except FileError OpenedFile) (input : Input) :
    (∀ status, (run arguments openFile input).status = .ok status → status ≤ 2) ∧
    (∀ escape, (run arguments openFile input).status = .error escape →
      Unguarded options (openFile options.grammarFile) input escape) ∧
    (∀ escape, Unguarded options (openFile options.grammarFile) input escape →
      ∃ actual, (run arguments openFile input).status = .error actual) ∧
    ('\x00' ∉ options.grammarFile.toList →
      (∀ error, openFile options.grammarFile = .error error →
        run arguments openFile input =
          .refusal "" (error.messageFor options.grammarFile ++ "\n")) ∧
      ∀ file, openFile options.grammarFile = .ok file →
        (∃ lines ending, Delivers file lines ending) ∧
        ∀ lines ending, Delivers file lines ending →
          (∀ error, Grammar.ofLines lines = .error error →
            run arguments openFile input = .refusal "" (error.message ++ "\n")) ∧
          ∀ grammar, Grammar.ofLines lines = .ok grammar →
            (∀ error, ending = .broken error →
              run arguments openFile input = .refusal "" (error.message ++ "\n")) ∧
            (ending = .complete → options.word = none → input = .text "" →
              ∃ log, run arguments openFile input =
                .refusal prompt (log ++ "No input string given\n"))) := by
  rw [run_eq parsed]
  generalize openFile options.grammarFile = opened
  refine ⟨?_, ?_, fun _ unguarded => unguarded.escapes, fun named => ⟨?_, ?_⟩⟩
  · intro status ended
    rcases runWith_cases options opened input with ⟨other, low, same⟩ | ⟨_, _, escaped⟩
    · rw [ended] at same
      cases same
      exact low
    · rw [ended] at escaped
      cases escaped
  · intro escape escaped
    rcases runWith_cases options opened input with ⟨_, _, same⟩ | ⟨_, unguarded, same⟩
    · rw [escaped] at same
      cases same
    · rw [escaped] at same
      cases same
      exact unguarded
  · rintro error rfl
    exact runWith_unopened named error input
  · rintro file rfl
    refine ⟨exists_delivers file, fun lines ending delivers => ⟨?_, ?_⟩⟩
    · exact fun error wrong => runWith_malformed named delivers wrong input
    · intro grammar loaded
      refine ⟨?_, ?_⟩
      · rintro error rfl
        exact runWith_broken named loaded input delivers
      · rintro rfl absent rfl
        rw [runWith_complete named loaded (.text "") delivers, judgeGiven_without grammar absent]
        exact ⟨_, rfl⟩

def Options.judging (path : String) (word : Option String) : Options where
  grammarFile := path
  word := word

/-- A malformed line, and in a later piece a byte that is in no text. -/
def OpenedFile.spoiled : OpenedFile where
  pieces := ["S=a\n".toUTF8.data.toList, [0xFF]]

theorem OpenedFile.delivers_spoiled : Delivers .spoiled ["S=a"] .undecodable := by
  have cut : OpenedFile.spoiled.pieces = ["S=a\n".toUTF8.data.toList] ++ [0xFF] :: [] := rfl
  have start : Text.Utf8.Legible ["S=a\n".toUTF8.data.toList].flatten "S=a\n".toList [] :=
    ⟨by decide, .inl rfl⟩
  refine .flawed cut start fun text tail legible => ?_
  have read := Text.Utf8.ready_decode_iff.mpr legible
  cases read

theorem OpenedFile.delivers_brackets : Delivers .brackets ["S->aSbS|~"] .complete := by
  have encoded : OpenedFile.brackets.pieces.flatten = "S->aSbS|~\n".toUTF8.data.toList := by decide
  exact .whole rfl encoded

theorem run_status_refusals :
    parse ["g"] = .ok (.judging "g" none) ∧
      run ["g"] (fun _ => .error .notFound) .closed =
        .refusal "" "[Errno 2] No such file or directory: 'g'\n" ∧
      run ["g"] (fun _ => .ok .spoiled) .closed =
        .refusal "" "Missing '->' in production 'S=a'\n" ∧
      ∃ escape, (run ["g"] (fun _ => .ok .brackets) .closed).status = .error escape := by
  have parsed : parse ["g"] = .ok (.judging "g" none) := rfl
  have named : '\x00' ∉ (Options.judging "g" none).grammarFile.toList := by decide
  have unfound : FileError.notFound.messageFor "g" ++ "\n" =
      "[Errno 2] No such file or directory: 'g'\n" := by decide +kernel
  have arrowless : (GrammarError.missingArrow "S=a").message ++ "\n" =
      "Missing '->' in production 'S=a'\n" := by decide +kernel
  have wrong : Grammar.ofLines ["S=a"] = .error (.missingArrow "S=a") := rfl
  have loaded : Grammar.ofLines ["S->aSbS|~"] = .ok .brackets := rfl
  obtain ⟨_, _, _, unopened⟩ := run_status parsed (fun _ => .error .notFound) .closed
  obtain ⟨_, _, _, refused⟩ := run_status parsed (fun _ => .ok .spoiled) .closed
  obtain ⟨_, _, escapes, _⟩ := run_status parsed (fun _ => .ok .brackets) .closed
  refine ⟨parsed, ?_, ?_, escapes _ (.lostInput rfl OpenedFile.delivers_brackets loaded rfl rfl)⟩
  · rw [← unfound]
    exact (unopened named).1 .notFound rfl
  · rw [← arrowless]
    exact (((refused named).2 .spoiled rfl).2 _ _ OpenedFile.delivers_spoiled).1 _ wrong

/-- Not every run with arguments that can be read ends with a status. -/
theorem run_escapes :
    parse ["g", "ab"] = .ok (.judging "g" "ab") ∧
      (run ["g", "ab"] (fun _ => .ok ⟨[[0xFF]], none⟩) (.text "")).status =
        .error (.undecodable ⟨.startByte, 0, [0xFF]⟩) ∧
      parse ["\x00", "ab"] = .ok (.judging "\x00" "ab") ∧
      (run ["\x00", "ab"] (fun _ => .error .notFound) (.text "")).status = .error .nullInName ∧
      parse ["g"] = .ok (.judging "g" none) ∧
      (run ["g"] (fun _ => .ok .brackets) .closed).status = .error .lostInput :=
  ⟨rfl, rfl, rfl, rfl, rfl, rfl⟩

end Earley.CommandLine
