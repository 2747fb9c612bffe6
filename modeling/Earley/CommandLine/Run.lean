import Earley.Chart.Drawing
import Earley.Chart.Table
import Earley.CommandLine.Arguments
import Earley.CommandLine.Reader
import Earley.Recognition

/-!
# A run of the program

A run reads the arguments, loads the grammar file, takes the word from the arguments or the first
line of the input, builds the chart, prints or draws it on request and says whether the word
belongs to the language.  The status is 0 or 1 for the two verdicts and 2 for arguments, a file or
an input that cannot be used.  A file name with a null character, a file that is not UTF-8 and an
input that is closed when the word is asked for end the run without a status.
-/

set_option autoImplicit false

namespace Earley.CommandLine

/-- What ends a run without a status. -/
inductive Escape where
  | nullInName
  | undecodable (failure : Text.Utf8.Failure)
  | lostInput
  | fault (fault : Fault)
  deriving DecidableEq

def Escape.message : Escape → String
  | .nullInName => "embedded null byte"
  | .undecodable failure => failure.message
  | .lostInput => "input(): lost sys.stdin"
  | .fault cause => cause.message

structure Report where
  output : String
  errors : String
  status : Except Escape Nat
  drawing : Option Drawing

/-- A run that ends with status 2 and a text on the error output. -/
def Report.refusal (output errors : String) : Report := ⟨output, errors, .ok 2, none⟩

def Interruption.report : Interruption → Report
  | .help => ⟨helpText, "", .ok 0, none⟩
  | .misuse wrong => .refusal "" (misuseText wrong)

def needed : Level → Nat
  | .info => 1
  | .debug => 2

/-- The events that a verbosity lets through, each in a line with its level and source. -/
def writtenLog (verbosity : Nat) (log : List Event) : String :=
  String.join ((log.filter fun event => needed event.level ≤ verbosity).map fun event =>
    event.level.name ++ " " ++ event.source ++ ": " ++ event.text ++ "\n")

def LoadError.report (path : String) : LoadError → Report
  | .unopened error => .refusal "" (error.messageFor path ++ "\n")
  | .broken error => .refusal "" (error.message ++ "\n")
  | .malformed error => .refusal "" (error.message ++ "\n")
  | .nullInName => ⟨"", "", .error .nullInName, none⟩
  | .undecodable failure => ⟨"", "", .error (.undecodable failure), none⟩

inductive Input where
  | closed
  | text (content : String)
  deriving DecidableEq

def prompt : String := "Enter string\n"

/-- The first line of an input without the blanks around it; an empty input has no line. -/
def readWord (content : String) : Option String :=
  if content = "" then none else some (Text.strip (Text.firstLine content))

def verdict (accepted : Bool) : String :=
  if accepted then "This string belongs to your language\n"
  else "This string does not belong to your language\n"

def dumped (options : Options) (chart : Chart) : Except Fault String :=
  if options.dump then chart.rows.map fun rows => Table.render rows ++ "\n" else .ok ""

def drawn (options : Options) (chart : Chart) : Except Fault (Option Drawing) :=
  if options.draw then chart.drawing.map some else .ok none

/-- Judges a word by a grammar that was loaded; `output` is what was written before. -/
def judge (options : Options) (grammar : Grammar) (output word : String) : Report :=
  let built := Recognition.build grammar word options.start
  let errors := writtenLog options.verbosity (grammar.loadedEvent :: built.log)
  match built.fault with
  | some fault => ⟨output, errors, .error (.fault fault), none⟩
  | none =>
    match dumped options built.chart with
    | .error fault => ⟨output, errors, .error (.fault fault), none⟩
    | .ok table =>
      match drawn options built.chart with
      | .error fault => ⟨output ++ table, errors, .error (.fault fault), none⟩
      | .ok drawing =>
        ⟨output ++ table ++ verdict built.accepted, errors,
          .ok (if built.accepted then 0 else 1), drawing⟩

def withoutWord (options : Options) (grammar : Grammar) : Report :=
  .refusal prompt (writtenLog options.verbosity [grammar.loadedEvent] ++ "No input string given\n")

/-- Judges the word of the arguments, or else the word of the input.  A closed input is noticed
before the word is asked for. -/
def judgeGiven (options : Options) (grammar : Grammar) (input : Input) : Report :=
  match options.word, input with
  | some word, _ => judge options grammar "" word
  | none, .closed =>
    ⟨"", writtenLog options.verbosity [grammar.loadedEvent], .error .lostInput, none⟩
  | none, .text content =>
    match readWord content with
    | some word => judge options grammar prompt word
    | none => withoutWord options grammar

def runWith (options : Options) (opened : Except FileError OpenedFile) (input : Input) : Report :=
  match load options.grammarFile opened with
  | .error error => error.report options.grammarFile
  | .ok grammar => judgeGiven options grammar input

/-- A run with given arguments, in a place where files are opened by `openFile`. -/
def run (arguments : List String) (openFile : String → Except FileError OpenedFile)
    (input : Input) : Report :=
  match parse arguments with
  | .error interruption => interruption.report
  | .ok options => runWith options (openFile options.grammarFile) input

end Earley.CommandLine
