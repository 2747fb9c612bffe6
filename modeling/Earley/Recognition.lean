import Earley.Chart.Closure
import Earley.Grammar.Loading

/-!
# Recognition

A recognition is a grammar and a chart at work, with the events so far and the fault that ended
it, if one did.  Every operation of the chart is an operation here that also keeps the grammar's
nullable set and the events.  `build` closes each column of a word in turn and scans the next
character from it; `recognize` also judges the word.
-/

set_option autoImplicit false

namespace Earley

structure Recognition where
  grammar : Grammar
  chart : Chart
  log : List Event
  fault : Option Fault

namespace Recognition

def start (grammar : Grammar) (chart : Chart) : Recognition := ⟨grammar, chart, [], none⟩

/-- Takes over the outcome of an operation: the nullable set is consulted if it was read, and
the events of a finished operation follow. -/
def follow (r : Recognition) (outcome : Outcome) (events : List Event) : Recognition :=
  let (grammar, computed) := if outcome.consulted then r.grammar.consult else (r.grammar, [])
  { grammar, chart := outcome.chart, fault := outcome.fault,
    log := r.log ++ computed ++ (if outcome.fault.isNone then events else []) }

/-- An operation begins only where no fault has ended the recognition. -/
def unlessFaulty (r : Recognition) (next : Recognition → Recognition) : Recognition :=
  if r.fault.isSome then r else next r

def predict (r : Recognition) (item : Item) (index : Int) : Recognition :=
  r.unlessFaulty fun r => r.follow (r.chart.predict r.grammar item index) []

def complete (r : Recognition) (item : Item) (index : Int) : Recognition :=
  r.unlessFaulty fun r => r.follow (r.chart.complete item index) []

def scan (r : Recognition) (item : Item) (index : Int) (character : String) : Recognition :=
  r.unlessFaulty fun r => r.follow (r.chart.scan item index character) []

def closedEvents (chart : Chart) (index : Int) : List Event :=
  match chart.column index with
  | .ok column => [.columnClosed index column.items.length]
  | .error _ => []

def close (r : Recognition) (index : Int) : Recognition :=
  r.unlessFaulty fun r =>
    let outcome := (r.chart.close r.grammar index).toOutcome
    r.follow outcome (closedEvents outcome.chart index)

def scanColumn (r : Recognition) (index : Int) (character : String) : Recognition :=
  r.unlessFaulty fun r => r.follow (r.chart.scanColumn index character) []

/-- Closes the columns from a number on, scanning one character of the word after each but the
last, where the end mark is scanned. -/
def readFrom (number : Nat) : List Char → Recognition → Recognition
  | [], r => (r.close number).scanColumn number endMark
  | c :: rest, r => readFrom (number + 1) rest
      ((r.close number).scanColumn number (String.singleton c))

def build (grammar : Grammar) (word start : String) : Recognition :=
  readFrom 0 word.toList (.start grammar (.ofLength word.toList.length start))

def accepted (r : Recognition) : Bool := r.chart.accepted

def recognize (grammar : Grammar) (word start : String) : Recognition :=
  (build grammar word start).unlessFaulty fun r =>
    { r with log := r.log ++ [.judged word r.accepted] }

end Recognition

/-- Judges a word by a grammar written in one line, its lines separated by semicolons. -/
def wordInGrammar (grammar word : String) : Except GrammarError Recognition :=
  (Grammar.ofText grammar (some ";")).map fun grammar =>
    Recognition.recognize grammar word defaultStart

end Earley
