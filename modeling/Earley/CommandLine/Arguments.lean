import Earley.CommandLine.Options
import Earley.Text.DecimalDigit

/-!
# Reading the arguments

Reading takes three steps.

* `classify` decides for each argument whether it is a switch, an unknown switch, a value, or the
  divider `--` behind which all arguments are values.  A switch may be shortened as long as one
  long spelling begins so.  A text may be attached to it, behind an equals sign or, to a short
  switch, directly.
* `expand` reads the text joined to a short switch without argument as further short switches, and
  gives a switch the argument it needs.
* The first run of values serves the grammar file and the word.  Values that are left over, later
  values and unknown switches are unrecognized; this is said when everything else was in order.
-/

set_option autoImplicit false

namespace Earley.CommandLine

/-- Text attached to a switch, behind an equals sign or directly. -/
structure Attachment where
  behindEquals : Bool
  text : List Char

inductive Reading where
  /-- A switch, whether it is written with one dash, and the text attached to it. -/
  | switch (switch : Switch) (short : Bool) (attached : Option Attachment)
  | unknown
  | value
  | divider

def isNumeral (text : List Char) : Bool :=
  !text.isEmpty && text.all Text.isDecimalDigit

/-- A minus sign and a whole number or a decimal fraction, perhaps with a line feed at the end.
Such an argument is a value although it begins with a dash. -/
def isNegativeNumber (argument : List Char) : Bool :=
  match (if argument.getLast? = some '\n' then argument.dropLast else argument) with
  | '-' :: number =>
    isNumeral number ||
      match number.dropWhile Text.isDecimalDigit with
      | '.' :: fraction => isNumeral fraction
      | _ => false
  | _ => false

def splitEquals (text : List Char) : List Char × Option Attachment :=
  match text.dropWhile (· ≠ '=') with
  | _ :: value => (text.takeWhile (· ≠ '='), some ⟨true, value⟩)
  | [] => (text, none)

/-- The switches that an argument may mean which spells none in full: a long switch that begins
so, or a short switch with something joined to it. -/
def candidates (argument : List Char) : List (String × Reading) :=
  match argument with
  | '-' :: '-' :: _ =>
    let (start, attached) := splitEquals argument
    Switch.spellings.filterMap fun (spelling, switch) =>
      if start.isPrefixOf spelling.toList then some (spelling, .switch switch false attached)
      else none
  | dash :: letter :: rest =>
    Switch.spellings.filterMap fun (spelling, switch) =>
      if spelling.toList = [dash, letter] then some (spelling, .switch switch true (some ⟨false, rest⟩))
      else none
  | _ => []

def isShort : List Char → Bool
  | _ :: c :: _ => c ≠ '-'
  | _ => false

def readArgument (argument : String) : Except Misuse Reading :=
  let text := argument.toList
  if text.head? ≠ some '-' ∨ text = ['-'] then .ok .value
  else match Switch.ofSpelling argument with
    | some switch => .ok (.switch switch (isShort text) none)
    | none =>
      let (start, attached) := splitEquals text
      match Switch.ofSpelling (String.ofList start) with
      | some switch => .ok (.switch switch (isShort text) attached)
      | none =>
        match candidates text with
        | [(_, reading)] => .ok reading
        | [] => .ok (if isNegativeNumber text ∨ ' ' ∈ text then .value else .unknown)
        | several => .error (.ambiguous argument (several.map fun entry => entry.1))

def classify : List String → Except Misuse (List (String × Reading))
  | [] => .ok []
  | argument :: rest =>
    if argument = "--" then
      .ok ((argument, .divider) :: rest.map fun value => (value, .value))
    else do
      let reading ← readArgument argument
      return (argument, reading) :: (← classify rest)

inductive Contribution where
  | switches (uses : List (Switch × String))
  | value (text : String)
  | divider (text : String)
  | unrecognized (text : String)
  | misuse (misuse : Misuse)

inductive WordEnd where
  | complete
  | needsArgument (switch : Switch)
  /-- The letters that are left, the first of which is no switch. -/
  | unknown (letters : List Char)
  | misuse (misuse : Misuse)

def useAlone (switch : Switch) : List (Switch × String) × WordEnd :=
  if switch.takesArgument then ([], .needsArgument switch) else ([(switch, "")], .complete)

/-- A short switch and the text attached to it.  The text is the argument of the switch or, if it
takes none, is made of further short switches; then neither an equals sign nor a dash may stand
between them. -/
def expandShort (switch : Switch) (behindEquals : Bool) :
    List Char → List (Switch × String) × WordEnd
  | [] =>
    if switch.takesArgument then ([(switch, "")], .complete)
    else ([], .misuse (.argumentIgnored switch ""))
  | c :: rest =>
    if switch.takesArgument then ([(switch, String.ofList (c :: rest))], .complete)
    else if behindEquals ∨ c = '-' then
      ([], .misuse (.argumentIgnored switch (String.ofList (c :: rest))))
    else match Switch.ofSpelling (String.ofList ['-', c]) with
      | none => ([(switch, "")], .unknown (c :: rest))
      | some next =>
        let (uses, wordEnd) := match rest with
          | [] => useAlone next
          | '=' :: value => expandShort next true value
          | d :: others => expandShort next false (d :: others)
        ((switch, "") :: uses, wordEnd)

/-- The switches that an argument turns on and how it ends.  Nothing may be attached to a long
switch that takes no argument. -/
def expand (switch : Switch) (short : Bool) :
    Option Attachment → List (Switch × String) × WordEnd
  | none => useAlone switch
  | some ⟨behindEquals, text⟩ =>
    if short then expandShort switch behindEquals text
    else if switch.takesArgument then ([(switch, String.ofList text)], .complete)
    else ([], .misuse (.argumentIgnored switch (String.ofList text)))

def contributions : List (String × Reading) → List Contribution
  | [] => []
  | (text, .value) :: rest => .value text :: contributions rest
  | (text, .divider) :: rest => .divider text :: contributions rest
  | (text, .unknown) :: rest => .unrecognized text :: contributions rest
  | (_, .switch switch short attached) :: rest =>
    match expand switch short attached with
    | (uses, .complete) => .switches uses :: contributions rest
    | (uses, .unknown letters) =>
      .switches uses :: .unrecognized (String.ofList ('-' :: letters)) :: contributions rest
    | (_, .misuse misuse) => .misuse misuse :: contributions rest
    | (uses, .needsArgument last) =>
      match rest with
      | (value, .value) :: others => .switches (uses ++ [(last, value)]) :: contributions others
      | others => .misuse (.argumentExpected last) :: contributions others

def Contribution.isPositional : Contribution → Bool
  | .value _ => true
  | .divider _ => true
  | _ => false

def Contribution.isDivider : Contribution → Bool
  | .divider _ => true
  | _ => false

def Contribution.text? : Contribution → Option String
  | .value text => some text
  | .divider text => some text
  | _ => none

/-- Takes one positional argument from a run of values: at most one value, with the dividers
around it.  The first text `--` among them is no argument. -/
def takePositional (run : List Contribution) : Option String × List Contribution :=
  let leading := run.takeWhile Contribution.isDivider
  let behind := run.dropWhile Contribution.isDivider
  let value := behind.take 1
  let trailing := (behind.drop 1).takeWhile Contribution.isDivider
  let rest := (behind.drop 1).dropWhile Contribution.isDivider
  ((((leading ++ value ++ trailing).filterMap Contribution.text?).erase "--").head?, rest)

inductive Interruption where
  | help
  | misuse (misuse : Misuse)
  deriving DecidableEq

def turnOn (options : Options) : Switch × String → Except Interruption Options
  | (.help, _) => .error .help
  | (.start, argument) => .ok { options with start := argument }
  | (.verbose, _) => .ok { options with verbosity := options.verbosity + 1 }
  | (.dump, _) => .ok { options with dump := true }
  | (.draw, _) => .ok { options with draw := true }

/-- Takes over a contribution, for which no positional argument is left: the options and the
unrecognized arguments after it. -/
def contribute (state : Options × List String) :
    Contribution → Except Interruption (Options × List String)
  | .switches uses => do return (← uses.foldlM turnOn state.1, state.2)
  | .value text => .ok (state.1, state.2 ++ [text])
  | .divider text => .ok (state.1, state.2 ++ [text])
  | .unrecognized text => .ok (state.1, state.2 ++ [text])
  | .misuse misuse => .error (.misuse misuse)

def parse (arguments : List String) : Except Interruption Options := do
  let given := contributions (← (classify arguments).mapError .misuse)
  let before := given.takeWhile fun c => !c.isPositional
  let others := given.dropWhile fun c => !c.isPositional
  let (grammarFile, run) := takePositional (others.takeWhile Contribution.isPositional)
  let (word, leftOver) := takePositional run
  let behind := others.dropWhile Contribution.isPositional
  let defaults : Options := {}
  let options := { defaults with grammarFile := grammarFile.getD defaults.grammarFile, word }
  let (options, unrecognized) ← (before ++ leftOver ++ behind).foldlM contribute (options, [])
  if unrecognized.isEmpty then return options
  else throw (.misuse (.unrecognized unrecognized))

end Earley.CommandLine
