import Earley.Production
import Earley.Text.Quoted

/-!
# Options of the command line

The program takes five switches and two positional arguments, a grammar file and a word.  This
module holds what an invocation asks for, the spellings of the switches, what can be wrong with
an invocation, and the usage and help texts.
-/

set_option autoImplicit false

namespace Earley.CommandLine

inductive Switch where
  | help
  | start
  | verbose
  | dump
  | draw
  deriving DecidableEq

namespace Switch

def spellings : List (String × Switch) := [
  ("-h", help), ("--help", help), ("-s", start), ("--start", start),
  ("-v", verbose), ("--verbose", verbose), ("--dump", dump), ("--draw", draw)]

def ofSpelling (text : String) : Option Switch :=
  (spellings.find? fun entry => entry.1 = text).map Prod.snd

/-- Only the start symbol is given by an argument of its switch. -/
def takesArgument (switch : Switch) : Bool := switch = start

def title (switch : Switch) : String :=
  String.intercalate "/"
    ((spellings.filter fun entry => entry.2 = switch).map fun entry => entry.1)

end Switch

structure Options where
  grammarFile : String := "CFG.txt"
  /-- The word to judge; it is read from the input where it is absent. -/
  word : Option String := none
  start : String := defaultStart
  verbosity : Nat := 0
  dump : Bool := false
  draw : Bool := false
  deriving DecidableEq

inductive Misuse where
  | ambiguous (argument : String) (candidates : List String)
  | argumentIgnored (switch : Switch) (argument : String)
  | argumentExpected (switch : Switch)
  | unrecognized (arguments : List String)
  deriving DecidableEq

def Misuse.message : Misuse → String
  | .ambiguous argument candidates =>
    "ambiguous option: " ++ argument ++ " could match " ++ String.intercalate ", " candidates
  | .argumentIgnored switch argument =>
    "argument " ++ switch.title ++ ": ignored explicit argument " ++ Text.quoted argument
  | .argumentExpected switch => "argument " ++ switch.title ++ ": expected one argument"
  | .unrecognized arguments =>
    "unrecognized arguments: " ++ String.intercalate " " arguments

def usage : String :=
  "usage: earley-recognize [-h] [-s START] [-v] [--dump] [--draw]\n" ++
  "                        [grammar] [word]\n"

def helpText : String :=
  usage ++
  "\n" ++
  "Earley recognizer for single-character grammars\n" ++
  "\n" ++
  "positional arguments:\n" ++
  "  grammar               file with one HEAD->ALT|ALT production per line\n" ++
  "  word                  word to check; prompted for when omitted\n" ++
  "\n" ++
  "options:\n" ++
  "  -h, --help            show this help message and exit\n" ++
  "  -s START, --start START\n" ++
  "                        start nonterminal\n" ++
  "  -v, --verbose\n" ++
  "  --dump                print the chart table\n" ++
  "  --draw                draw the chart graph\n"

def misuseText (misuse : Misuse) : String :=
  usage ++ "earley-recognize: error: " ++ misuse.message ++ "\n"

end Earley.CommandLine
