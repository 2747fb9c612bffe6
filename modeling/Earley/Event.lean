import Earley.Symbol
import Earley.Text.Quoted

/-!
# Events

Loading a grammar and recognizing a word report what they did.  An event has a level, a source
and a text.
-/

set_option autoImplicit false

namespace Earley

inductive Level where
  | debug
  | info
  deriving DecidableEq

def Level.name : Level → String
  | .debug => "DEBUG"
  | .info => "INFO"

inductive Event where
  | loaded (productions : Nat)
  | nullableComputed (nullable : List Symbol)
  | columnClosed (column : Int) (items : Nat)
  | judged (word : String) (accepted : Bool)
  deriving DecidableEq

namespace Event

def level : Event → Level
  | loaded _ => .info
  | nullableComputed _ => .debug
  | columnClosed _ _ => .debug
  | judged _ _ => .info

def source : Event → String
  | loaded _ => "grammar"
  | nullableComputed _ => "grammar"
  | columnClosed _ _ => "recognizer"
  | judged _ _ => "recognizer"

def nameList (symbols : List Symbol) : String :=
  "[" ++ String.intercalate ", " ((Symbol.sorted symbols).map fun s => Text.quoted s.name) ++ "]"

def text : Event → String
  | loaded productions => "Loaded grammar with " ++ toString productions ++ " productions"
  | nullableComputed nullable => "Nullable nonterminals: " ++ nameList nullable
  | columnClosed column items =>
    "Column " ++ toString column ++ " closed with " ++ toString items ++ " items"
  | judged word accepted =>
    "Word " ++ Text.quoted word ++ (if accepted then " accepted" else " rejected")

end Event

end Earley
