import Earley.Grammar.Basic
import Earley.Grammar.Line
import Earley.Text.Blank
import Earley.Text.Lines

/-!
# Loading grammars

A written grammar is a list of lines.  Blanks around a line are ignored, and so is a line of
blanks only.  Each alternative of a line gives a production, in reading order, and the first
thing that is wrong ends the loading.  A text is cut into lines at a separator, or at the line
boundaries where no separator is given.
-/

set_option autoImplicit false

namespace Earley.Grammar

def addRuleLine (grammar : Grammar) (line : RuleLine) : Except GrammarError Grammar :=
  line.alternatives.foldlM
    (fun grammar body => do grammar.insert (← Production.ofText line.head body)) grammar

def addLine (grammar : Grammar) (line : String) : Except GrammarError Grammar :=
  let stripped := Text.strip line
  if stripped = "" then .ok grammar
  else do addRuleLine grammar (← RuleLine.parse stripped)

def ofLines (lines : List String) : Except GrammarError Grammar :=
  lines.foldlM addLine empty

/-- The lines of a text.  An absent or empty separator means the line boundaries. -/
def linesOf (text : String) (separator : Option String) : List String :=
  match separator with
  | none => Text.splitLines text
  | some mark => if mark = "" then Text.splitLines text else Text.split mark text

def ofText (text : String) (separator : Option String) : Except GrammarError Grammar :=
  ofLines (linesOf text separator)

def loadedEvent (grammar : Grammar) : Event :=
  .loaded grammar.productions.length

end Earley.Grammar
