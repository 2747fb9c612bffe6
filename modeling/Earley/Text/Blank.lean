import Earley.Text.CodeRanges

/-!
# Blank characters and stripping

Blanks are the white space of Unicode together with the four information separators.
`strip` removes them from both ends of a text and leaves the inside alone.
-/

set_option autoImplicit false

namespace Earley.Text

/-- Tab to carriage return, the information separators, and the spaces and separators. -/
def blankRanges : List (Nat × Nat) := [
  (0x0009, 0x000D), (0x001C, 0x0020), (0x0085, 0x0085), (0x00A0, 0x00A0),
  (0x1680, 0x1680), (0x2000, 0x200A), (0x2028, 0x2029), (0x202F, 0x202F),
  (0x205F, 0x205F), (0x3000, 0x3000)]

def isBlank (c : Char) : Bool :=
  inRanges blankRanges c

def stripChars (text : List Char) : List Char :=
  ((text.dropWhile isBlank).reverse.dropWhile isBlank).reverse

def strip (text : String) : String :=
  String.ofList (stripChars text.toList)

end Earley.Text
