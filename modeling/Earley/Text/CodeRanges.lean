/-!
# Character classes as ranges of code points

A character class is a table of ranges, both ends included.  Capital and small letters often
alternate, so a second reading of a table takes every other code point of a range.
-/

set_option autoImplicit false

namespace Earley.Text

def inRanges (table : List (Nat × Nat)) (c : Char) : Bool :=
  table.any fun range => range.1 ≤ c.toNat && c.toNat ≤ range.2

/-- The character lies in one of the ranges, an even distance from its first code point. -/
def inAlternatingRanges (table : List (Nat × Nat)) (c : Char) : Bool :=
  table.any fun range =>
    range.1 ≤ c.toNat && c.toNat ≤ range.2 && (c.toNat - range.1) % 2 == 0

end Earley.Text
