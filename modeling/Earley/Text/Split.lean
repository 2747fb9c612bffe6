/-!
# Cutting a text at a mark

A mark is a non-empty list of characters.  `cut` finds its first occurrence; `pieces` cuts at
every occurrence, from the left and without overlap, so `n` cuts leave `n + 1` pieces.
-/

set_option autoImplicit false

namespace Earley.Text

/-- What stands before the first occurrence of the mark and what stands after it. -/
def cut (mark : List Char) : List Char → Option (List Char × List Char)
  | [] => none
  | c :: rest =>
    if mark.isPrefixOf (c :: rest) then some ([], (c :: rest).drop mark.length)
    else (cut mark rest).map fun (before, after) => (c :: before, after)

def growFirst (c : Char) : List (List Char) → List (List Char)
  | [] => [[c]]
  | piece :: others => (c :: piece) :: others

/-- The pieces between the occurrences of the mark.  `skip` counts the characters of an
occurrence that are still to be passed over. -/
def piecesFrom (mark : List Char) : Nat → List Char → List (List Char)
  | _, [] => [[]]
  | skip + 1, _ :: rest => piecesFrom mark skip rest
  | 0, c :: rest =>
    if mark.isPrefixOf (c :: rest) then [] :: piecesFrom mark (mark.length - 1) rest
    else growFirst c (piecesFrom mark 0 rest)

def pieces (mark : List Char) (text : List Char) : List (List Char) :=
  piecesFrom mark 0 text

def split (mark text : String) : List String :=
  (pieces mark.toList text.toList).map String.ofList

end Earley.Text
