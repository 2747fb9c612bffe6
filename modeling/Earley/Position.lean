import Earley.Fault

/-!
# Positions from either end

An index counts from the front of a list, or from its back when it is negative: `-1` is the last
entry.  `place?` turns an index into the number of entries before the one it means, and `position`
says why there is none.
-/

set_option autoImplicit false

namespace Earley

def fitsWord (n : Int) : Bool :=
  -0x8000000000000000 ≤ n && n < 0x8000000000000000

def fromFront (size : Nat) (index : Int) : Int :=
  if index < 0 then index + size else index

/-- The number of entries before the one an index means, if it means one. -/
def place? (size : Nat) (index : Int) : Option Nat :=
  if 0 ≤ fromFront size index ∧ fromFront size index < size then
    some (fromFront size index).toNat
  else none

/-- The place that an index means in a list of `size` entries.  An index beyond the ends is the
fault `missing`, unless it is too large for a word. -/
def position (missing : Fault) (size : Nat) (index : Int) : Except Fault Nat :=
  match place? size index with
  | some place => .ok place
  | none => .error (if fitsWord index then missing else .hugeIndex)

theorem place?_natCast (size n : Nat) : place? size n = if n < size then some n else none := by
  have front : fromFront size n = n := by
    unfold fromFront
    rw [if_neg (by omega)]
  unfold place?
  rw [front]
  by_cases inside : n < size <;> simp [inside]

theorem place?_lt {size place : Nat} {index : Int} (found : place? size index = some place) :
    place < size := by
  unfold place? at found
  split at found
  · rename_i inside
    have same := Option.some.inj found
    omega
  · exact absurd found (by simp)

theorem position_natCast (missing : Fault) {size n : Nat} (inside : n < size) :
    position missing size n = .ok n := by
  unfold position
  rw [place?_natCast, if_pos inside]

theorem position_lt {missing : Fault} {size place : Nat} {index : Int}
    (found : position missing size index = .ok place) : place < size := by
  unfold position at found
  split at found
  · rename_i other inside
    rw [← Except.ok.inj found]
    exact place?_lt inside
  · exact absurd found (by simp)

/-- The place before which an insertion at an index puts its entry: beyond the ends it is the
nearer end. -/
def insertionPlace (size : Nat) (index : Int) : Nat :=
  min (fromFront size index).toNat size

end Earley
