import Earley.Text.Quoted

/-!
# UTF-8

`decode` reads bytes one at a time.  Its state is the character under way: the bytes taken, how
many are still owed, which values the next one may have, and the code point so far.  A byte that
cannot follow ends the reading with a flaw.  Where the bytes run out inside a character, the text
before it has been read and the flaw counts its position from the first byte of that character.
-/

set_option autoImplicit false

namespace Earley.Text.Utf8

inductive Flaw where
  | startByte
  | continuationByte
  | earlyEnd
  deriving DecidableEq

/-- A flaw, the bytes that show it and the position of the first of them. -/
structure Failure where
  flaw : Flaw
  position : Nat
  bytes : List UInt8
  deriving DecidableEq

/-- The result of reading: the whole text, nothing because of a flaw on the way, or the text
before a character that the end cuts off, and the bytes of that character. -/
inductive Decoded where
  | whole (text : List Char)
  | flawed (failure : Failure)
  | cutOff (text : List Char) (tail : List UInt8) (failure : Failure)

namespace Decoded

def cons (c : Char) : Decoded → Decoded
  | whole text => whole (c :: text)
  | flawed failure => flawed failure
  | cutOff text tail failure => cutOff (c :: text) tail failure

/-- The text where more bytes may follow, and the bytes that are left for then. -/
def ready : Decoded → Except Failure (List Char × List UInt8)
  | whole text => .ok (text, [])
  | flawed failure => .error failure
  | cutOff text tail _ => .ok (text, tail)

/-- The text where no more bytes follow. -/
def complete : Decoded → Except Failure (List Char)
  | whole text => .ok text
  | flawed failure => .error failure
  | cutOff _ _ failure => .error failure

end Decoded

structure Unfinished where
  taken : List UInt8
  owed : Nat
  least : Nat
  greatest : Nat
  code : Nat

inductive Lead where
  | character (c : Char)
  | unfinished (u : Unfinished)
  | none

/-- The first byte tells the length and bounds the second byte, so that each code point has one
spelling and no surrogate has any. -/
def lead (byte : UInt8) : Lead :=
  let b := byte.toNat
  if b < 0x80 then .character (Char.ofNat b)
  else if b < 0xC2 then .none
  else if b < 0xE0 then .unfinished ⟨[byte], 1, 0x80, 0xBF, b - 0xC0⟩
  else if b < 0xF0 then
    .unfinished ⟨[byte], 2, if b = 0xE0 then 0xA0 else 0x80,
      if b = 0xED then 0x9F else 0xBF, b - 0xE0⟩
  else if b < 0xF5 then
    .unfinished ⟨[byte], 3, if b = 0xF0 then 0x90 else 0x80,
      if b = 0xF4 then 0x8F else 0xBF, b - 0xF0⟩
  else .none

/-- Reads on at `position`.  A character that was begun started `taken.length` bytes earlier. -/
def decodeFrom (position : Nat) : Option Unfinished → List UInt8 → Decoded
  | none, [] => .whole []
  | some u, [] => .cutOff [] u.taken ⟨.earlyEnd, 0, u.taken⟩
  | none, byte :: rest =>
    match lead byte with
    | .character c => (decodeFrom (position + 1) none rest).cons c
    | .unfinished u => decodeFrom (position + 1) (some u) rest
    | .none => .flawed ⟨.startByte, position, [byte]⟩
  | some u, byte :: rest =>
    let b := byte.toNat
    if u.least ≤ b ∧ b ≤ u.greatest then
      let code := u.code * 64 + (b - 0x80)
      if u.owed = 1 then (decodeFrom (position + 1) none rest).cons (Char.ofNat code)
      else decodeFrom (position + 1)
        (some ⟨u.taken ++ [byte], u.owed - 1, 0x80, 0xBF, code⟩) rest
    else if u.taken = [0xED] ∧ 0xA0 ≤ b ∧ b ≤ 0xBF ∧ rest = [] then
      .cutOff [] (u.taken ++ [byte]) ⟨.continuationByte, 0, u.taken⟩
    else .flawed ⟨.continuationByte, position - u.taken.length, u.taken⟩

def decode (bytes : List UInt8) : Decoded :=
  decodeFrom 0 none bytes

def Flaw.message : Flaw → String
  | .startByte => "invalid start byte"
  | .continuationByte => "invalid continuation byte"
  | .earlyEnd => "unexpected end of data"

/-- One byte is shown, several are counted. -/
def Failure.message (failure : Failure) : String :=
  let place := match failure.bytes with
    | [byte] => "byte 0x" ++ String.ofList (hexadecimal 2 byte.toNat) ++ " in position "
        ++ toString failure.position
    | bytes => "bytes in position " ++ toString failure.position ++ "-"
        ++ toString (failure.position + bytes.length - 1)
  "'utf-8' codec can't decode " ++ place ++ ": " ++ failure.flaw.message

end Earley.Text.Utf8
