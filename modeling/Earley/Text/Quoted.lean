import Earley.Text.Printable

/-!
# Quoted text

Messages show a text between quotes.  Single quotes are used unless the text holds a single
quote and no double quote.  Inside, a backslash and the quote in use get a backslash, line feed,
carriage return and tab are written as letters, and any other unprintable character is written
by its code point in two, four or eight hexadecimal digits.
-/

set_option autoImplicit false

namespace Earley.Text

/-- A number in lower-case hexadecimal, filled with zeros up to `width` digits. -/
def hexadecimal (width n : Nat) : List Char :=
  let digits := Nat.toDigits 16 n
  List.replicate (width - digits.length) '0' ++ digits

def escaped (quote c : Char) : List Char :=
  if c = quote ∨ c = '\\' then ['\\', c]
  else if c = '\n' then ['\\', 'n']
  else if c = '\r' then ['\\', 'r']
  else if c = '\t' then ['\\', 't']
  else if isPrintable c then [c]
  else if c.toNat < 0x100 then '\\' :: 'x' :: hexadecimal 2 c.toNat
  else if c.toNat < 0x10000 then '\\' :: 'u' :: hexadecimal 4 c.toNat
  else '\\' :: 'U' :: hexadecimal 8 c.toNat

def quoteFor (text : List Char) : Char :=
  if '\'' ∈ text ∧ '"' ∉ text then '"' else '\''

def quoted (text : String) : String :=
  let quote := quoteFor text.toList
  String.ofList (quote :: (text.toList.flatMap (escaped quote) ++ [quote]))

end Earley.Text
