import NullableMarker.Text.Printable

/-!
# Quoted text

How messages show a text: between single quotes, or between double quotes when it holds a single
quote and no double quote. The quote in use and the backslash are escaped, line feed, return and tab
have short escapes, and any other character that is not printable is written in hexadecimal.
-/

namespace NullableMarker.Text

/-- The lower-case hexadecimal digits of `n`, at least `width` of them. -/
def hexDigits (width n : Nat) : List Char :=
  let digits := Nat.toDigits 16 n
  List.replicate (width - digits.length) '0' ++ digits

/-- The escape of a character that is not printable. -/
def hexEscape (c : Char) : List Char :=
  if c.toNat < 0x100 then '\\' :: 'x' :: hexDigits 2 c.toNat
  else if c.toNat < 0x10000 then '\\' :: 'u' :: hexDigits 4 c.toNat
  else '\\' :: 'U' :: hexDigits 8 c.toNat

/-- One character between quotes of the form `mark`. -/
def quoteChar (mark c : Char) : List Char :=
  if c == mark || c == '\\' then ['\\', c]
  else if c == '\n' then ['\\', 'n']
  else if c == '\r' then ['\\', 'r']
  else if c == '\t' then ['\\', 't']
  else if isPrintable c then [c]
  else hexEscape c

/-- The quote that a text is written with. -/
def quoteMark (s : List Char) : Char :=
  if s.contains '\'' && !s.contains '"' then '"' else '\''

/-- `s` between quotes. -/
def quote (s : List Char) : List Char :=
  quoteMark s :: s.flatMap (quoteChar (quoteMark s)) ++ [quoteMark s]

/-- A string between quotes. -/
def quoted (s : String) : String := String.ofList (quote s.toList)

/-- Bytes between quotes, after a letter that tells them from text. A byte that is no ASCII is written
in hexadecimal. -/
def quotedBytes (bytes : List UInt8) : String :=
  let cs := bytes.map fun b => Char.ofNat b.toNat
  let mark := quoteMark cs
  let inside := cs.flatMap fun c => if c.toNat < 0x80 then quoteChar mark c else hexEscape c
  String.ofList ('b' :: mark :: inside ++ [mark])

end NullableMarker.Text
