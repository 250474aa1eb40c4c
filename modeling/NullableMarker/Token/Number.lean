/-!
# Number literals

Hexadecimal, binary and decimal numbers with digit separators and type suffixes. Each reader gives
the number of characters it takes from the start of a text, 0 when it takes none.
-/

namespace NullableMarker.Number

/-- A digit or a separator between digits. -/
def isDigitOrMark (c : Char) : Bool := c.isDigit || c == '_'

/-- A hexadecimal digit or a separator. -/
def isHexOrMark (c : Char) : Bool :=
  isDigitOrMark c || ('a' ≤ c && c ≤ 'f') || ('A' ≤ c && c ≤ 'F')

/-- A binary digit or a separator. -/
def isBinaryOrMark (c : Char) : Bool := c == '0' || c == '1' || c == '_'

/-- A suffix of an integer type. -/
def isIntegerSuffix (c : Char) : Bool := "uUlL".toList.contains c

/-- A suffix of any numeric type. -/
def isSuffix (c : Char) : Bool := "fFdDmMuUlL".toList.contains c

/-- The length of the longest start of `s` that holds only characters of a class. -/
def runLength (p : Char → Bool) (s : List Char) : Nat := (s.takeWhile p).length

/-- Digits, the first of which is no separator. -/
def digits (s : List Char) : Nat :=
  match s with
  | c :: r => if c.isDigit then runLength isDigitOrMark r + 1 else 0
  | [] => 0

/-- A point with digits after it. -/
def fraction (s : List Char) : Nat :=
  match s with
  | '.' :: r => if digits r = 0 then 0 else digits r + 1
  | _ => 0

/-- A sign, or nothing. -/
def sign (s : List Char) : Nat :=
  if s.head? == some '+' || s.head? == some '-' then 1 else 0

/-- An exponent with its sign. -/
def exponent (s : List Char) : Nat :=
  match s with
  | e :: r =>
    if (e == 'e' || e == 'E') && digits (r.drop (sign r)) ≠ 0 then
      1 + sign r + digits (r.drop (sign r))
    else 0
  | [] => 0

/-- A decimal number. -/
def decimal (s : List Char) : Nat :=
  let whole := digits s
  let mantissa := whole + fraction (s.drop whole)
  let scaled := mantissa + exponent (s.drop mantissa)
  scaled + runLength isSuffix (s.drop scaled)

/-- A number in a base that is marked by the letter after its zero. -/
def based (isMark isDigit : Char → Bool) (s : List Char) : Nat :=
  match s with
  | '0' :: m :: r =>
    let count := runLength isDigit r
    if isMark m && count ≠ 0 then 2 + count + runLength isIntegerSuffix (r.drop count) else 0
  | _ => 0

/-- The length of the number that `s` starts with. -/
def numberLength (s : List Char) : Nat :=
  let hexadecimal := based (fun m => m == 'x' || m == 'X') isHexOrMark s
  let binary := based (fun m => m == 'b' || m == 'B') isBinaryOrMark s
  if hexadecimal ≠ 0 then hexadecimal else if binary ≠ 0 then binary else decimal s

/-- A number starts with a digit, or with a point and a digit. -/
def startsNumber (s : List Char) : Bool :=
  match s with
  | '.' :: c :: _ => c.isDigit
  | c :: _ => c.isDigit
  | [] => false

end NullableMarker.Number
