/-!
# White space

Unicode white space, trimming, and the first word of a text.
-/

namespace NullableMarker.Text

/-- Unicode white space, the ASCII separators U+001C to U+001F included. -/
def isWhite (c : Char) : Bool :=
  let n := c.toNat
  (0x09 ≤ n && n ≤ 0x0D) || (0x1C ≤ n && n ≤ 0x20) || n == 0x85 || n == 0xA0 || n == 0x1680
    || (0x2000 ≤ n && n ≤ 0x200A) || n == 0x2028 || n == 0x2029 || n == 0x202F || n == 0x205F
    || n == 0x3000

/-- `s` without the white space at its start. -/
def trimLeft (s : List Char) : List Char := s.dropWhile isWhite

/-- `s` without the white space at its end. -/
def trimRight (s : List Char) : List Char := (s.reverse.dropWhile isWhite).reverse

/-- `s` without the white space at both ends. -/
def trim (s : List Char) : List Char := trimRight (trimLeft s)

/-- The first word of `s` and what follows it, less the white space around the word. -/
def firstWord (s : List Char) : List Char × List Char :=
  let t := trimLeft s
  (t.takeWhile (!isWhite ·), trimLeft (t.dropWhile (!isWhite ·)))

/-- What stands before the first `//` of `s`. -/
def beforeComment : List Char → List Char
  | '/' :: '/' :: _ => []
  | c :: r => c :: beforeComment r
  | [] => []

end NullableMarker.Text
