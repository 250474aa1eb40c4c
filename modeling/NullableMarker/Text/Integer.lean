import NullableMarker.Text.Numeric
import NullableMarker.Text.White

/-!
# Integers in decimal

An integer is written with an optional sign and decimal digits of any script; a single underscore
may stand between two digits, and white space around the whole is ignored. The ASCII separators are
no white space here.
-/

namespace NullableMarker.Text

/-- The longest run of digits that is read as an integer. -/
def maxDigits : Nat := 4300

/-- The values of digits in which single underscores may divide neighbours. -/
def digitValues : List Char → Option (List Nat)
  | [] => none
  | [c] => (digitValue? c).map ([·])
  | c :: '_' :: rest => do return (← digitValue? c) :: (← digitValues rest)
  | c :: rest => do return (← digitValue? c) :: (← digitValues rest)

/-- The number that digit values stand for, most significant first. -/
def ofDigitValues (digits : List Nat) : Nat := digits.foldl (fun n d => 10 * n + d) 0

/-- Reads digits without a sign. -/
def natural? (s : List Char) : Option Nat := do
  let digits ← digitValues s
  if digits.length ≤ maxDigits then some (ofDigitValues digits) else none

/-- White space around a number. -/
def isMarginOfNumber (c : Char) : Bool := isWhite c && !(0x1C ≤ c.toNat && c.toNat ≤ 0x1F)

/-- `s` without the white space around a number. -/
def trimNumber (s : List Char) : List Char :=
  ((s.dropWhile isMarginOfNumber).reverse.dropWhile isMarginOfNumber).reverse

/-- Reads an integer. -/
def integer? (s : List Char) : Option Int :=
  match trimNumber s with
  | '-' :: rest => (natural? rest).map fun n => -Int.ofNat n
  | '+' :: rest => (natural? rest).map Int.ofNat
  | rest => (natural? rest).map Int.ofNat

end NullableMarker.Text
