/-!
# Numbers in floating point

A number with a point or an exponent is written in decimal and stands for the nearest double: a
number of 53 binary digits, which is a whole number of units of `2 ^ -1074`. Two such numbers are the
same when they are the same number of units, however they are written.
-/

namespace NullableMarker

/-- The number `digits * 10 ^ exponent`, or its negative. -/
structure Decimal where
  negative : Bool := false
  digits : Nat
  exponent : Int
  deriving Repr, DecidableEq, Inhabited

namespace Decimal

/-! ## Rounding -/

/-- The number of units in one. -/
def unit : Nat := Nat.pow 2 1074

/-- The binary digits of a double. -/
def precision : Nat := 53

/-- The quotient of two numbers, rounded to the nearest, a half to the even neighbour. -/
def roundQuotient (n d : Nat) : Nat :=
  let q := n / d
  let twice := 2 * (n % d)
  if twice < d || (twice == d && q % 2 == 0) then q else q + 1

/-- The size of a decimal as a fraction of units. -/
def fraction (x : Decimal) : Nat × Nat :=
  match x.exponent with
  | .ofNat e => (x.digits * Nat.pow 10 e * unit, 1)
  | .negSucc e => (x.digits * unit, Nat.pow 10 (e + 1))

/-- The size of the nearest double, in units. What is below the leading 53 binary digits is rounded
off. -/
def size (x : Decimal) : Nat :=
  let (n, d) := x.fraction
  let width := (n / d).log2 + 1
  let step := Nat.pow 2 (width - precision)
  roundQuotient n (d * step) * step

/-- The nearest double, in units. -/
def units (x : Decimal) : Int := if x.negative then -Int.ofNat x.size else Int.ofNat x.size

/-- An integer, in units. -/
def unitsOfInt (n : Int) : Int := n * unit

/-- The number is zero. -/
def isZero (x : Decimal) : Bool := x.size == 0

/-- The number without what is after the point. -/
def truncate (x : Decimal) : Int := x.units.tdiv unit

/-! ## Text -/

/-- Decimal digits without the zeros at their end, and the number of zeros left out. -/
def significant (digits : List Char) : List Char × Nat :=
  let kept := (digits.reverse.dropWhile (· == '0')).reverse
  (kept, digits.length - kept.length)

/-- Digits with a point before all but the first `point` of them. -/
def positional (digits : List Char) (point : Int) : List Char :=
  if point ≤ 0 then '0' :: '.' :: List.replicate (-point).toNat '0' ++ digits
  else if digits.length ≤ point.toNat then
    digits ++ List.replicate (point.toNat - digits.length) '0' ++ ['.', '0']
  else digits.take point.toNat ++ '.' :: digits.drop point.toNat

/-- Digits with a point after the first of them, and an exponent of at least two digits. -/
def scientific (digits : List Char) (order : Int) : List Char :=
  let fraction := if digits.length ≤ 1 then [] else '.' :: digits.drop 1
  let size := Nat.toDigits 10 order.natAbs
  digits.take 1 ++ fraction ++ 'e' :: (if order < 0 then '-' else '+')
    :: List.replicate (2 - size.length) '0' ++ size

/-- The text of the size of a number: with a point when its order of magnitude lies from `-4` up to
`15`, with an exponent otherwise. -/
def sizeText (x : Decimal) : List Char :=
  let (digits, dropped) := significant (Nat.toDigits 10 x.digits)
  let point : Int := digits.length + dropped + x.exponent
  if x.digits = 0 then ['0', '.', '0']
  else if -4 < point && point ≤ 16 then positional digits point
  else scientific digits (point - 1)

/-- The text of a number. -/
def text (x : Decimal) : String :=
  String.ofList (if x.negative then '-' :: x.sizeText else x.sizeText)

end Decimal

end NullableMarker
