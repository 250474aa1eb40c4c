import NullableMarker.Data.Decimal
import NullableMarker.Data.Moment
import NullableMarker.Text.Quoted

/-!
# Scalars

What data values are made of, and the keys of mappings are: null, truth values, numbers, texts,
bytes, days and moments.
-/

namespace NullableMarker

/-- A scalar. -/
inductive Scalar where
  | null
  | bool (b : Bool)
  | int (n : Int)
  | real (x : Decimal)
  | infinite (negative : Bool)
  /-- The number that is none. -/
  | nan
  | text (s : String)
  | bytes (b : List UInt8)
  | day (d : Day)
  | moment (m : Moment)
  deriving Repr, Inhabited

namespace Scalar

/-! ## Equality -/

/-- The number that a scalar is, in units of floating point. Truth values are the numbers one and
zero. -/
def units? : Scalar → Option Int
  | bool b => some (Decimal.unitsOfInt (if b then 1 else 0))
  | int n => some (Decimal.unitsOfInt n)
  | real x => some x.units
  | _ => none

/-- Scalars are equal when they are the same number, or of one sort and the same. -/
def beq : Scalar → Scalar → Bool
  | null, null => true
  | infinite a, infinite b => a == b
  | nan, nan => true
  | text a, text b => a == b
  | bytes a, bytes b => a == b
  | day a, day b => a == b
  | moment a, moment b => a.isSame b
  | a, b => a.units?.isSome && a.units? == b.units?

instance : BEq Scalar := ⟨beq⟩

/-! ## Truth -/

/-- A scalar counts as absent when it is null, false, zero or empty. -/
def isPresent : Scalar → Bool
  | null => false
  | bool b => b
  | int n => n != 0
  | real x => !x.isZero
  | text s => !s.isEmpty
  | bytes b => !b.isEmpty
  | infinite _ | nan | day _ | moment _ => true

/-- The scalar is a text. -/
def isText : Scalar → Bool
  | text _ => true
  | _ => false

/-! ## Text -/

/-- How messages show a scalar. -/
def describe : Scalar → String
  | null => "None"
  | bool b => if b then "True" else "False"
  | int n => toString n
  | real x => x.text
  | infinite negative => if negative then "-inf" else "inf"
  | nan => "nan"
  | text s => Text.quoted s
  | bytes b => Text.quotedBytes b
  | day d => d.describe
  | moment m => m.describe

/-- A scalar as plain text: a text is itself. -/
def plain : Scalar → String
  | text s => s
  | day d => d.text
  | moment m => m.text
  | s => s.describe

end Scalar

end NullableMarker
