/-!
# Ranges of code points

Classes of characters are given as lists of closed ranges of code points.
-/

namespace NullableMarker.Text

/-- The code point of `c` lies in one of the closed ranges. -/
def inRanges (ranges : List (Nat × Nat)) (c : Char) : Bool :=
  ranges.any fun r => r.1 ≤ c.toNat && c.toNat ≤ r.2

end NullableMarker.Text
