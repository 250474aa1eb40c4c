/-!
# Searching in text
-/

namespace NullableMarker.Text

/-- The characters `part` stand somewhere in a text, one after another. -/
def occurs (part : List Char) : List Char → Bool
  | [] => part.isEmpty
  | c :: cs => part.isPrefixOf (c :: cs) || occurs part cs

end NullableMarker.Text
