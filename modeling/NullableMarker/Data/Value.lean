import NullableMarker.Data.Scalar
import NullableMarker.Text.Utf8

/-!
# Data values

What a manifest or a settings file holds: scalars, lists, pairs, sets and mappings.
-/

namespace NullableMarker

/-- A data value. What a set holds and what the keys of a mapping are can be told apart by their
values, which scalars can. -/
inductive Value where
  | scalar (s : Scalar)
  | list (items : List Value)
  /-- A key and a value, in a list that stands for a mapping in order. -/
  | pair (key value : Value)
  | set (items : List Scalar)
  | map (entries : List (Scalar × Value))
  deriving Repr

namespace Value

/-! ## Scalars -/

/-- Nothing. -/
@[match_pattern] abbrev null : Value := scalar .null

/-- A truth value. -/
@[match_pattern] abbrev bool (b : Bool) : Value := scalar (.bool b)

/-- An integer. -/
@[match_pattern] abbrev int (n : Int) : Value := scalar (.int n)

/-- A number in floating point. -/
@[match_pattern] abbrev real (x : Decimal) : Value := scalar (.real x)

/-- A text. -/
@[match_pattern] abbrev text (s : String) : Value := scalar (.text s)

instance : Inhabited Value := ⟨null⟩

/-! ## Equality -/

mutual

/-- Values are equal when they are equal scalars, or have the same shape and contents. Neither a set
nor a mapping has an order. -/
def beq : Value → Value → Bool
  | scalar a, scalar b => a == b
  | list as, list bs => beqAll as bs
  | pair a b, pair c d => beq a c && beq b d
  | set as, set bs => as.length == bs.length && as.all fun a => bs.any (a == ·)
  | map as, map bs => as.length == bs.length && beqEntries as bs
  | _, _ => false

/-- Equality of lists of values. -/
def beqAll : List Value → List Value → Bool
  | [], [] => true
  | a :: as, b :: bs => beq a b && beqAll as bs
  | _, _ => false

/-- Each entry is among others. -/
def beqEntries : List (Scalar × Value) → List (Scalar × Value) → Bool
  | [], _ => true
  | (k, a) :: as, bs => (bs.any fun e => k == e.1 && beq a e.2) && beqEntries as bs

end

instance : BEq Value := ⟨beq⟩

/-! ## Contents -/

/-- A value counts as absent when it is null, false, zero or empty. -/
def isPresent : Value → Bool
  | scalar s => s.isPresent
  | list items => !items.isEmpty
  | pair _ _ => true
  | set items => !items.isEmpty
  | map entries => !entries.isEmpty

/-- The value may be what a key is compared with. -/
def isHashable : Value → Bool
  | scalar _ => true
  | pair key value => key.isHashable && value.isHashable
  | _ => false

/-- The entry of a mapping under a key. -/
def get? (v : Value) (key : String) : Option Value :=
  match v with
  | map entries => entries.lookup (.text key)
  | _ => none

/-- What is found when a value is gone through: the items of a list or a set, the two parts of a
pair, the characters of a text, the numbers of bytes, the keys of a mapping. -/
def items? : Value → Option (List Value)
  | list items => some items
  | pair key value => some [key, value]
  | set items => some (items.map scalar)
  | map entries => some (entries.map fun e => scalar e.1)
  | text s => some (s.toList.map fun c => text (String.singleton c))
  | scalar (.bytes b) => some (b.map fun n => int n.toNat)
  | scalar _ => none

/-! ## Text -/

mutual

/-- How messages show a value. -/
def describe : Value → String
  | scalar s => s.describe
  | list items => "[" ++ ", ".intercalate (describeAll items) ++ "]"
  | pair key value => "(" ++ key.describe ++ ", " ++ value.describe ++ ")"
  | set items =>
    if items.isEmpty then "set()"
    else "\x7b" ++ ", ".intercalate (items.map (·.describe)) ++ "\x7d"
  | map entries => "\x7b" ++ ", ".intercalate (describeEntries entries) ++ "\x7d"

/-- How messages show the items of a list. -/
def describeAll : List Value → List String
  | [] => []
  | v :: vs => v.describe :: describeAll vs

/-- How messages show the entries of a mapping. -/
def describeEntries : List (Scalar × Value) → List String
  | [] => []
  | (k, v) :: rest => (k.describe ++ ": " ++ v.describe) :: describeEntries rest

end

/-- A value as plain text: a text is itself. -/
def plain : Value → String
  | scalar s => s.plain
  | v => v.describe

end Value

/-! ## Faults -/

/-- Why a file holds no data value. -/
inductive DataFault where
  /-- The text is not written as data is. -/
  | malformed (text : String)
  | undecodable (e : Utf8.Error)
  /-- What is written stands for no value, as a day that is not in the calendar. -/
  | impossible (text : String)
  deriving Repr, DecidableEq

/-- The wording of a fault. -/
def DataFault.text : DataFault → String
  | malformed text => text
  | undecodable e => e.message
  | impossible text => text

end NullableMarker
