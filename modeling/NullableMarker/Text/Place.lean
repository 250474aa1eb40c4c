/-!
# Lines and columns

A return, a line feed, and a return followed by a line feed each end one line. Lines and columns
count from 1, and columns count characters.
-/

namespace NullableMarker.Text

/-- A character that takes part in ending a line. -/
def isLineEnd (c : Char) : Bool := c == '\r' || c == '\n'

/-- A line ends right after `c` when `rest` follows it. -/
def endsLine (c : Char) (rest : List Char) : Bool :=
  c == '\n' || (c == '\r' && rest.head? != some '\n')

/-- A place in a text. -/
structure Place where
  line : Nat
  column : Nat
  deriving Repr, DecidableEq, Inhabited

namespace Place

/-- The place of the first character. -/
def first : Place := ⟨1, 1⟩

/-- The place after `c`, when `rest` follows it. -/
def step (p : Place) (c : Char) (rest : List Char) : Place :=
  if endsLine c rest then ⟨p.line + 1, 1⟩ else ⟨p.line, p.column + 1⟩

/-- The place `count` characters further in a text that starts at `p`. -/
def after (p : Place) : Nat → List Char → Place
  | 0, _ => p
  | _ + 1, [] => p
  | count + 1, c :: rest => (p.step c rest).after count rest

/-- Walking in two legs is walking at once. -/
theorem after_add (p : Place) (m n : Nat) (s : List Char) :
    p.after (m + n) s = (p.after m s).after n (s.drop m) := by
  induction m generalizing p s with
  | zero => simp [after]
  | succ m ih =>
    cases s with
    | nil => cases n <;> simp [after]
    | cons c rest => simp [after, Nat.succ_add, ih]

end Place

/-- The place of the character at `offset`. -/
def placeAt (s : List Char) (offset : Nat) : Place := Place.first.after offset s

end NullableMarker.Text
