import NullableMarker.Data.Value

/-!
# Data in flow style

Data values written between brackets and braces, with texts between double quotes. Numbers with a
point are in floating point, and an exponent has a sign. Blank text, and text with comments only,
holds nothing. Other ways to write data values are not read.
-/

namespace NullableMarker.Flow

/-! ## Characters -/

/-- A character that ends a line of data. -/
def endsLine (c : Char) : Bool :=
  c == '\n' || c == '\r' || c == '\u0085' || c == '\u2028' || c == '\u2029'

/-- A character that data may be written with, which controls are not. -/
def isAllowed (c : Char) : Bool :=
  let n := c.toNat
  endsLine c || c == '\t' || (0x20 ≤ n && n ≤ 0x7E) || (0xA0 ≤ n && n ≤ 0xFFFD) || 0x10000 ≤ n

/-- The text holds blanks, ends of lines and comments only. -/
def isBlank (inComment : Bool) : List Char → Bool
  | [] => true
  | c :: cs =>
    if endsLine c then isBlank false cs
    else if inComment then isBlank true cs
    else if c == ' ' then isBlank false cs
    else if c == '#' then isBlank true cs
    else false

/-! ## Marks and scalars -/

/-- What data is written with. -/
inductive Piece where
  | openList | closeList | openMap | closeMap | comma | colon
  | scalar (s : Scalar)
  deriving Repr

/-- The digits of an integer without zeros in front. -/
def natural? (cs : List Char) : Option Nat :=
  if cs.isEmpty || !cs.all Char.isDigit || (cs.length > 1 && cs.head? == some '0') then none
  else some (cs.foldl (fun n c => 10 * n + (c.toNat - '0'.toNat)) 0)

/-- A number without its sign: an integer, or a decimal with a point and perhaps an exponent. -/
def number? (negative : Bool) (cs : List Char) : Option Scalar :=
  let whole := cs.takeWhile Char.isDigit
  match cs.drop whole.length with
  | [] => (natural? whole).map fun n => .int (if negative then -Int.ofNat n else n)
  | '.' :: rest =>
    let fraction := rest.takeWhile Char.isDigit
    let real (exponent : Int) : Option Scalar := (natural? whole).map fun n =>
      .real { negative, digits := fraction.foldl (fun n c => 10 * n + (c.toNat - '0'.toNat)) n
              exponent := exponent - fraction.length }
    match rest.drop fraction.length with
    | [] => real 0
    | 'e' :: '+' :: digits => (natural? digits).bind fun e => real e
    | 'e' :: '-' :: digits => (natural? digits).bind fun e => real (-Int.ofNat e)
    | _ => none
  | _ => none

/-- What a word without quotes stands for. -/
def word? (cs : List Char) : Option Scalar :=
  match cs with
  | '-' :: cs => number? true cs
  | cs =>
    match String.ofList cs with
    | "null" => some .null
    | "true" => some (.bool true)
    | "false" => some (.bool false)
    | _ => number? false cs

/-- Where reading stands: in a word, or between quotes, perhaps after a backslash or in the digits of
a character. What was read comes last first. -/
inductive Place where
  | word (done : List Char)
  | quoted (done : List Char)
  | escape (done : List Char)
  | code (done digits : List Char)

/-- The pieces read so far, the last one first, and where reading stands. -/
structure Reader where
  pieces : List Piece := []
  place : Place := .word []

namespace Reader

/-- The pieces with a word that has ended, if it is not empty. -/
def endWord (r : Reader) (done : List Char) : Option (List Piece) :=
  if done.isEmpty then some r.pieces
  else (word? done.reverse).map (.scalar · :: r.pieces)

/-- The mark that a character is. -/
def mark? : Char → Option Piece
  | '[' => some .openList
  | ']' => some .closeList
  | '\x7b' => some .openMap
  | '\x7d' => some .closeMap
  | ',' => some .comma
  | ':' => some .colon
  | _ => none

/-- The character that stands for a letter after a backslash. -/
def escape? : Char → Option Char
  | '"' => some '"'
  | '\\' => some '\\'
  | '/' => some '/'
  | 'n' => some '\n'
  | 't' => some '\t'
  | 'r' => some '\r'
  | 'b' => some '\x08'
  | 'f' => some '\x0c'
  | _ => none

/-- The value of a hexadecimal digit. -/
def hexValue? (c : Char) : Option Nat :=
  if c.isDigit then some (c.toNat - '0'.toNat)
  else if 'a' ≤ c && c ≤ 'f' then some (c.toNat - 'a'.toNat + 10)
  else if 'A' ≤ c && c ≤ 'F' then some (c.toNat - 'A'.toNat + 10)
  else none

/-- The character with a number of four hexadecimal digits, which comes last first. -/
def coded? (digits : List Char) : Option Char := do
  let n ← digits.foldrM (fun c n => (hexValue? c).map (16 * n + ·)) 0
  if 0xD800 ≤ n && n < 0xE000 then none else some (Char.ofNat n)

/-- Reads a character. -/
def next (r : Reader) (c : Char) : Option Reader :=
  match r.place with
  | .word done =>
    if c == '"' then do
      let pieces ← r.endWord done
      return ⟨pieces, .quoted []⟩
    else if c == ' ' || endsLine c then do
      let pieces ← r.endWord done
      return ⟨pieces, .word []⟩
    else
      match mark? c with
      | some mark => do
        let pieces ← r.endWord done
        return ⟨mark :: pieces, .word []⟩
      | none => some ⟨r.pieces, .word (c :: done)⟩
  | .quoted done =>
    if c == '"' then some ⟨.scalar (.text (String.ofList done.reverse)) :: r.pieces, .word []⟩
    else if c == '\\' then some ⟨r.pieces, .escape done⟩
    else if endsLine c then none
    else some ⟨r.pieces, .quoted (c :: done)⟩
  | .escape done =>
    if c == 'u' then some ⟨r.pieces, .code done []⟩
    else (escape? c).map fun c => ⟨r.pieces, .quoted (c :: done)⟩
  | .code done digits =>
    if digits.length < 3 then some ⟨r.pieces, .code done (c :: digits)⟩
    else (coded? (c :: digits)).map fun c => ⟨r.pieces, .quoted (c :: done)⟩

end Reader

/-- The pieces of a text. -/
def pieces? (cs : List Char) : Option (List Piece) := do
  let r ← cs.foldlM Reader.next {}
  match r.place with
  | .word done => return (← r.endWord done).reverse
  | _ => none

/-! ## Values -/

/-- What comes next in a mapping. -/
inductive Slot where
  | key
  | colon (key : Scalar)
  | value (key : Scalar)
  | comma

/-- A list or a mapping that is still open. -/
inductive Pending where
  /-- The items so far, the last one first, and whether another may follow. -/
  | list (items : List Value) (ready : Bool)
  | map (entries : List (Scalar × Value)) (slot : Slot)

/-- What is open, the innermost first, and the whole value once it is there. -/
structure Builder where
  pending : List Pending := []
  value : Option Value := none

namespace Builder

/-- The entries with another, which replaces one under the same key. -/
def enter (entries : List (Scalar × Value)) (key : Scalar) (v : Value) : List (Scalar × Value) :=
  if entries.any (·.1 == key) then
    entries.map fun e => if e.1 == key then (e.1, v) else e
  else entries ++ [(key, v)]

/-- Puts a value where one is expected. -/
def put (b : Builder) (v : Value) : Option Builder :=
  match b.pending, v with
  | [], v => if b.value.isNone then some ⟨[], some v⟩ else none
  | .list items true :: rest, v => some ⟨.list (v :: items) false :: rest, none⟩
  | .map entries .key :: rest, .scalar key => some ⟨.map entries (.colon key) :: rest, none⟩
  | .map entries (.value key) :: rest, v => some ⟨.map (enter entries key v) .comma :: rest, none⟩
  | _, _ => none

/-- Takes a piece. -/
def next (b : Builder) (p : Piece) : Option Builder :=
  match p, b.pending with
  | .scalar s, _ => b.put (.scalar s)
  | .openList, pending =>
    if b.value.isNone then some ⟨.list [] true :: pending, none⟩ else none
  | .openMap, pending =>
    if b.value.isNone then some ⟨.map [] .key :: pending, none⟩ else none
  | .closeList, .list items _ :: rest => put ⟨rest, none⟩ (.list items.reverse)
  | .closeMap, .map entries .key :: rest => put ⟨rest, none⟩ (.map entries)
  | .closeMap, .map entries .comma :: rest => put ⟨rest, none⟩ (.map entries)
  | .comma, .list items false :: rest => some ⟨.list items true :: rest, none⟩
  | .comma, .map entries .comma :: rest => some ⟨.map entries .key :: rest, none⟩
  | .colon, .map entries (.colon key) :: rest => some ⟨.map entries (.value key) :: rest, none⟩
  | _, _ => none

end Builder

/-- The value that pieces make up. -/
def value? (pieces : List Piece) : Option Value := do
  let b ← pieces.foldlM Builder.next {}
  if b.pending.isEmpty then b.value else none

/-- The fault of text that is not written so. -/
def malformed : DataFault := .malformed "malformed YAML"

/-- The data value that text holds. -/
def ofText (s : String) : Except DataFault Value :=
  let cs := match s.toList with
    | '\ufeff' :: cs => cs
    | cs => cs
  if !cs.all isAllowed then .error malformed
  else if isBlank false cs then .ok .null
  else ((pieces? cs).bind value?).elim (.error malformed) .ok

/-- The data value that bytes hold. -/
def ofBytes (bytes : ByteArray) : Except DataFault Value :=
  match Utf8.error? bytes, String.fromUTF8? bytes with
  | some e, _ => .error (.undecodable e)
  | none, some s => ofText s
  | none, none => .error malformed

/-- A mapping with a list in it. -/
example : (ofText "\x7b\"a\": [1, -2.5e+3, null], \"b\": \"\\u0041\"\x7d").toOption.map
    (·.describe) = some "\x7b'a': [1, -2500.0, None], 'b': 'A'\x7d" := by decide +kernel

end NullableMarker.Flow
