import NullableMarker.Data.Value
import NullableMarker.Text.Integer

/-!
# Type symbols

A symbol is a named type: its identity, its kind, and the keys of what it derives from. The key of a
type is its dotted name, in which a generic arity is written after a backtick.
-/

namespace NullableMarker

/-! ## Kinds and keywords -/

/-- The kinds of types. -/
inductive TypeKind where
  | class_ | struct | interface | enum | delegate
  deriving Repr, DecidableEq, Inhabited

namespace TypeKind

/-- The word for a kind. -/
def word : TypeKind → String
  | class_ => "class" | struct => "struct" | interface => "interface" | enum => "enum"
  | delegate => "delegate"

/-- All kinds. -/
def all : List TypeKind := [class_, struct, interface, enum, delegate]

/-- The kind with a word. -/
def ofWord? (s : String) : Option TypeKind := all.find? (·.word == s)

end TypeKind

/-- The types that have keywords of their own. -/
inductive Special where
  | object | string | boolean | char | sbyte | byte | int16 | uint16 | int32 | uint32 | int64
  | uint64 | decimal | single | double | void
  deriving Repr, DecidableEq, Inhabited

namespace Special

/-- The keyword of a type. -/
def word : Special → String
  | object => "object" | string => "string" | boolean => "bool" | char => "char"
  | sbyte => "sbyte" | byte => "byte" | int16 => "short" | uint16 => "ushort" | int32 => "int"
  | uint32 => "uint" | int64 => "long" | uint64 => "ulong" | decimal => "decimal"
  | single => "float" | double => "double" | void => "void"

/-- All of them. -/
def all : List Special :=
  [object, string, boolean, char, sbyte, byte, int16, uint16, int32, uint32, int64, uint64,
    decimal, single, double, void]

/-- The type with a keyword. -/
def ofWord? (s : String) : Option Special := all.find? (·.word == s)

end Special

/-! ## Metadata names -/

/-- The character that stands before a generic arity. -/
def arityMark : Char := '\x60'

/-- The name of a type with its arity, which is left out when it is zero. -/
def metadataName (name : String) (arity : Int) : String :=
  if arity = 0 then name else name ++ String.singleton arityMark ++ toString arity

/-- Splits a name from its arity; fails when the text after the mark is no integer. -/
def splitMetadataName (s : String) : Option (String × Int) :=
  let name := s.toList.takeWhile (· ≠ arityMark)
  match s.toList.drop (name.length + 1) with
  | [] => some (String.ofList name, 0)
  | arity => (Text.integer? arity).map (String.ofList name, ·)

/-- The parts of a text between the characters equal to `mark`. -/
def splitAt (mark : Char) : List Char → List (List Char)
  | [] => [[]]
  | c :: rest =>
    if c == mark then [] :: splitAt mark rest
    else match splitAt mark rest with
      | [] => [[c]]
      | part :: parts => (c :: part) :: parts

/-- The parts of a dotted name. -/
def dottedParts (s : String) : List String := (splitAt '.' s.toList).map String.ofList

/-! ## Symbols -/

/-- A reference to a type that cannot be looked up. -/
structure BadReference where
  value : Value
  deriving Repr

/-- What a symbol derives from: the key of a type, or a value that names none. -/
inductive TypeRef where
  | key (k : String)
  | other (v : Value)
  deriving Repr, BEq, Inhabited

namespace TypeRef

/-- The reference as it was written. -/
def ofValue : Value → TypeRef
  | .text s => key s
  | v => other v

/-- The key to look up. A value that is no text is no key of any type; a list, a set or a mapping
cannot even be looked up. -/
def key? : TypeRef → Except BadReference (Option String)
  | key k => .ok (some k)
  | other v => if v.isHashable then .ok none else .error ⟨v⟩

/-- The reference counts as given. -/
def isPresent : TypeRef → Bool
  | key k => !k.isEmpty
  | other v => v.isPresent

theorem eq_key_of_beq {r : TypeRef} {k : String} (h : (r == .key k) = true) : r = .key k := by
  cases r with
  | key k' => exact congrArg key (eq_of_beq (α := String) h)
  | other v => cases h

theorem eq_keys_of_beq {refs : List TypeRef} {keys : List String}
    (h : (refs == keys.map .key) = true) : refs = keys.map .key := by
  induction keys generalizing refs with
  | nil =>
    cases refs with
    | nil => rfl
    | cons r refs => cases h
  | cons key keys ih =>
    cases refs with
    | nil => cases h
    | cons r refs =>
      have h : (r == .key key && refs == keys.map .key) = true := h
      obtain ⟨hr, hrefs⟩ := Bool.and_eq_true_iff.mp h
      rw [eq_key_of_beq hr, ih hrefs, List.map_cons]

end TypeRef

/-- A named type. -/
structure TypeSymbol where
  name : String
  namespaceName : String := ""
  kind : TypeKind := .class_
  arity : Int := 0
  /-- The key of the type around a nested type. -/
  containing : Option String := none
  special : Option Special := none
  base : Option TypeRef := none
  interfaces : List TypeRef := []
  origin : String := "reference"
  deriving Repr, BEq, Inhabited

namespace TypeSymbol

/-- The name with its arity. -/
def metadata (s : TypeSymbol) : String := metadataName s.name s.arity

/-- What a key is made of: the container, or else the namespace, before the name. -/
def key (s : TypeSymbol) : String :=
  if s.containing.any (!·.isEmpty) then s.containing.getD "" ++ "." ++ s.metadata
  else if s.namespaceName.isEmpty then s.metadata
  else s.namespaceName ++ "." ++ s.metadata

/-- The dotted name without arities; fails when a part has a malformed arity. -/
def display? (s : TypeSymbol) : Option String :=
  ((dottedParts s.key).mapM fun part => (splitMetadataName part).map (·.1)).map
    (".".intercalate ·)

/-- One line for listings. -/
def describe (s : TypeSymbol) : String := s!"TypeSymbol({s.key}, {s.kind.word})"

/-- The declared base, if it counts as given, else another. -/
def baseOr (s : TypeSymbol) (other : Option TypeRef) : Option TypeRef :=
  if s.base.any (·.isPresent) then s.base else other

theorem map_base_of_isNone {found : Option TypeSymbol}
    (h : found.map (·.base.isNone) = some true) : found.map (·.base) = some none := by
  obtain ⟨s, rfl, hbase⟩ := Option.map_eq_some_iff.mp h
  rw [Option.map_some, Option.isNone_iff_eq_none.mp hbase]

theorem map_base_of_beq {found : Option TypeSymbol} {k : String}
    (h : found.map (·.base.any (· == .key k)) = some true) :
    found.map (·.base) = some (some (.key k)) := by
  obtain ⟨s, rfl, hbase⟩ := Option.map_eq_some_iff.mp h
  obtain ⟨r, hr, hkey⟩ := (Option.any_eq_true _ _).mp hbase
  rw [Option.map_some, hr, TypeRef.eq_key_of_beq hkey]

/-- Two declarations of one type: the first counts, and the second completes it. -/
def merge (s t : TypeSymbol) : TypeSymbol :=
  { s with
    base := s.baseOr t.base
    interfaces := s.interfaces ++ t.interfaces.filter (!s.interfaces.contains ·)
    special := s.special.or t.special }

end TypeSymbol

end NullableMarker
