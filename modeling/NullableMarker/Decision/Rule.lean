import NullableMarker.Decision.Guard
import NullableMarker.Decision.Site
import NullableMarker.Text.Search

/-!
# Decision rules

Each kind of declaration has a table of rules. The rules that look only at the declaration come
before those that look at its type. The first rule that applies decides, and a declaration to which
none applies is not optional.
-/

namespace NullableMarker

/-! ## Rules -/

/-- What a rule decides. -/
inductive Ruling where
  | optional
  | required
  /-- Optional unless the setter refuses null. -/
  | unlessGuarded
  deriving Repr, DecidableEq

/-- A rule about things of some type. -/
structure Rule (α : Type) where
  name : String
  applies : Profile → α → Except BadReference Bool
  ruling : Ruling

/-- The first rule that applies. Those after it are not asked. -/
def firstRule (p : Profile) (x : α) : List (Rule α) → Except BadReference (Option (Rule α))
  | [] => .ok none
  | rule :: rules => do
    if ← rule.applies p x then return some rule
    else firstRule p x rules

/-- A declared type with all types known. -/
structure KnownType where
  table : SymbolTable
  symbol : TypeSymbol

/-- The rules for a kind of declaration. -/
structure RuleTable where
  bySite : List (Rule Site) := []
  byType : List (Rule KnownType) := []

/-! ## Conditions on the declaration -/

namespace Site

/-- The declaration is static. -/
def isStatic (s : Site) (_ : Profile) : Bool := s.node.isStatic

/-- The field keeps unknown data. -/
def keepsUnknownFields (s : Site) (p : Profile) : Bool :=
  s.node.variableNames.contains p.unknownFieldsName

/-- The parameter belongs to the method that compares. -/
def inEqualityMethod (s : Site) (p : Profile) : Bool := s.method == some p.equalityMethod

/-- The parameter belongs to the method that merges. -/
def inMergeMethod (s : Site) (p : Profile) : Bool := s.method == some p.mergeMethod

/-- The method that merges reads a stream from the parameter, going by the text of its type. -/
def readsInputStream (s : Site) (p : Profile) : Bool :=
  s.inMergeMethod p
    && s.node.type?.any fun type => Text.occurs p.inputStreamType.toList type.text.toList

end Site

/-! ## Conditions on the type -/

namespace KnownType

/-- The type is `string`. -/
def isString (t : KnownType) (_ : Profile) : Bool := t.symbol.special == some .string

/-- The type is the immutable sequence of bytes. -/
def isByteString (t : KnownType) (p : Profile) : Bool :=
  t.symbol.name == p.byteString && t.symbol.namespaceName == p.coreNamespace
    && t.symbol.containing.isNone && t.symbol.arity == 0

/-- The type is one of those two. -/
def isStringOrByteString (t : KnownType) (p : Profile) : Bool := t.isString p || t.isByteString p

/-- The type is a collection of the framework. -/
def isCollection (t : KnownType) (p : Profile) : Bool :=
  t.symbol.namespaceName == p.collectionsNamespace && t.symbol.containing.isNone
    && p.collectionTypes.contains t.symbol.name

/-- The type is a message. -/
def isMessage (t : KnownType) (p : Profile) : Except BadReference Bool :=
  t.table.implements t.symbol p.coreNamespace p.messageInterface

end KnownType

/-! ## The tables -/

/-- The rules for properties. -/
def propertyRules : RuleTable where
  bySite := [⟨"static", fun p s => .ok (s.isStatic p), .required⟩]
  byType := [
    ⟨"string", fun p t => .ok (t.isString p), .unlessGuarded⟩,
    ⟨"byte-string", fun p t => .ok (t.isByteString p), .unlessGuarded⟩,
    ⟨"collection", fun p t => .ok (t.isCollection p), .required⟩,
    ⟨"message", fun p t => t.isMessage p, .optional⟩]

/-- The rules for fields. What backs a guarded property stays optional. -/
def fieldRules : RuleTable where
  bySite := [
    ⟨"static", fun p s => .ok (s.isStatic p), .required⟩,
    ⟨"unknown-fields", fun p s => .ok (s.keepsUnknownFields p), .optional⟩]
  byType := [
    ⟨"message", fun p t => t.isMessage p, .optional⟩,
    ⟨"string-or-byte-string", fun p t => .ok (t.isStringOrByteString p), .optional⟩]

/-- The rules for parameters. -/
def parameterRules : RuleTable where
  bySite := [
    ⟨"equality", fun p s => .ok (s.inEqualityMethod p), .optional⟩,
    ⟨"merge-from-stream", fun p s => .ok (s.readsInputStream p), .required⟩,
    ⟨"merge-from", fun p s => .ok (s.inMergeMethod p), .optional⟩]

/-- The rules for a kind of declaration. -/
def SiteKind.rules : SiteKind → RuleTable
  | property => propertyRules
  | field => fieldRules
  | parameter => parameterRules

end NullableMarker
