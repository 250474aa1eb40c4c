import NullableMarker.Tree

/-!
# Views of declarations and types

What a node says, read off its children: the segments of a name, the target of a using directive,
the modifiers, type, name and parameters of a declaration, the accessors of a property.
-/

namespace NullableMarker.Tree

/-! ## Types -/

/-- The first child that is a type: the wrapped type of a type, the type of a declaration, the
target of a using directive. -/
def type? (t : Tree) : Option Tree := t.child? NodeKind.isType

/-- A type with a nullable mark. -/
def isNullable (t : Tree) : Bool := t.isNode (· == .nullableType)

/-! ## Names -/

/-- A segment of a name: an identifier with its list of type arguments, if it has one. -/
structure Segment where
  name : String
  arguments : Option Tree := none

/-- The number of type arguments. -/
def Segment.arity (s : Segment) : Nat :=
  match s.arguments with
  | some list => (list.childrenOf NodeKind.isType).length
  | none => 0

/-- The identifier before `::`. -/
def aliasToken? (t : Tree) : Option Token :=
  match t.children with
  | token a :: token mark :: _ => if mark.kind == .doubleColon then some a else none
  | _ => none

/-- The segments that a list of children spells. -/
def segmentsOf : List Tree → List Segment
  | [] => []
  | token t :: rest =>
    if t.kind == .identifier then
      ⟨t.value, rest.head?.filter (·.isNode (· == .typeArgumentList))⟩ :: segmentsOf rest
    else segmentsOf rest
  | node _ _ :: rest => segmentsOf rest

/-- The dotted segments of a name, without its alias. -/
def segments (t : Tree) : List Segment :=
  segmentsOf (if t.aliasToken?.isSome then t.children.drop 2 else t.children)

/-- The last segment of a name. -/
def identifier (t : Tree) : String := (t.segments.getLast?.map (·.name)).getD ""

/-- The types of a type argument list. -/
def arguments (t : Tree) : List Tree := t.childrenOf NodeKind.isType

/-! ## Directives and namespaces -/

/-- The using directive imports the members of a type. -/
def isStaticUsing (t : Tree) : Bool := t.childTokens.any (·.isKeyword ["static"])

/-- The token before the first `=` that has one before it. -/
def beforeEquals? : List Token → Option Token
  | a :: b :: rest => if b.kind == .equals then some a else beforeEquals? (b :: rest)
  | _ => none

/-- The name that a using directive gives its target. -/
def usingAlias? (t : Tree) : Option String := (beforeEquals? t.childTokens).map (·.value)

/-- The name node of a namespace. -/
def nameNode? (t : Tree) : Option Tree := t.child? (· == .name)

/-- The dotted name of a namespace. -/
def qualifiedName (t : Tree) : String :=
  ".".intercalate ((t.nameNode?.map fun n => n.segments.map (·.name)).getD [])

/-- The child nodes without the first name. -/
def withoutName : List Tree → List Tree
  | [] => []
  | t :: ts => if t.isNode (· == .name) then ts else t :: withoutName ts

/-- The members of a namespace. -/
def namespaceMembers (t : Tree) : List Tree := withoutName t.childNodes

/-! ## Declarations -/

/-- The attribute lists of a declaration. -/
def attributeLists (t : Tree) : List Tree := t.childrenOf (· == .attributeList)

/-- The modifiers of a declaration. -/
def modifiers (t : Tree) : List String :=
  match t.child? (· == .modifiers) with
  | some list => list.childTokens.map (·.value)
  | none => []

/-- A static declaration; constants are. -/
def isStatic (t : Tree) : Bool := t.modifiers.any (["static", "const"].contains ·)

/-- The last identifier right under the node. -/
def nameToken? (t : Tree) : Option Token :=
  t.childTokens.reverse.find? (·.kind == .identifier)

/-- The declared name. -/
def name (t : Tree) : String := (t.nameToken?.map (·.value)).getD ""

/-- The parameter list of a declaration. -/
def parameterList? (t : Tree) : Option Tree := t.child? (· == .parameterList)

/-- The parameters of a parameter list. -/
def parameters (t : Tree) : List Tree := t.childrenOf (· == .parameter)

/-- The identifiers of the type parameter list. -/
def typeParameterTokens (t : Tree) : List Token :=
  match t.child? (· == .typeParameterList) with
  | some list => list.childTokens.filter (·.kind == .identifier)
  | none => []

/-- The type parameters of a method or type. -/
def typeParameters (t : Tree) : List String := t.typeParameterTokens.map (·.value)

/-- The base types of a type declaration. -/
def baseTypes (t : Tree) : List Tree :=
  match t.child? (· == .baseList) with
  | some list => list.childrenOf NodeKind.isType
  | none => []

/-- A child of a type declaration that is no member of it. -/
def isTypeHeadKind (k : NodeKind) : Bool :=
  k == .attributeList || k == .modifiers || k == .typeParameterList || k == .parameterList
    || k == .baseList || k == .constraintClause || k == .block || k.isType

/-- The members of a type declaration. -/
def typeMembers (t : Tree) : List Tree := t.childrenOf fun k => !isTypeHeadKind k

/-- The names that a field declares. -/
def variableNames (t : Tree) : List String :=
  (t.childrenOf (· == .variableDeclarator)).filterMap fun d => d.childTokens.head?.map (·.value)

/-! ## Properties and methods -/

/-- The accessors of a property, if it has a list of them. -/
def accessors? (t : Tree) : Option (List Tree) :=
  (t.child? (· == .accessorList)).map (·.childrenOf (· == .accessor))

/-- The accessor with a keyword. -/
def accessor? (t : Tree) (keyword : String) : Option Tree :=
  t.accessors?.bind (·.find? (·.name == keyword))

/-- The block or expression body of an accessor. -/
def accessorBody? (t : Tree) : Option Tree :=
  t.child? fun k => k == .block || k == .expressionBody

/-- The interface before an explicitly implemented method. -/
def explicitInterface? (t : Tree) : Option Tree := t.child? (· == .explicitInterface)

end NullableMarker.Tree
