import NullableMarker.Symbol
import NullableMarker.Tree.View

/-!
# Scopes

A scope is a chain of frames, innermost first: namespaces with their using directives, types with
their type parameters, methods with theirs. Every node of a tree has the chain it stands in, except
those that names are never looked up for.
-/

namespace NullableMarker

/-! ## Frames -/

/-- One level of a scope. -/
inductive Frame where
  | space (name : String) (usings : List Tree)
  | type (key : String) (parameters : List String)
  | method (parameters : List String)
  deriving Repr, Inhabited

namespace Frame

/-- The type parameters of a frame. -/
def parameters : Frame → List String
  | space _ _ => []
  | type _ ps => ps
  | method ps => ps

/-- One line for listings. -/
def describe : Frame → String
  | space name _ =>
    let shown := if name.isEmpty then "<global>" else name
    s!"Scope(namespace={shown})"
  | type key _ => s!"Scope(type={key})"
  | method ps =>
    let sorted := ps.eraseDups.mergeSort fun a b => !decide (b < a)
    let listed := ", ".intercalate (sorted.map Text.quoted)
    s!"Scope(type_parameters=[{listed}])"

end Frame

/-- A scope, innermost frame first. -/
abbrev Scope := List Frame

/-- A name inside a namespace. -/
def joinName (space name : String) : String :=
  if space.isEmpty then name else space ++ "." ++ name

namespace Scope

/-- The name of the innermost namespace. -/
def namespaceName : Scope → String
  | [] => ""
  | .space name _ :: _ => name
  | _ :: outer => namespaceName outer

/-- The key of the type that directly surrounds a declaration. -/
def container? : Scope → Option String
  | .type key _ :: _ => some key
  | _ => none

/-- Enters the segments of a namespace name; the using directives belong to the last. -/
def enterNamespace (scope : Scope) (usings : List Tree) : List String → Scope
  | [] => scope
  | [name] => .space (joinName scope.namespaceName name) usings :: scope
  | name :: names =>
    enterNamespace (.space (joinName scope.namespaceName name) [] :: scope) usings names

end Scope

/-! ## Declared types -/

/-- The kind of type that a node declares. -/
def NodeKind.typeKind? : NodeKind → Option TypeKind
  | .classType | .recordType => some .class_
  | .structType => some .struct
  | .interfaceType => some .interface
  | .enumType => some .enum
  | .delegateType => some .delegate
  | _ => none

/-- The symbol that a type declaration in a scope stands for, before its bases are known. -/
def declaredSymbol (origin : String) (scope : Scope) (kind : TypeKind) (node : Tree) : TypeSymbol :=
  { name := node.name, namespaceName := scope.namespaceName, kind,
    arity := node.typeParameters.length, containing := scope.container?, origin }

/-! ## Walking a tree -/

/-- The kinds of nodes below which no name is looked up. -/
def NodeKind.isOpaque : NodeKind → Bool
  | .block | .expressionBody | .equalsValue | .skipped | .attributeList | .constraintClause
  | .externAlias => true
  | _ => false

/-- The using directives right under a node. -/
def Tree.usings (t : Tree) : List Tree := t.childrenOf (· == .usingDirective)

/-- The scope inside a node that stands in `scope`. -/
def Scope.enter (scope : Scope) (t : Tree) : Scope :=
  match t.kind? with
  | none => scope
  | some kind =>
    match kind.typeKind? with
    | some typeKind =>
      .type (declaredSymbol "" scope typeKind t).key t.typeParameters :: scope
    | none =>
      if kind == .compilationUnit || kind == .fragment then [.space "" t.usings]
      else if kind.isNamespace then
        scope.enterNamespace t.usings
          ((t.nameNode?.map fun n => n.segments.map (·.name)).getD [])
      else if kind == .method then .method t.typeParameters :: scope
      else scope

/-- A node and the scope it stands in, if names are looked up there. -/
structure ScopedNode where
  node : Tree
  outer : Option Scope

namespace ScopedNode

/-- The node is of a kind in a class. -/
def isKind (s : ScopedNode) (p : NodeKind → Bool) : Bool := s.node.isNode p

/-- The scope inside the node. -/
def inner (s : ScopedNode) : Option Scope := s.outer.map (·.enter s.node)

/-- The scope that a declaration or type sees. A method and a delegate see their own type
parameters; units, namespaces and directives have no scope of their own. -/
def scope? (s : ScopedNode) : Option Scope :=
  match s.node.kind? with
  | none => none
  | some kind =>
    if kind.isOpaque || kind.isNamespace || kind == .usingDirective || kind == .compilationUnit
        || kind == .fragment then none
    else if kind == .method || kind == .delegateType then s.inner
    else s.outer

end ScopedNode

mutual

/-- The nodes of a tree that stands in `scope`, each with its scope, in the order of `Tree.nodes`. -/
def Tree.scoped (scope : Scope) : Tree → List ScopedNode
  | .token _ => []
  | .node kind children =>
    ⟨.node kind children, some scope⟩ ::
      (if kind.isOpaque || kind == .usingDirective then
        (Tree.nodesAll children).map (⟨·, none⟩)
      else if kind.isNamespace then
        Tree.scopedMembers (scope.enter (.node kind children)) children
      else Tree.scopedAll (scope.enter (.node kind children)) children)

/-- The nodes of a list of trees. -/
def Tree.scopedAll (scope : Scope) : List Tree → List ScopedNode
  | [] => []
  | t :: ts => t.scoped scope ++ Tree.scopedAll scope ts

/-- The nodes of the children of a namespace, whose name is looked up nowhere. -/
def Tree.scopedMembers (scope : Scope) : List Tree → List ScopedNode
  | [] => []
  | t :: ts =>
    if t.isNode (· == .name) then t.nodes.map (⟨·, none⟩) ++ Tree.scopedAll scope ts
    else t.scoped scope ++ Tree.scopedMembers scope ts

end

end NullableMarker
