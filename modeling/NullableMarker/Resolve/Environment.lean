import NullableMarker.Resolve.Lookup

/-!
# Environments

An environment ties the tree of a unit to the types known. The types of the unit are declared first,
those declared in parts merging; then their base lists are resolved in the order of declaration, so
that one base list may see what an earlier one has filled in.
-/

namespace NullableMarker

/-! ## Declaring -/

/-- The declarations of types among scoped nodes. -/
def typeDeclarations (nodes : List ScopedNode) : List ScopedNode :=
  nodes.filter fun s => s.outer.isSome && s.isKind NodeKind.isTypeDeclaration

namespace ScopedNode

/-- The symbol that a type declaration stands for, before its bases are known. -/
def declaredSymbol? (origin : String) (s : ScopedNode) : Option TypeSymbol := do
  let kind ← s.node.kind?
  let typeKind ← kind.typeKind?
  let outer ← s.outer
  return declaredSymbol origin outer typeKind s.node

/-- The key of a declared type. -/
def declaredKey? (s : ScopedNode) : Option String := (s.declaredSymbol? "").map (·.key)

end ScopedNode

/-! ## Base lists -/

/-- What a base list says: the base class, and the interfaces. -/
structure BaseList where
  base : Option TypeRef := none
  interfaces : List TypeRef := []

/-- Adds what one entry stands for. Only the first class counts, and only for a class. -/
def BaseList.add (l : BaseList) (isClass : Bool) (entry : Option TypeSymbol) : BaseList :=
  match entry with
  | none => l
  | some s =>
    if s.kind == .interface then { l with interfaces := l.interfaces ++ [.key s.key] }
    else if s.kind == .class_ && isClass && l.base.isNone then { l with base := some (.key s.key) }
    else l

/-- Resolves the base list of a declaration. -/
def resolveBaseList (s : ScopedNode) : Resolve BaseList := do
  match s.inner with
  | none => return {}
  | some scope =>
    let isClass := s.isKind fun k => k == .classType || k == .recordType
    s.node.baseTypes.foldlM (fun l base => return l.add isClass (← scope.lookup.typeNode base)) {}

/-- Completes the type with a key by what a base list says. -/
def SymbolTable.complete (t : SymbolTable) (key : String) (l : BaseList) : SymbolTable :=
  match t.get? key with
  | none => t
  | some s =>
    let completed := { s with
      base := s.baseOr l.base
      interfaces := s.interfaces ++ l.interfaces.filter (!s.interfaces.contains ·) }
    { t with types := upsert key completed t.types }

/-- Resolves the base list of a declaration and completes its type. Enumerations and delegates have
no bases of their own. -/
def completeDeclaration (s : ScopedNode) : Resolve Unit := do
  if s.isKind fun k => k == .enumType || k == .delegateType then return
  match s.declaredKey? with
  | none => return
  | some key =>
    let l ← resolveBaseList s
    modify fun st => { st with table := st.table.complete key l }

/-! ## Environments -/

/-- A tree with its scopes, and the types known to it. -/
structure Environment where
  root : Tree
  nodes : List ScopedNode
  resolution : Resolution

namespace Environment

/-- The environment of a tree over the types of `references`. `origin` is where its own types are
said to come from. -/
def ofTree (references : SymbolTable) (origin : String) (root : Tree) :
    Except BadReference Environment := do
  let nodes := root.scoped []
  let declarations := typeDeclarations nodes
  let table := references.addAll (declarations.filterMap (·.declaredSymbol? origin))
  let ((), resolution) ← (declarations.forM completeDeclaration).run { table }
  return { root, nodes, resolution }

/-- The types known. -/
def table (env : Environment) : SymbolTable := env.resolution.table

/-- The types that the tree declares, in the order of their first declarations. -/
def declaredTypes (env : Environment) : List TypeSymbol :=
  (((typeDeclarations env.nodes).filterMap (·.declaredKey?)).eraseDups).filterMap env.table.get?

end Environment

/-! ## Questions -/

/-- The type that a type node in a scope stands for. -/
def typeIn (scope : Option Scope) (type : Option Tree) : Resolve (Option TypeSymbol) :=
  match scope, type with
  | some scope, some type => scope.lookup.typeNode type
  | _, _ => pure none

/-- The declared type of a declaration. -/
def ScopedNode.typeOf (s : ScopedNode) : Resolve (Option TypeSymbol) := typeIn s.inner s.node.type?

/-- The type that a type node stands for. -/
def ScopedNode.asType (s : ScopedNode) : Resolve (Option TypeSymbol) := typeIn s.outer (some s.node)

/-- What a dotted expression before a member stands for, at a declaration. -/
def ScopedNode.qualifier (s : ScopedNode) (aliasName : Option String) (names : List String) :
    Resolve (Option Target) :=
  match s.scope? with
  | none => pure none
  | some scope => scope.lookup.qualified aliasName (names.map (·, 0))

/-- A type implements the interface of a namespace with a name, at any arity. -/
def SymbolTable.implements (t : SymbolTable) (s : TypeSymbol) (space name : String) :
    Except BadReference Bool := do
  return (← t.allInterfaces s).any fun i =>
    i.namespaceName == space && i.name == name && i.containing.isNone

end NullableMarker
