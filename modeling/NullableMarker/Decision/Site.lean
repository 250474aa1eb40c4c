import NullableMarker.Resolve.Environment

/-!
# Declaration sites

The properties, fields and parameters of a tree, in source order. A parameter comes with the method
that owns it.
-/

namespace NullableMarker

/-- The kinds of declarations that are judged. -/
inductive SiteKind where
  | property | field | parameter
  deriving Repr, DecidableEq, Inhabited

/-- The word for a kind. -/
def SiteKind.word : SiteKind → String
  | property => "property" | field => "field" | parameter => "parameter"

/-- A declaration to be judged. -/
structure Site where
  kind : SiteKind
  declaration : ScopedNode
  /-- The name of the method that owns a parameter. -/
  method : Option String := none

namespace Site

/-- The node of the declaration. -/
def node (s : Site) : Tree := s.declaration.node

/-- Where the declaration starts. -/
def offset? (s : Site) : Option Nat := s.node.offset?

/-- What is declared; all variables of a field. -/
def name (s : Site) : String :=
  match s.kind with
  | .field => ", ".intercalate s.node.variableNames
  | _ => s.node.name

/-- The line that the declaration starts on. -/
def line (s : Site) : Nat := (s.node.firstToken?.map (·.place.line)).getD 0

end Site

namespace ScopedNode

/-- The site that a node is by itself. -/
def ownSite (s : ScopedNode) : List Site :=
  if s.isKind (· == .property) then [{ kind := .property, declaration := s }]
  else if s.isKind (· == .field) then [{ kind := .field, declaration := s }]
  else []

/-- The sites of the parameters that a node owns. -/
def parameterSites (s : ScopedNode) : List Site :=
  if s.isKind (· == .parameter) then []
  else
    let method := if s.isKind (· == .method) then some s.node.name else none
    ((s.node.parameterList?.map (·.parameters)).getD []).map fun p =>
      { kind := .parameter, declaration := ⟨p, s.inner⟩, method }

end ScopedNode

/-- The sites among scoped nodes. -/
def sitesOf (nodes : List ScopedNode) : List Site :=
  nodes.flatMap fun s => s.ownSite ++ s.parameterSites

/-- The sites below the root, in source order. -/
def Environment.sites (env : Environment) : List Site := sitesOf env.nodes.tail

end NullableMarker
