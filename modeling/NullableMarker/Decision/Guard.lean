import NullableMarker.Decision.Profile
import NullableMarker.Resolve.Environment

/-!
# Guards

A setter is guarded when it calls a method that refuses null. Only tokens count, so a comment or a
literal that mentions such a method is no guard. A call counts when what stands before it names a
type that holds the method, or nothing that is known.
-/

namespace NullableMarker

/-! ## Calls -/

/-- A token that cannot stand among type arguments. -/
def stopsTypeArguments (t : Token) : Bool :=
  [TokenKind.semicolon, .lbrace, .rbrace, .lparen, .rparen, .equals, .eof].contains t.kind

/-- The tokens after the type arguments that are open at a depth. -/
def afterTypeArguments (depth : Nat) : List Token → Option (List Token)
  | [] => none
  | t :: ts =>
    if t.kind == .lessThan then afterTypeArguments (depth + 1) ts
    else if t.kind == .greaterThan then
      if depth ≤ 1 then some ts else afterTypeArguments (depth - 1) ts
    else if stopsTypeArguments t then none
    else afterTypeArguments depth ts

/-- The tokens after a name call it, with or without type arguments. -/
def isInvoked (after : List Token) : Bool :=
  let rest := if (after.head?.map (·.kind)) == some .lessThan then afterTypeArguments 0 after
    else some after
  (rest.bind (·.head?)).any (·.kind == .lparen)

/-! ## Qualifiers -/

/-- The dotted names before a call, after an alias if there is one. -/
structure Qualifier where
  aliasName : Option String := none
  names : List String := []
  deriving Repr, DecidableEq

namespace Qualifier

/-- Nothing stands before the call. -/
def isEmpty (q : Qualifier) : Bool := q.aliasName.isNone && q.names.isEmpty

/-- The qualifier that tokens spell, the nearest first, before the names given. There is none when
a dot follows anything but an identifier. -/
def before (names : List String) : List Token → Option Qualifier
  | [] => some { names }
  | [mark] => if mark.kind == .dot then none else some { names }
  | mark :: t :: rest =>
    if mark.kind == .dot then
      if t.kind == .identifier then before (t.value :: names) rest else none
    else if mark.kind == .doubleColon && t.kind == .identifier then
      some { aliasName := some t.value, names }
    else some { names }

end Qualifier

/-! ## Guard calls -/

namespace Profile

/-- A call of a guard method, at a declaration and with the tokens before it, is a guard. -/
def isGuardCall (p : Profile) (s : ScopedNode) (previous : List Token) : Resolve Bool := do
  match Qualifier.before [] previous with
  | none => return true
  | some q =>
    if q.isEmpty then return true
    else
      match ← s.qualifier q.aliasName q.names with
      | none => return true
      | some (.type holder) => return p.guardHolders.contains holder.key
      | some (.space _) => return false

/-- Some of the tokens are a guard call; those before them are given, the nearest first. -/
def hasGuardCall (p : Profile) (s : ScopedNode) (previous : List Token) :
    List Token → Resolve Bool
  | [] => return false
  | t :: rest => do
    if t.kind == .identifier && p.guardMethods.contains t.value && isInvoked rest then
      if ← p.isGuardCall s previous then return true
    p.hasGuardCall s (t :: previous) rest

/-- The setter of a property refuses null. -/
def isGuarded (p : Profile) (s : ScopedNode) : Resolve Bool :=
  match (s.node.accessor? "set").bind (·.accessorBody?) with
  | none => return false
  | some body => p.hasGuardCall s [] body.tokens

end Profile

end NullableMarker
