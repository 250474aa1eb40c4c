import NullableMarker.Tree.Edit

/-!
# Marking declarations

A verdict table says for offsets of declarations whether the declared type may be null. Marking a
tree puts a nullable mark after the type of each property, field and parameter with such a verdict,
unless the type has one or there is no type.
-/

namespace NullableMarker

/-- Whether the declaration at an offset is optional; the last entry for an offset counts. -/
abbrev Verdicts := List (Nat × Bool)

/-- The declaration at `offset?` is optional. -/
def Verdicts.isOptional (v : Verdicts) (offset? : Option Nat) : Bool :=
  match offset? with
  | some offset => (v.reverse.lookup offset).getD false
  | none => false

/-- The kinds of declarations that are marked. -/
def NodeKind.isSite : NodeKind → Bool
  | .property | .field | .parameter => true
  | _ => false

namespace Tree

/-- The declaration has a type without a nullable mark. -/
def needsMark (t : Tree) : Bool := t.type?.any (!·.isNullable)

/-- The declaration with a nullable mark on its type. -/
def markType (t : Tree) : Tree :=
  match t.type? with
  | some type => if type.isNullable then t else t.withType type.makeNullable
  | none => t

mutual

/-- The tree with the declared types marked that the verdicts call optional. -/
def mark (v : Verdicts) : Tree → Tree
  | token t => token t
  | node kind children =>
    if kind.isSite && v.isOptional (node kind children).offset? then
      (node kind (markAll v children)).markType
    else node kind (markAll v children)

/-- Marks each of a list of trees. -/
def markAll (v : Verdicts) : List Tree → List Tree
  | [] => []
  | t :: ts => t.mark v :: markAll v ts

end

mutual

/-- The number of marks that marking the tree puts in. -/
def markCount (v : Verdicts) : Tree → Nat
  | token _ => 0
  | node kind children =>
    (if kind.isSite && v.isOptional (node kind children).offset?
        && (node kind children).needsMark then 1 else 0)
      + markCountAll v children

/-- The number of marks that marking each of a list of trees puts in. -/
def markCountAll (v : Verdicts) : List Tree → Nat
  | [] => 0
  | t :: ts => t.markCount v + markCountAll v ts

end

end Tree

end NullableMarker
