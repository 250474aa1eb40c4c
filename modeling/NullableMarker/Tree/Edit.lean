import NullableMarker.Tree.View

/-!
# Edits that keep the trivia

Trees are never changed in place. An edit gives a tree in which only the named part differs.
-/

namespace NullableMarker.Tree

/-! ## Outer trivia -/

mutual

/-- The tree with other trivia before its first token. -/
def withLeading (trivia : List Trivia) : Tree → Tree
  | token t => token { t with leading := trivia }
  | node kind children => node kind (withLeadingOf trivia children)

/-- Changes the trivia before the first token of a list of trees; trees without a token are passed
over. -/
def withLeadingOf (trivia : List Trivia) : List Tree → List Tree
  | [] => []
  | t :: ts =>
    if t.firstToken?.isSome then t.withLeading trivia :: ts else t :: withLeadingOf trivia ts

end

mutual

/-- The tree with other trivia after its last token. -/
def withTrailing (trivia : List Trivia) : Tree → Tree
  | token t => token { t with trailing := trivia }
  | node kind children => node kind (withTrailingOf trivia children)

/-- Changes the trivia after the last token of a list of trees; trees without a token are passed
over. -/
def withTrailingOf (trivia : List Trivia) : List Tree → List Tree
  | [] => []
  | t :: ts =>
    if (lastTokenOf? ts).isSome then t :: withTrailingOf trivia ts
    else t.withTrailing trivia :: ts

end

/-! ## Children -/

/-- The tree with another list of children. -/
def withChildren (t : Tree) (children : List Tree) : Tree :=
  match t with
  | token s => token s
  | node kind _ => node kind children

/-- The tree with each child equal to `old` replaced. -/
def replaceChild (t old new : Tree) : Tree :=
  t.withChildren (t.children.map fun c => if c = old then new else c)

/-- The tree without the child at `index`. -/
def eraseChild (t : Tree) (index : Nat) : Tree := t.withChildren (t.children.eraseIdx index)

/-! ## Nullable marks -/

/-- The question mark put after a type, with the trivia that stood after the type. -/
def questionMark (trailing : List Trivia) : Token := { kind := .question, value := "?", trailing }

/-- The type with a nullable mark right after it; the trivia after the type follows the mark. -/
def makeNullable (t : Tree) : Tree :=
  node .nullableType [t.withTrailing [], token (questionMark t.trailing)]

/-- A declaration with another type. -/
def withType (t new : Tree) : Tree :=
  match t.type? with
  | some old => t.replaceChild old new
  | none => t

end NullableMarker.Tree
