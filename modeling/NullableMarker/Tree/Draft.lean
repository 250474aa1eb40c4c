import NullableMarker.Tree.Edit

/-!
# Drafts

A draft is a tree under a series of edits. Each of its tokens carries the number of the edit that made
it, and `0` when it is from the source. A part of a draft may stand in several places; when an edit
touches one of them, the others stay as they were and are no longer the same part, even if they read
the same. The numbers tell such parts apart.
-/

namespace NullableMarker

/-- A tree whose tokens carry the numbers of the edits that made them. -/
inductive Draft where
  | token (edit : Nat) (t : Token)
  | node (kind : NodeKind) (children : List Draft)
  deriving Repr, Inhabited

namespace Draft

/-! ## Trees and drafts -/

mutual

/-- The draft of a tree that no edit has touched. -/
def ofTree : Tree → Draft
  | .token t => token 0 t
  | .node kind children => node kind (ofTrees children)

/-- The drafts of a list of trees. -/
def ofTrees : List Tree → List Draft
  | [] => []
  | t :: ts => ofTree t :: ofTrees ts

end

mutual

/-- The tree that a draft stands for. -/
def tree : Draft → Tree
  | token _ t => .token t
  | node kind children => .node kind (trees children)

/-- The trees that a list of drafts stands for. -/
def trees : List Draft → List Tree
  | [] => []
  | d :: ds => d.tree :: trees ds

end

mutual

/-- An untouched draft stands for its tree. -/
@[simp] theorem tree_ofTree : (t : Tree) → (ofTree t).tree = t
  | .token t => by simp [ofTree, tree]
  | .node kind children => by simp [ofTree, tree, trees_ofTrees children]

@[simp] theorem trees_ofTrees : (ts : List Tree) → trees (ofTrees ts) = ts
  | [] => by simp [ofTrees, trees]
  | t :: ts => by simp [ofTrees, trees, tree_ofTree t, trees_ofTrees ts]

end

/-! ## Equality -/

mutual

/-- Two parts are the same when they read the same and the same edits made their tokens. -/
def decEq : (a b : Draft) → Decidable (a = b)
  | token m s, token n t =>
    if h : m = n ∧ s = t then isTrue (by rw [h.1, h.2]) else isFalse fun e => h (token.inj e)
  | token _ _, node _ _ => isFalse fun e => by cases e
  | node _ _, token _ _ => isFalse fun e => by cases e
  | node k as, node l bs =>
    if h : k = l then
      match decEqAll as bs with
      | isTrue h' => isTrue (by rw [h, h'])
      | isFalse h' => isFalse fun e => h' (node.inj e).2
    else isFalse fun e => h (node.inj e).1

/-- Equality of lists of parts. -/
def decEqAll : (as bs : List Draft) → Decidable (as = bs)
  | [], [] => isTrue rfl
  | [], _ :: _ => isFalse fun e => by cases e
  | _ :: _, [] => isFalse fun e => by cases e
  | a :: as, b :: bs =>
    match decEq a b, decEqAll as bs with
    | isTrue h, isTrue h' => isTrue (by rw [h, h'])
    | isFalse h, _ => isFalse fun e => h (List.cons.inj e).1
    | _, isFalse h => isFalse fun e => h (List.cons.inj e).2

end

instance : DecidableEq Draft := decEq

/-! ## Outer trivia -/

mutual

/-- The draft with other trivia before its first token. -/
def withLeading (edit : Nat) (trivia : List Trivia) : Draft → Draft
  | token _ t => token edit { t with leading := trivia }
  | node kind children => node kind (withLeadingOf edit trivia children)

/-- Changes the trivia before the first token of a list of drafts. -/
def withLeadingOf (edit : Nat) (trivia : List Trivia) : List Draft → List Draft
  | [] => []
  | d :: ds =>
    if d.tree.firstToken?.isSome then d.withLeading edit trivia :: ds
    else d :: withLeadingOf edit trivia ds

end

mutual

/-- The draft with other trivia after its last token. -/
def withTrailing (edit : Nat) (trivia : List Trivia) : Draft → Draft
  | token _ t => token edit { t with trailing := trivia }
  | node kind children => node kind (withTrailingOf edit trivia children)

/-- Changes the trivia after the last token of a list of drafts. -/
def withTrailingOf (edit : Nat) (trivia : List Trivia) : List Draft → List Draft
  | [] => []
  | d :: ds =>
    if (Tree.lastTokenOf? (trees ds)).isSome then d :: withTrailingOf edit trivia ds
    else d.withTrailing edit trivia :: ds

end

mutual

/-- A draft stands for the tree with the same edit. -/
@[simp] theorem tree_withLeading (edit : Nat) (trivia : List Trivia) :
    (d : Draft) → (d.withLeading edit trivia).tree = d.tree.withLeading trivia
  | token _ t => by simp [withLeading, tree, Tree.withLeading]
  | node kind children => by
    simp [withLeading, tree, Tree.withLeading, trees_withLeadingOf edit trivia children]

@[simp] theorem trees_withLeadingOf (edit : Nat) (trivia : List Trivia) :
    (ds : List Draft) → trees (withLeadingOf edit trivia ds) = Tree.withLeadingOf trivia (trees ds)
  | [] => by simp [withLeadingOf, trees, Tree.withLeadingOf]
  | d :: ds => by
    rw [withLeadingOf, trees, Tree.withLeadingOf]
    split
    · rw [trees, tree_withLeading edit trivia d]
    · rw [trees, trees_withLeadingOf edit trivia ds]

end

mutual

/-- A draft stands for the tree with the same edit. -/
@[simp] theorem tree_withTrailing (edit : Nat) (trivia : List Trivia) :
    (d : Draft) → (d.withTrailing edit trivia).tree = d.tree.withTrailing trivia
  | token _ t => by simp [withTrailing, tree, Tree.withTrailing]
  | node kind children => by
    simp [withTrailing, tree, Tree.withTrailing, trees_withTrailingOf edit trivia children]

@[simp] theorem trees_withTrailingOf (edit : Nat) (trivia : List Trivia) :
    (ds : List Draft) →
      trees (withTrailingOf edit trivia ds) = Tree.withTrailingOf trivia (trees ds)
  | [] => by simp [withTrailingOf, trees, Tree.withTrailingOf]
  | d :: ds => by
    rw [withTrailingOf, trees, Tree.withTrailingOf]
    split
    · rw [trees, trees_withTrailingOf edit trivia ds]
    · rw [trees, tree_withTrailing edit trivia d]

end

/-! ## Children -/

/-- The parts right below a draft. -/
def children : Draft → List Draft
  | token _ _ => []
  | node _ children => children

/-- The parts right below a draft that are nodes. -/
def childNodes (d : Draft) : List Draft := d.children.filter (·.tree.isNode fun _ => true)

/-- The draft with other parts right below it. -/
def withChildren (d : Draft) (children : List Draft) : Draft :=
  match d with
  | token edit t => token edit t
  | node kind _ => node kind children

/-- The draft with another part wherever `old` stands right below it. -/
def replaceChild (d old new : Draft) : Draft :=
  d.withChildren (d.children.map fun c => if c = old then new else c)

/-- The draft without the part at `index`. -/
def eraseChild (d : Draft) (index : Nat) : Draft := d.withChildren (d.children.eraseIdx index)

/-! ## Nullable marks -/

/-- The type with a nullable mark right after it. -/
def makeNullable (edit : Nat) (d : Draft) : Draft :=
  node .nullableType
    [d.withTrailing edit [], token edit (Tree.questionMark d.tree.trailing)]

/-- A draft stands for the tree with the same mark. -/
@[simp] theorem tree_makeNullable (edit : Nat) (d : Draft) :
    (d.makeNullable edit).tree = d.tree.makeNullable := by
  simp [makeNullable, tree, trees, Tree.makeNullable]

/-- The declared type. -/
def type? (d : Draft) : Option Draft := d.children.find? (·.tree.isNode NodeKind.isType)

/-- A declaration with a nullable mark on its type, wherever that part stands right below it. -/
def markType (edit : Nat) (d : Draft) : Option Draft :=
  d.type?.map fun type => d.replaceChild type (type.makeNullable edit)

end Draft

end NullableMarker
