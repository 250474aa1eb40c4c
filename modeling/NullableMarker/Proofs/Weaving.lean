import NullableMarker.Proofs.Forms

/-!
# Tokens with marks woven in

A weaving replaces tokens by tokens of the same kind and value, and puts a question mark after some.
A tree of such tokens becomes the same tree with the marks at the ends of its types, if that is where
they come.

* `Weaving.weave` — the tokens that come out
* `Weaving.Sound` — marks come between the end of a type and an identifier
* `Weaving.Fits` — the marks of a tree come at the ends of its types
* `Weaving.tree` — the tree that comes out
-/

namespace NullableMarker

/-- No type ends with a token of the kind. -/
@[simp] def TokenKind.endsNoType : TokenKind → Bool
  | identifier | keyword | rparen | rbracket | greaterThan | question | operator => false
  | _ => true

/-- Tokens of the same kinds and values in the place of others, and marks after some of them. -/
structure Weaving where
  relabel : Token → Token
  marked : Token → Bool
  mark : Token → Token
  kind_relabel : ∀ t, (relabel t).kind = t.kind
  value_relabel : ∀ t, (relabel t).value = t.value
  kind_mark : ∀ t, (mark t).kind = .question

namespace Weaving

variable (w : Weaving)

attribute [simp] kind_relabel value_relabel kind_mark

@[simp] theorem isKeyword_relabel (t : Token) (words : List String) :
    (w.relabel t).isKeyword words = t.isKeyword words := by simp [Token.isKeyword]

@[simp] theorem isWord_relabel (t : Token) (words : List String) :
    (w.relabel t).isWord words = t.isWord words := by simp [Token.isWord]

/-! ## Tokens -/

/-- The mark after a token, if it has one. -/
def after (t : Token) : List Token := if w.marked t then [w.mark t] else []

theorem after_of_marked {t : Token} (h : w.marked t = true) : w.after t = [w.mark t] := by
  rw [after, h]
  rfl

@[simp] theorem after_of_unmarked {t : Token} (h : w.marked t = false) : w.after t = [] := by
  rw [after, h]
  rfl

/-- The tokens that come out. -/
def weave (ts : List Token) : List Token := ts.flatMap fun t => w.relabel t :: w.after t

@[simp] theorem weave_nil : w.weave [] = [] := rfl

@[simp] theorem weave_cons (t : Token) (ts : List Token) :
    w.weave (t :: ts) = w.relabel t :: (w.after t ++ w.weave ts) := rfl

@[simp] theorem weave_append (as bs : List Token) :
    w.weave (as ++ bs) = w.weave as ++ w.weave bs := by simp [weave]

theorem weave_of_unmarked {ts : List Token} (h : ∀ t ∈ ts, w.marked t = false) :
    w.weave ts = ts.map w.relabel := by
  induction ts with
  | nil => rfl
  | cons t ts ih =>
    rw [weave_cons, w.after_of_unmarked (h t (by simp)), ih fun u hu => h u (by simp [hu])]
    rfl

/-- The mark after the last of some tokens. -/
def pending (ts : List Token) : List Token := (ts.getLast?.map w.after).getD []

/-- The tokens that come out, without a mark after the last. -/
def weaveOpen : List Token → List Token
  | [] => []
  | [t] => [w.relabel t]
  | t :: u :: ts => w.relabel t :: (w.after t ++ weaveOpen (u :: ts))

@[simp] theorem pending_nil : w.pending [] = [] := rfl

@[simp] theorem pending_singleton (t : Token) : w.pending [t] = w.after t := rfl

@[simp] theorem pending_concat (ts : List Token) (t : Token) :
    w.pending (ts ++ [t]) = w.after t := by simp [pending]

theorem pending_append (as : List Token) {bs : List Token} (h : bs ≠ []) :
    w.pending (as ++ bs) = w.pending bs := by
  rw [pending, pending, List.getLast?_append, List.getLast?_eq_some_getLast h]
  rfl

theorem pending_cons (t : Token) {ts : List Token} (h : ts ≠ []) :
    w.pending (t :: ts) = w.pending ts := w.pending_append [t] h

theorem weaveOpen_cons (t : Token) {ts : List Token} (h : ts ≠ []) :
    w.weaveOpen (t :: ts) = w.relabel t :: (w.after t ++ w.weaveOpen ts) := by
  cases ts with
  | nil => exact absurd rfl h
  | cons u ts => rfl

theorem weaveOpen_append_pending (ts : List Token) :
    w.weaveOpen ts ++ w.pending ts = w.weave ts := by
  fun_induction weaveOpen w ts with
  | case1 => rfl
  | case2 t => simp
  | case3 t u ts ih =>
    rw [w.pending_cons t (List.cons_ne_nil u ts), weave_cons, ← ih]
    simp

theorem weaveOpen_of_unmarked {ts : List Token} (h : ∀ t ∈ ts.dropLast, w.marked t = false) :
    w.weaveOpen ts = ts.map w.relabel := by
  fun_induction weaveOpen w ts with
  | case1 => rfl
  | case2 t => rfl
  | case3 t u ts ih =>
    rw [List.dropLast_cons_of_ne_nil (List.cons_ne_nil u ts)] at h
    rw [w.after_of_unmarked (h t (by simp)), ih fun v hv => h v (by simp [hv])]
    rfl

/-! ## Sound tokens -/

/-- Marks come between the end of a type and an identifier. -/
def Sound : List Token → Prop
  | [] => True
  | t :: ts =>
    (w.marked t = true → t.endsType = true ∧ Grammar.nextIs .identifier ts = true) ∧ Sound ts

variable {w}

theorem Sound.tail {t : Token} {ts : List Token} (h : w.Sound (t :: ts)) : w.Sound ts := h.2

theorem Sound.of_append {as bs : List Token} (h : w.Sound (as ++ bs)) : w.Sound bs := by
  induction as with
  | nil => exact h
  | cons a as ih => exact ih h.2

/-- A token that ends no type has no mark. -/
theorem Sound.unmarked {t : Token} {ts : List Token} (h : w.Sound (t :: ts))
    (ht : t.endsType = false) : w.marked t = false := by
  rw [← Bool.not_eq_true]
  intro hmarked
  rw [(h.1 hmarked).1] at ht
  cases ht

theorem Sound.next {t : Token} {ts : List Token} (h : w.Sound (t :: ts))
    (ht : w.marked t = true) : ∃ u us, ts = u :: us ∧ u.kind = .identifier := by
  have hnext := (h.1 ht).2
  cases ts with
  | nil => cases hnext
  | cons u us => exact ⟨u, us, rfl, by simpa [Grammar.nextIs] using hnext⟩

theorem endsType_of_kind {t : Token} (h : t.kind.endsNoType = true) : t.endsType = false := by
  have hne : ∀ kind : TokenKind, kind.endsNoType = false → (t.kind == kind) = false := by
    intro kind hkind
    refine beq_false_of_ne ?_
    rintro rfl
    rw [h] at hkind
    cases hkind
  rw [Token.endsType, Token.isKeyword, hne _ rfl, hne _ rfl, hne _ rfl, hne _ rfl, hne _ rfl,
    hne _ rfl, hne _ rfl]
  rfl

/-- A keyword that is no type ends none. -/
theorem endsType_of_isKeyword {t : Token} {words : List String} (h : t.isKeyword words = true)
    (hwords : ∀ word ∈ words, Grammar.predefinedTypes.contains word = false) :
    t.endsType = false := by
  rw [Token.isKeyword, Bool.and_eq_true, beq_iff_eq, List.contains_iff_mem] at h
  have hword := hwords t.value h.2
  rw [Token.endsType, Token.isKeyword, h.1, hword]
  rfl

variable (w)

/-! ## Trees -/

mutual

/-- The tree with its tokens replaced. -/
def relabelTree : Tree → Tree
  | .token t => .token (w.relabel t)
  | .node kind children => .node kind (relabelAll children)

/-- Replaces the tokens of a list of trees. -/
def relabelAll : List Tree → List Tree
  | [] => []
  | t :: ts => relabelTree t :: relabelAll ts

end

mutual

/-- The type with a mark at its end; a mark after `ref` belongs to the type behind it. -/
def markType (mark : Token) : Tree → Tree
  | .token t => .node .nullableType [.token t, .token mark]
  | .node kind children =>
    if kind == .refType then .node kind (markLast mark children)
    else .node .nullableType [.node kind children, .token mark]

/-- Marks the last of a list of trees. -/
def markLast (mark : Token) : List Tree → List Tree
  | [] => []
  | t :: ts => if ts.isEmpty then [markType mark t] else t :: markLast mark ts

end

mutual

/-- The tree that comes out: a mark after the last token of a type belongs to the type. -/
def tree : Tree → Tree
  | .token t => .token (w.relabel t)
  | .node kind children =>
    if kind.isType then
      ((w.pending (Tree.tokensAll children)).head?.map
        (markType · (w.relabelTree (.node kind children)))).getD (w.relabelTree (.node kind children))
    else .node kind (trees children)

/-- The trees that come out of a list of trees. -/
def trees : List Tree → List Tree
  | [] => []
  | t :: ts => tree t :: trees ts

end

mutual

/-- The marks of the tree come at the ends of its types. -/
def Fits : Tree → Prop
  | .token t => w.marked t = false
  | .node kind children =>
    if kind.isType then ∀ t ∈ (Tree.tokensAll children).dropLast, w.marked t = false
    else FitsAll children

/-- The marks of a list of trees come at the ends of its types. -/
def FitsAll : List Tree → Prop
  | [] => True
  | t :: ts => Fits t ∧ FitsAll ts

end

variable {w}

theorem relabelAll_eq (ts : List Tree) : w.relabelAll ts = ts.map w.relabelTree := by
  induction ts with
  | nil => rw [relabelAll]; rfl
  | cons t ts ih => rw [relabelAll, ih]; rfl

@[simp] theorem relabelTree_token (t : Token) :
    w.relabelTree (.token t) = .token (w.relabel t) := by rw [relabelTree]

@[simp] theorem relabelTree_node (kind : NodeKind) (children : List Tree) :
    w.relabelTree (.node kind children) = .node kind (children.map w.relabelTree) := by
  rw [relabelTree, relabelAll_eq]

theorem trees_eq (ts : List Tree) : w.trees ts = ts.map w.tree := by
  induction ts with
  | nil => rw [trees]; rfl
  | cons t ts ih => rw [trees, ih]; rfl

@[simp] theorem tree_token (t : Token) : w.tree (.token t) = .token (w.relabel t) := by rw [tree]

theorem tree_node {kind : NodeKind} (h : kind.isType = false) (children : List Tree) :
    w.tree (.node kind children) = .node kind (children.map w.tree) := by
  rw [tree, h, trees_eq]
  rfl

theorem tree_type {kind : NodeKind} (h : kind.isType = true) (children : List Tree) :
    w.tree (.node kind children)
      = ((w.pending (Tree.tokensAll children)).head?.map
        (markType · (w.relabelTree (.node kind children)))).getD
          (w.relabelTree (.node kind children)) := by
  rw [tree, h]
  rfl

theorem fitsAll_iff (ts : List Tree) : w.FitsAll ts ↔ ∀ t ∈ ts, w.Fits t := by
  induction ts with
  | nil => simp [FitsAll]
  | cons t ts ih => simp [FitsAll, ih]

@[simp] theorem fits_token (t : Token) : w.Fits (.token t) ↔ w.marked t = false := by rw [Fits]

theorem fits_node {kind : NodeKind} (h : kind.isType = false) (children : List Tree) :
    w.Fits (.node kind children) ↔ ∀ c ∈ children, w.Fits c := by
  rw [Fits, h, fitsAll_iff]
  rfl

theorem fits_type {kind : NodeKind} (h : kind.isType = true) (children : List Tree) :
    w.Fits (.node kind children)
      ↔ ∀ t ∈ (Tree.tokensAll children).dropLast, w.marked t = false := by
  rw [Fits, h]
  rfl

/-- Trees of bare tokens without marks. -/
theorem fits_tokens (ts : List Token) :
    (∀ c ∈ ts.map Tree.token, w.Fits c) ↔ ∀ t ∈ ts, w.marked t = false := by
  simp

theorem map_tree_tokens (ts : List Token) :
    (ts.map Tree.token).map w.tree = (ts.map w.relabel).map Tree.token := by simp

theorem map_relabelTree_tokens (ts : List Token) :
    (ts.map Tree.token).map w.relabelTree = (ts.map w.relabel).map Tree.token := by simp

mutual

theorem tokens_relabelTree : (t : Tree) → (w.relabelTree t).tokens = t.tokens.map w.relabel
  | .token t => by simp
  | .node k cs => by
    rw [relabelTree, Tree.tokens_node, Tree.tokens_node]
    exact tokensAll_relabelAll cs

theorem tokensAll_relabelAll : (ts : List Tree) →
    Tree.tokensAll (w.relabelAll ts) = (Tree.tokensAll ts).map w.relabel
  | [] => by rw [relabelAll]; rfl
  | t :: ts => by
    rw [relabelAll, Tree.tokensAll_cons, Tree.tokensAll_cons, tokens_relabelTree t,
      tokensAll_relabelAll ts, List.map_append]

end

mutual

/-- A tree without marks is only relabelled. -/
theorem tree_of_unmarked : (t : Tree) → (∀ s ∈ t.tokens, w.marked s = false) →
    w.tree t = w.relabelTree t
  | .token t, _ => by simp
  | .node k cs, h => by
    rw [Tree.tokens_node] at h
    cases hk : k.isType with
    | false => rw [tree, hk, relabelTree, ← trees_of_unmarked cs h]; rfl
    | true =>
      have hnil : w.pending (Tree.tokensAll cs) = [] := by
        rw [pending]
        cases hlast : (Tree.tokensAll cs).getLast? with
        | none => rfl
        | some t => exact w.after_of_unmarked (h t (List.mem_of_getLast? hlast))
      rw [tree_type hk, hnil]
      rfl

theorem trees_of_unmarked : (ts : List Tree) → (∀ s ∈ Tree.tokensAll ts, w.marked s = false) →
    w.trees ts = w.relabelAll ts
  | [], _ => by rw [trees, relabelAll]
  | t :: ts, h => by
    rw [Tree.tokensAll_cons] at h
    rw [trees, relabelAll, tree_of_unmarked t fun s hs => h s (List.mem_append_left _ hs),
      trees_of_unmarked ts fun s hs => h s (List.mem_append_right _ hs)]

end

mutual

theorem fits_of_unmarked : (t : Tree) → (∀ s ∈ t.tokens, w.marked s = false) → w.Fits t
  | .token t, h => by simpa using h
  | .node k cs, h => by
    rw [Tree.tokens_node] at h
    cases hk : k.isType with
    | false =>
      rw [Fits, hk]
      exact fitsAll_of_unmarked cs h
    | true => exact (fits_type hk cs).mpr fun s hs => h s (List.dropLast_subset _ hs)

theorem fitsAll_of_unmarked : (ts : List Tree) → (∀ s ∈ Tree.tokensAll ts, w.marked s = false) →
    w.FitsAll ts
  | [], _ => by rw [FitsAll]; trivial
  | t :: ts, h => by
    rw [Tree.tokensAll_cons] at h
    rw [FitsAll]
    exact ⟨fits_of_unmarked t fun s hs => h s (List.mem_append_left _ hs),
      fitsAll_of_unmarked ts fun s hs => h s (List.mem_append_right _ hs)⟩

end

end Weaving

end NullableMarker
