import Mathlib.Data.List.Find
import NullableMarker.Proofs.AnnotatedUnits
import NullableMarker.Proofs.Lookups

/-!
# What woven trees say

A woven tree has the kinds and children of the tree, except that a type may have become a nullable
one. What is read off a declaration, a directive or a type is therefore the same, and the text of a
type gets at most a question mark at its end.

* `Weaving.TypeBlind` — classes of kinds that marks do not change
* `Weaving.child?_tree`, `Weaving.childrenOf_tree`, `Weaving.childTokens_tree` — children
* `Weaving.written_tree` — types say the same
* `Weaving.usingAlike_tree` — so do using directives
* `Weaving.text_tree` — the texts of types
-/

namespace NullableMarker

theorem Tree.isNode_of_kind {t : Tree} {k : NodeKind} (h : t.isNode (· == k) = true)
    (p : NodeKind → Bool) : t.isNode p = p k := by
  cases t with
  | token s => cases h
  | node l cs =>
    rw [isNode_node, beq_iff_eq] at h
    rw [isNode_node, h]

namespace Weaving

variable {w : Weaving}

/-! ## Kinds -/

/-- A class of kinds that holds all kinds of types or none. -/
def TypeBlind (p : NodeKind → Bool) : Prop := ∀ k, k.isType = true → p k = p .nullableType

theorem typeBlind_isType : TypeBlind NodeKind.isType := fun _ hk => hk

theorem typeBlind_beq {k : NodeKind} (hk : k.isType = false) : TypeBlind (· == k) := by
  intro l hl
  have hne : ∀ l : NodeKind, l.isType = true → (l == k) = false := by
    intro l hl
    refine beq_false_of_ne ?_
    rintro rfl
    rw [hl] at hk
    cases hk
  exact (hne l hl).trans (hne _ rfl).symm

@[simp] theorem kind?_relabelTree (t : Tree) : (w.relabelTree t).kind? = t.kind? := by
  cases t with
  | token s => rw [relabelTree_token]; rfl
  | node k cs => rw [relabelTree_node]; rfl

@[simp] theorem isNode_relabelTree (p : NodeKind → Bool) (t : Tree) :
    (w.relabelTree t).isNode p = t.isNode p := by
  rw [Tree.isNode, kind?_relabelTree, ← Tree.isNode]

theorem isType_markType (mark : Token) (t : Tree) :
    (markType mark t).isNode NodeKind.isType = true := by
  cases t with
  | token s => rw [markType]; rfl
  | node k cs =>
    rw [markType]
    split
    · next hk => rw [eq_of_beq hk]; rfl
    · rfl

/-- A type that comes out is the type with other tokens, and perhaps with a mark at its end. -/
theorem tree_of_isType {t : Tree} (h : t.isNode NodeKind.isType = true) :
    w.pending t.tokens = [] ∧ w.tree t = w.relabelTree t
      ∨ ∃ mark, w.pending t.tokens = [mark] ∧ w.tree t = markType mark (w.relabelTree t) := by
  cases t with
  | token s => cases h
  | node k cs =>
    have hpending : w.pending (Tree.tokensAll cs) = []
        ∨ ∃ mark, w.pending (Tree.tokensAll cs) = [mark] := by
      rw [pending]
      cases (Tree.tokensAll cs).getLast? with
      | none => exact .inl rfl
      | some s =>
        cases hs : w.marked s with
        | false => exact .inl (w.after_of_unmarked hs)
        | true => exact .inr ⟨_, w.after_of_marked hs⟩
    rw [Tree.tokens_node, tree_type h]
    rcases hpending with hnil | ⟨mark, hmark⟩
    · exact .inl ⟨hnil, by rw [hnil]; rfl⟩
    · exact .inr ⟨mark, hmark, by rw [hmark]; rfl⟩

theorem isType_tree (t : Tree) :
    (w.tree t).isNode NodeKind.isType = t.isNode NodeKind.isType := by
  cases h : t.isNode NodeKind.isType with
  | true =>
    rcases tree_of_isType h with ⟨-, heq⟩ | ⟨mark, -, heq⟩
    · rw [heq, isNode_relabelTree, h]
    · rw [heq, isType_markType]
  | false =>
    cases t with
    | token s => rw [tree_token]; rfl
    | node k cs => rw [tree_node h]; exact h

theorem kind?_tree {t : Tree} (h : t.isNode NodeKind.isType = false) :
    (w.tree t).kind? = t.kind? := by
  cases t with
  | token s => rw [tree_token]; rfl
  | node k cs => rw [tree_node h]; rfl

theorem isNode_of_typeBlind {p : NodeKind → Bool} (hp : TypeBlind p) {t : Tree}
    (h : t.isNode NodeKind.isType = true) : t.isNode p = p .nullableType := by
  cases t with
  | token s => cases h
  | node k cs => exact hp k h

theorem isNode_tree {p : NodeKind → Bool} (hp : TypeBlind p) (t : Tree) :
    (w.tree t).isNode p = t.isNode p := by
  cases h : t.isNode NodeKind.isType with
  | true =>
    rw [isNode_of_typeBlind hp h, isNode_of_typeBlind hp ((isType_tree t).trans h)]
  | false => rw [Tree.isNode, kind?_tree h, ← Tree.isNode]

/-! ## Children -/

theorem children_tree {t : Tree} (h : t.isNode NodeKind.isType = false) :
    (w.tree t).children = t.children.map w.tree := by
  cases t with
  | token s => rw [tree_token]; rfl
  | node k cs => rw [tree_node h]; rfl

theorem children_relabelTree (t : Tree) :
    (w.relabelTree t).children = t.children.map w.relabelTree := by
  cases t with
  | token s => rw [relabelTree_token]; rfl
  | node k cs => rw [relabelTree_node]; rfl

section Children

variable {t : Tree} (h : t.isNode NodeKind.isType = false)

include h

theorem child?_tree {p : NodeKind → Bool} (hp : TypeBlind p) :
    (w.tree t).child? p = (t.child? p).map w.tree := by
  have hcomp : ((·.isNode p) ∘ w.tree) = (·.isNode p) := funext fun c => isNode_tree hp c
  rw [Tree.child?, children_tree h, List.find?_map, hcomp, ← Tree.child?]

theorem childrenOf_tree {p : NodeKind → Bool} (hp : TypeBlind p) :
    (w.tree t).childrenOf p = (t.childrenOf p).map w.tree := by
  have hcomp : ((·.isNode p) ∘ w.tree) = (·.isNode p) := funext fun c => isNode_tree hp c
  rw [Tree.childrenOf, children_tree h, List.filter_map, hcomp, ← Tree.childrenOf]

theorem childTokens_tree : (w.tree t).childTokens = t.childTokens.map w.relabel := by
  rw [Tree.childTokens, children_tree h, List.filterMap_map, Tree.childTokens, List.map_filterMap]
  refine List.filterMap_congr fun c _ => ?_
  cases c with
  | token s => rw [Function.comp_apply, tree_token]; rfl
  | node k cs =>
    have hnode : (w.tree (.node k cs)).isNode (fun _ => true) = true :=
      (isNode_tree (p := fun _ => true) (fun _ _ => rfl) _).trans rfl
    rw [Function.comp_apply]
    cases hc : w.tree (.node k cs) with
    | token s => rw [hc] at hnode; cases hnode
    | node l ds => rfl

end Children

/-! ## Declarations -/

section Kinds

variable {t c : Tree} {k : NodeKind} (hk : k.isType = false)

include hk

theorem isType_of_child? (h : t.child? (· == k) = some c) : c.isNode NodeKind.isType = false :=
  (Tree.isNode_of_kind (List.find?_some h) _).trans hk

theorem isType_of_mem_childrenOf (h : c ∈ t.childrenOf (· == k)) :
    c.isNode NodeKind.isType = false :=
  (Tree.isNode_of_kind (List.mem_filter.mp h).2 _).trans hk

end Kinds

section Declarations

variable {t : Tree}

theorem nameToken?_tree (h : t.isNode NodeKind.isType = false) :
    (w.tree t).nameToken? = t.nameToken?.map w.relabel := by
  have hcomp : ((fun s : Token => s.kind == .identifier) ∘ w.relabel) = (·.kind == .identifier) :=
    funext fun s => by rw [Function.comp_apply, w.kind_relabel]
  rw [Tree.nameToken?, childTokens_tree h, ← List.map_reverse, List.find?_map, hcomp,
    ← Tree.nameToken?]

theorem name_tree (h : t.isNode NodeKind.isType = false) : (w.tree t).name = t.name := by
  rw [Tree.name, nameToken?_tree h, Option.map_map, Tree.name]
  congr 2
  exact funext w.value_relabel

theorem modifiers_tree (h : t.isNode NodeKind.isType = false) :
    (w.tree t).modifiers = t.modifiers := by
  rw [Tree.modifiers, child?_tree h (typeBlind_beq rfl), Tree.modifiers]
  cases hlist : t.child? (· == .modifiers) with
  | none => rfl
  | some list =>
    have hkind := isType_of_child? rfl hlist
    simp [childTokens_tree hkind]

theorem isStatic_tree (h : t.isNode NodeKind.isType = false) :
    (w.tree t).isStatic = t.isStatic := by
  rw [Tree.isStatic, modifiers_tree h, ← Tree.isStatic]

theorem typeParameters_tree (h : t.isNode NodeKind.isType = false) :
    (w.tree t).typeParameters = t.typeParameters := by
  rw [Tree.typeParameters, Tree.typeParameterTokens, child?_tree h (typeBlind_beq rfl),
    Tree.typeParameters, Tree.typeParameterTokens]
  cases hlist : t.child? (· == .typeParameterList) with
  | none => rfl
  | some list =>
    have hkind := isType_of_child? rfl hlist
    simp [childTokens_tree hkind, List.filter_map, Function.comp_def]

theorem variableNames_tree (h : t.isNode NodeKind.isType = false) :
    (w.tree t).variableNames = t.variableNames := by
  rw [Tree.variableNames, childrenOf_tree h (typeBlind_beq rfl), List.filterMap_map,
    Tree.variableNames]
  refine List.filterMap_congr fun d hd => ?_
  rw [Function.comp_apply, childTokens_tree (isType_of_mem_childrenOf rfl hd), List.head?_map,
    Option.map_map]
  congr 1
  exact funext w.value_relabel

theorem baseTypes_tree (h : t.isNode NodeKind.isType = false) :
    (w.tree t).baseTypes = t.baseTypes.map w.tree := by
  rw [Tree.baseTypes, child?_tree h (typeBlind_beq rfl), Tree.baseTypes]
  cases hlist : t.child? (· == .baseList) with
  | none => rfl
  | some list =>
    have hkind := isType_of_child? rfl hlist
    exact childrenOf_tree hkind typeBlind_isType

theorem type?_tree (h : t.isNode NodeKind.isType = false) :
    (w.tree t).type? = t.type?.map w.tree := child?_tree h typeBlind_isType

theorem parameterList?_tree (h : t.isNode NodeKind.isType = false) :
    (w.tree t).parameterList? = t.parameterList?.map w.tree := child?_tree h (typeBlind_beq rfl)

theorem parameters_tree (h : t.isNode NodeKind.isType = false) :
    (w.tree t).parameters = t.parameters.map w.tree := childrenOf_tree h (typeBlind_beq rfl)

theorem accessor?_tree (h : t.isNode NodeKind.isType = false) (keyword : String) :
    (w.tree t).accessor? keyword = (t.accessor? keyword).map w.tree := by
  rw [Tree.accessor?, Tree.accessors?, child?_tree h (typeBlind_beq rfl), Tree.accessor?,
    Tree.accessors?]
  cases hlist : t.child? (· == .accessorList) with
  | none => rfl
  | some list =>
    have hkind := isType_of_child? rfl hlist
    have hname : ∀ c ∈ list.childrenOf (· == .accessor),
        (((·.name == keyword) ∘ w.tree) c : Bool) = (c.name == keyword) := by
      intro c hc
      rw [Function.comp_apply, name_tree (isType_of_mem_childrenOf rfl hc)]
    simp only [Option.map_some, Option.bind_some]
    rw [childrenOf_tree hkind (typeBlind_beq rfl), List.find?_map, List.find?_congr hname]

theorem accessorBody?_tree (h : t.isNode NodeKind.isType = false) :
    (w.tree t).accessorBody? = t.accessorBody?.map w.tree := by
  refine child?_tree h fun k hk => ?_
  have hblock : (k == .block) = false := typeBlind_beq (k := .block) rfl k hk
  have hexpression : (k == .expressionBody) = false := typeBlind_beq (k := .expressionBody) rfl k hk
  rw [hblock, hexpression]
  rfl

end Declarations

/-! ## Tokens -/

mutual

/-- A mark comes after the tokens of a type; a `ref` with nothing behind it takes none. -/
theorem tokens_markType (mark : Token) : (t : Tree) →
    (markType mark t).tokens = t.tokens ++ [mark] ∨ (markType mark t).tokens = t.tokens
  | .token s => by
    rw [markType]
    exact .inl rfl
  | .node k cs => by
    rw [markType]
    split
    · rw [Tree.tokens_node, Tree.tokens_node]
      exact tokensAll_markLast mark cs
    · exact .inl (by simp)

theorem tokensAll_markLast (mark : Token) : (ts : List Tree) →
    Tree.tokensAll (markLast mark ts) = Tree.tokensAll ts ++ [mark]
      ∨ Tree.tokensAll (markLast mark ts) = Tree.tokensAll ts
  | [] => by
    rw [markLast]
    exact .inr rfl
  | t :: ts => by
    rw [markLast]
    split
    · next hts =>
      rw [List.isEmpty_iff.mp hts]
      rcases tokens_markType mark t with h | h
      · exact .inl (by simp [h])
      · exact .inr (by simp [h])
    · rw [Tree.tokensAll_cons, Tree.tokensAll_cons]
      rcases tokensAll_markLast mark ts with h | h
      · exact .inl (by rw [h, List.append_assoc])
      · exact .inr (by rw [h])

end

/-- The tokens of a type that comes out. -/
theorem tokens_tree_of_isType {t : Tree} (h : t.isNode NodeKind.isType = true) :
    (w.tree t).tokens = t.tokens.map w.relabel
      ∨ ∃ last, last ∈ t.tokens.getLast? ∧ w.marked last = true
        ∧ (w.tree t).tokens = t.tokens.map w.relabel ++ [w.mark last] := by
  rcases tree_of_isType h with ⟨-, heq⟩ | ⟨mark, hmark, heq⟩
  · exact .inl (by rw [heq, tokens_relabelTree])
  rw [heq]
  rcases tokens_markType mark (w.relabelTree t) with h | h
  · rw [h, tokens_relabelTree]
    rw [pending] at hmark
    cases hlast : t.tokens.getLast? with
    | none => rw [hlast] at hmark; cases hmark
    | some last =>
      rw [hlast] at hmark
      have hmark : w.after last = [mark] := hmark
      cases hmarked : w.marked last with
      | false => rw [w.after_of_unmarked hmarked] at hmark; cases hmark
      | true =>
        rw [w.after_of_marked hmarked] at hmark
        cases hmark
        exact .inr ⟨last, rfl, hmarked, rfl⟩
  · exact .inl (by rw [h, tokens_relabelTree])

mutual

/-- What comes out starts with the token in the place of the first. -/
theorem firstToken?_tree : (t : Tree) → (w.tree t).firstToken? = t.firstToken?.map w.relabel
  | .token s => by rw [tree_token]; rfl
  | .node k cs => by
    rw [Tree.firstToken?_eq, Tree.firstToken?_eq]
    cases hk : k.isType with
    | false =>
      rw [tree_node hk, Tree.tokens_node, Tree.tokens_node]
      exact head?_tokensAll_tree cs
    | true =>
      rcases tokens_tree_of_isType (w := w) (t := .node k cs) hk with h | ⟨last, hlast, -, h⟩
      · rw [h, List.head?_map]
      · rw [h, List.head?_append, List.head?_map]
        cases hhead : (Tree.node k cs).tokens.head? with
        | some s => rfl
        | none =>
          rw [List.head?_eq_none_iff.mp hhead] at hlast
          cases hlast

theorem head?_tokensAll_tree : (ts : List Tree) →
    (Tree.tokensAll (ts.map w.tree)).head? = (Tree.tokensAll ts).head?.map w.relabel
  | [] => rfl
  | t :: ts => by
    have ht := firstToken?_tree t
    rw [Tree.firstToken?_eq, Tree.firstToken?_eq] at ht
    rw [List.map_cons, Tree.tokensAll_cons, Tree.tokensAll_cons, List.head?_append,
      List.head?_append, ht, head?_tokensAll_tree ts]
    cases t.tokens.head? <;> rfl

end

/-! ## Types -/

theorem childrenOf_relabelTree (p : NodeKind → Bool) (t : Tree) :
    (w.relabelTree t).childrenOf p = (t.childrenOf p).map w.relabelTree := by
  have hcomp : ((·.isNode p) ∘ w.relabelTree) = (·.isNode p) :=
    funext fun c => isNode_relabelTree p c
  rw [Tree.childrenOf, children_relabelTree, List.filter_map, hcomp, ← Tree.childrenOf]

/-- The arity of a segment before what stands next. -/
theorem arity_relabelTree (name name' : String) (t : Option Tree) :
    Tree.Segment.arity ⟨name, (t.map w.relabelTree).filter (·.isNode (· == .typeArgumentList))⟩
      = Tree.Segment.arity ⟨name', t.filter (·.isNode (· == .typeArgumentList))⟩ := by
  cases t with
  | none => rfl
  | some t =>
    rw [Option.map_some, Option.filter_some, Option.filter_some, isNode_relabelTree]
    split
    · simp [Tree.Segment.arity, childrenOf_relabelTree]
    · rfl

theorem segmentsOf_relabelTree (ts : List Tree) :
    (Tree.segmentsOf (ts.map w.relabelTree)).map (fun s => (s.name, s.arity))
      = (Tree.segmentsOf ts).map fun s => (s.name, s.arity) := by
  induction ts with
  | nil => rfl
  | cons t ts ih =>
    cases t with
    | node k cs => rw [List.map_cons, relabelTree_node, Tree.segmentsOf, ih, Tree.segmentsOf]
    | token s =>
      rw [List.map_cons, relabelTree_token, Tree.segmentsOf, Tree.segmentsOf, w.kind_relabel]
      split
      · rw [List.map_cons, List.map_cons, ih, List.head?_map, arity_relabelTree _ s.value,
          w.value_relabel]
      · exact ih

theorem aliasToken?_relabelTree (t : Tree) :
    (w.relabelTree t).aliasToken? = t.aliasToken?.map w.relabel := by
  rw [Tree.aliasToken?, children_relabelTree, Tree.aliasToken?]
  rcases t.children with _ | ⟨a | ⟨k, cs⟩, rest⟩
  · rfl
  · rcases rest with _ | ⟨b | ⟨k, cs⟩, rest⟩
    · rfl
    · simp only [List.map_cons, relabelTree_token, w.kind_relabel]
      split <;> rfl
    · simp only [List.map_cons, relabelTree_token, relabelTree_node, Option.map_none]
  · simp only [List.map_cons, relabelTree_node, Option.map_none]

theorem writtenName_relabelTree (t : Tree) : (w.relabelTree t).writtenName = t.writtenName := by
  have hvalue : (·.value) ∘ w.relabel = (·.value) := funext w.value_relabel
  rw [Tree.writtenName, Tree.writtenName, Tree.segments, Tree.segments, aliasToken?_relabelTree,
    Option.map_map, hvalue, Option.isSome_map, children_relabelTree]
  congr 1
  split
  · rw [← List.map_drop, segmentsOf_relabelTree]
  · exact segmentsOf_relabelTree t.children

mutual

theorem unwrapped?_relabelTree : (t : Tree) →
    (w.relabelTree t).unwrapped? = t.unwrapped?.map w.relabelTree
  | .token s => by rw [relabelTree_token]; rfl
  | .node k cs => by
    rw [relabelTree_node, Tree.unwrapped?, Tree.unwrapped?]
    split
    · exact unwrappedFirst?_relabelTree cs
    · rw [Option.map_some, relabelTree_node]

theorem unwrappedFirst?_relabelTree : (ts : List Tree) →
    Tree.unwrappedFirst? (ts.map w.relabelTree) = (Tree.unwrappedFirst? ts).map w.relabelTree
  | [] => rfl
  | t :: ts => by
    rw [List.map_cons, Tree.unwrappedFirst?, Tree.unwrappedFirst?, isNode_relabelTree]
    split
    · exact unwrapped?_relabelTree t
    · exact unwrappedFirst?_relabelTree ts

end

theorem unwrapped?_markType_of_not_isType (mark : Token) {t : Tree}
    (h : t.isNode NodeKind.isType = false) : (markType mark t).unwrapped? = none := by
  cases t with
  | token s => rw [markType]; rfl
  | node k cs =>
    have hk : (k == .refType) = false := by
      refine beq_false_of_ne ?_
      rintro rfl
      cases h
    rw [Tree.isNode_node] at h
    rw [markType, hk]
    simp [Tree.unwrapped?, Tree.unwrappedFirst?, h]

mutual

/-- A mark is unwrapped with the others. -/
theorem unwrapped?_markType (mark : Token) : (t : Tree) → t.isNode NodeKind.isType = true →
    (markType mark t).unwrapped? = t.unwrapped?
  | .token s, h => by cases h
  | .node k cs, h => by
    rw [markType]
    split
    · next hk =>
      rw [Tree.unwrapped?, Tree.unwrapped?, hk, Bool.or_true]
      exact unwrappedFirst?_markLast mark cs
    · rw [Tree.unwrapped?, Tree.unwrappedFirst?, if_pos h]
      rfl

theorem unwrappedFirst?_markLast (mark : Token) : (ts : List Tree) →
    Tree.unwrappedFirst? (markLast mark ts) = Tree.unwrappedFirst? ts
  | [] => by rw [markLast]
  | t :: ts => by
    rw [markLast]
    split
    · next hts =>
      rw [List.isEmpty_iff.mp hts, Tree.unwrappedFirst?, if_pos (isType_markType mark t),
        Tree.unwrappedFirst?]
      cases ht : t.isNode NodeKind.isType with
      | true => exact unwrapped?_markType mark t ht
      | false => exact unwrapped?_markType_of_not_isType mark ht
    · rw [Tree.unwrappedFirst?, Tree.unwrappedFirst?, unwrappedFirst?_markLast mark ts]

end

/-- What a type says is read off its core. -/
theorem written_relabelTree (t : Tree) : (w.relabelTree t).written = t.written := by
  rw [Tree.written, unwrapped?_relabelTree, Tree.written]
  cases t.unwrapped? with
  | none => rfl
  | some core =>
    have hfirst : (w.relabelTree core).firstToken?.map (·.value)
        = core.firstToken?.map (·.value) := by
      rw [Tree.firstToken?_eq, Tree.firstToken?_eq, tokens_relabelTree, List.head?_map,
        Option.map_map]
      congr 1
      exact funext w.value_relabel
    rw [Option.map_some]
    dsimp only
    simp only [isNode_relabelTree, hfirst, writtenName_relabelTree]

/-- A type says what it said. -/
theorem written_tree {t : Tree} (h : t.isNode NodeKind.isType = true) :
    (w.tree t).written = t.written := by
  rcases tree_of_isType h with ⟨-, heq⟩ | ⟨mark, -, heq⟩
  · rw [heq, written_relabelTree]
  · rw [heq, ← written_relabelTree (w := w) t, Tree.written, Tree.written,
      unwrapped?_markType mark _ ((isNode_relabelTree _ t).trans h)]

/-! ## Trees with marks at types -/

section Marks

variable {t c : Tree}

theorem unmarked_of_isType (ht : t.isNode NodeKind.isType = true) (h : t.MarksAtTypes w.marked) :
    ∀ s ∈ t.tokens, w.marked s = false := by
  cases t with
  | token s => cases ht
  | node k cs =>
    rw [Tree.tokens_node]
    exact (Tree.marksAtTypes_type ht cs).mp h

/-- Where marks come only at the types of declarations, kinds are kept. -/
theorem kind?_tree_of_marks (h : t.MarksAtTypes w.marked) : (w.tree t).kind? = t.kind? := by
  cases ht : t.isNode NodeKind.isType with
  | true => rw [tree_of_unmarked t (unmarked_of_isType ht h), kind?_relabelTree]
  | false => exact kind?_tree ht

theorem sublist_of_child (hc : c ∈ t.children) : c.tokens.Sublist t.tokens := by
  cases t with
  | token s => cases hc
  | node k cs =>
    obtain ⟨before, after, rfl⟩ := List.append_of_mem (show c ∈ cs from hc)
    rw [Tree.tokens_node, Tree.tokensAll_append, Tree.tokensAll_cons]
    exact (List.sublist_append_left _ _).trans (List.sublist_append_right _ _)

theorem marksAtTypes_child (ht : t.isNode NodeKind.isSite = false) (h : t.MarksAtTypes w.marked)
    (hc : c ∈ t.children) : c.MarksAtTypes w.marked := by
  cases t with
  | token s => cases hc
  | node k cs =>
    cases hk : k.isType with
    | true =>
      have hunmarked := unmarked_of_isType (t := .node k cs) hk h
      exact Tree.marksAtTypes_of_unmarked c fun s hs => hunmarked s ((sublist_of_child hc).mem hs)
    | false => exact (Tree.marksAtTypes_node ht hk cs).mp h c hc

/-- A declaration has marks at its type only. -/
theorem unmarked_of_site (ht : t.isNode NodeKind.isSite = true) (h : t.MarksAtTypes w.marked)
    (hc : c ∈ t.children) (hkind : c.isNode NodeKind.isType = false) :
    ∀ s ∈ c.tokens, w.marked s = false := by
  cases t with
  | token s => cases hc
  | node k cs =>
    have hc : c ∈ cs := hc
    rcases (Tree.marksAtTypes_site ht cs).mp h with h | ⟨pre, type, post, htyped, hpre, -, hpost⟩
    · exact fun s hs => h s (mem_tokensAll hc hs)
    · rw [htyped.split, List.mem_append, List.mem_cons] at hc
      rcases hc with hc | rfl | hc
      · exact fun s hs => hpre s (mem_tokensAll hc hs)
      · rw [htyped.type_isType.isType] at hkind
        cases hkind
      · exact fun s hs => hpost s (mem_tokensAll hc hs)

/-- Marks at declared types are marks at those below a child that is no type. -/
theorem marksAtTypes_of_not_isType (h : t.MarksAtTypes w.marked) (hc : c ∈ t.children)
    (hkind : c.isNode NodeKind.isType = false) : c.MarksAtTypes w.marked := by
  cases ht : t.isNode NodeKind.isSite with
  | false => exact marksAtTypes_child ht h hc
  | true => exact Tree.marksAtTypes_of_unmarked c (unmarked_of_site ht h hc hkind)

/-- Only the last token of a declared type may be marked. -/
theorem unmarked_of_type? (ht : t.isNode NodeKind.isSite = true) (h : t.MarksAtTypes w.marked)
    (hc : t.type? = some c) : ∀ s ∈ c.tokens.dropLast, w.marked s = false := by
  cases t with
  | token s => cases ht
  | node k cs =>
    rcases (Tree.marksAtTypes_site ht cs).mp h with h | ⟨pre, type, post, htyped, -, htype, -⟩
    · intro s hs
      exact h s (mem_tokensAll (List.mem_of_find?_eq_some hc) (List.dropLast_subset _ hs))
    · rw [htyped.type?_eq k] at hc
      cases hc
      exact htype

/-- The name of a namespace says what it said. -/
theorem segmentNames_tree (htype : t.isNode NodeKind.isType = false)
    (hsite : t.isNode NodeKind.isSite = false) (h : t.MarksAtTypes w.marked) :
    ((w.tree t).nameNode?.map fun n => n.segments.map (·.name))
      = t.nameNode?.map fun n => n.segments.map (·.name) := by
  have hkind : ∀ c ∈ t.children, (((·.isNode (· == .name)) ∘ w.tree) c : Bool)
      = c.isNode (· == .name) := by
    intro c hc
    rw [Function.comp_apply, Tree.isNode, kind?_tree_of_marks (marksAtTypes_child hsite h hc),
      ← Tree.isNode]
  rw [Tree.nameNode?, Tree.child?, children_tree htype, List.find?_map, List.find?_congr hkind,
    Option.map_map, ← Tree.child?, ← Tree.nameNode?]
  cases hn : t.nameNode? with
  | none => rfl
  | some n =>
    have hname : n.isNode (· == .name) = true := List.find?_some hn
    have hmarks := marksAtTypes_child hsite h (List.mem_of_find?_eq_some hn)
    have hunmarked := unmarked_of_isType (Tree.isNode_of_kind hname _) hmarks
    have hwritten := congrArg (fun x => x.2.map (·.1)) (writtenName_relabelTree (w := w) n)
    simp only [Tree.writtenName, List.map_map, Function.comp_def] at hwritten
    rw [Option.map_some, Option.map_some, Function.comp_apply, tree_of_unmarked n hunmarked,
      hwritten]

end Marks

/-! ## Using directives -/

theorem beforeEquals?_relabel (ts : List Token) :
    Tree.beforeEquals? (ts.map w.relabel) = (Tree.beforeEquals? ts).map w.relabel := by
  induction ts with
  | nil => rfl
  | cons a ts ih =>
    cases ts with
    | nil => rfl
    | cons b ts =>
      rw [List.map_cons, List.map_cons, Tree.beforeEquals?, Tree.beforeEquals?, w.kind_relabel]
      split
      · rfl
      · exact ih

/-- A using directive says what it said. -/
theorem usingAlike_tree {d : Tree} (hkind : d.isNode (· == .usingDirective) = true)
    (h : d.MarksAtTypes w.marked) : UsingAlike d (w.tree d) := by
  have htype : d.isNode NodeKind.isType = false := Tree.isNode_of_kind hkind _
  have hsite : d.isNode NodeKind.isSite = false := Tree.isNode_of_kind hkind _
  refine ⟨?_, ?_, ?_⟩
  · rw [Tree.usingAlias?, childTokens_tree htype, beforeEquals?_relabel, Option.map_map,
      Tree.usingAlias?]
    congr 1
    exact funext w.value_relabel
  · rw [Tree.isStaticUsing, childTokens_tree htype, List.any_map, Tree.isStaticUsing]
    congr 1
    exact funext fun s => w.isKeyword_relabel s _
  · rw [type?_tree htype, Option.map_map]
    cases hc : d.type? with
    | none => rfl
    | some c =>
      have hmarks := marksAtTypes_child hsite h (List.mem_of_find?_eq_some hc)
      have hunmarked := unmarked_of_isType (List.find?_some hc) hmarks
      simp only [Option.map_some, Function.comp_apply]
      rw [tree_of_unmarked c hunmarked, isNode_relabelTree, writtenName_relabelTree,
        written_relabelTree]

/-! ## Texts of types -/

section Texts

variable {ts : List Token}

/-- Tokens that keep the trivia between them keep their text. -/
theorem innerTexts_relabel (hcarries : ∀ t ∈ ts, w.Carries [] t)
    (hunmarked : ∀ t ∈ ts.dropLast, w.marked t = false) :
    Tree.innerTexts (ts.map w.relabel) = Tree.innerTexts ts := by
  fun_induction Tree.innerTexts ts with
  | case1 => rfl
  | case2 t =>
    have hlead := (hcarries t (by simp)).leading
    simp [Tree.innerTexts, hlead]
  | case3 t ts hne ih =>
    obtain ⟨u, us, rfl⟩ := List.exists_cons_of_ne_nil hne
    rw [List.dropLast_cons_of_ne_nil hne] at hunmarked
    have ht := fullText_unmarked (hcarries t (by simp)) (hunmarked t (by simp))
    rw [Trivia.textOf_nil, String.empty_append] at ht
    have ih := ih (fun s hs => hcarries s (by simp [hs])) fun s hs => hunmarked s (by simp [hs])
    rw [List.map_cons, List.map_cons, Tree.innerTexts, ht, ← List.map_cons, ih]
    simp

theorem innerTexts_cons (t : Token) {ts : List Token} (h : ts ≠ []) :
    Tree.innerTexts (t :: ts) = t.fullText :: Tree.innerTexts ts := by
  obtain ⟨u, us, rfl⟩ := List.exists_cons_of_ne_nil h
  rw [Tree.innerTexts]
  exact List.cons_ne_nil u us

/-- A mark after the last of them comes after their text. -/
theorem innerTexts_marked (hcarries : ∀ t ∈ ts, w.Carries [] t)
    (hunmarked : ∀ t ∈ ts.dropLast, w.marked t = false) {last : Token} (hlast : last ∈ ts.getLast?)
    (hmarked : w.marked last = true) :
    String.join (Tree.innerTexts (ts.map w.relabel ++ [w.mark last]))
      = String.join (Tree.innerTexts ts) ++ "?" := by
  fun_induction Tree.innerTexts ts with
  | case1 => cases hlast
  | case2 t =>
    obtain rfl : t = last := Option.some.inj hlast
    obtain ⟨hfirst, -⟩ := fullText_marked (hcarries t (by simp)) hmarked
    obtain ⟨hlead, hvalue, -⟩ := (hcarries t (by simp)).mark_parts hmarked
    rw [List.map_singleton, List.singleton_append, innerTexts_cons _ (List.cons_ne_nil _ _), hfirst]
    simp [Tree.innerTexts, hlead, hvalue]
  | case3 t ts hne ih =>
    have hne : ts ≠ [] := hne
    rw [List.dropLast_cons_of_ne_nil hne] at hunmarked
    have hlast : last ∈ ts.getLast? := by
      obtain ⟨u, us, rfl⟩ := List.exists_cons_of_ne_nil hne
      rwa [List.getLast?_cons_cons] at hlast
    have ht := fullText_unmarked (hcarries t (by simp)) (hunmarked t (by simp))
    have ih := ih (fun s hs => hcarries s (by simp [hs]))
      (fun s hs => hunmarked s (by simp [hs])) hlast
    rw [List.map_cons, List.cons_append, innerTexts_cons _ (by simp), ht]
    simp only [Trivia.textOf_nil, String.empty_append, String.join_cons, ih, String.append_assoc]

/-- The text of a type gets at most a question mark at its end. -/
theorem text_tree {t : Tree} (h : t.isNode NodeKind.isType = true)
    (hfirst : ∀ s ∈ t.tokens.head?, ∃ more, w.Carries more s)
    (htail : ∀ s ∈ t.tokens.tail, w.Carries [] s)
    (hunmarked : ∀ s ∈ t.tokens.dropLast, w.marked s = false) :
    (w.tree t).text = t.text ∨ (w.tree t).text = t.text ++ "?" := by
  have htokens := tokens_tree_of_isType (w := w) h
  unfold Tree.text
  rcases hts : t.tokens with _ | ⟨s, _ | ⟨u, us⟩⟩
  · rw [hts] at htokens
    rcases htokens with htokens | ⟨last, hlast, -⟩
    · exact .inl (by rw [htokens]; rfl)
    · cases hlast
  · -- the trivia around the only token is no part of the text
    rw [hts] at htokens hfirst
    obtain ⟨more, hs⟩ := hfirst s rfl
    rcases htokens with htokens | ⟨last, hlast, hmarked, htokens⟩
    · exact .inl (by rw [htokens]; exact w.value_relabel s)
    · obtain rfl : s = last := Option.some.inj hlast
      obtain ⟨hlead, hvalue, -⟩ := hs.mark_parts hmarked
      refine .inr ?_
      rw [htokens]
      simp [Tree.innerTexts, hlead, hvalue, hs.trailing_marked hmarked]
  · -- the first of several tokens has no mark, so it keeps the trivia after it
    rw [hts] at htokens hfirst htail hunmarked
    obtain ⟨more, hs⟩ := hfirst s rfl
    rw [List.dropLast_cons_of_ne_nil (List.cons_ne_nil u us)] at hunmarked
    rw [List.tail_cons] at htail
    have htrail := hs.trailing_unmarked (hunmarked s List.mem_cons_self)
    have hrest : ∀ r ∈ (u :: us).dropLast, w.marked r = false :=
      fun r hr => hunmarked r (List.mem_cons_of_mem s hr)
    rcases htokens with htokens | ⟨last, hlast, hmarked, htokens⟩
    · refine .inl ?_
      rw [htokens, List.map_cons, List.map_cons]
      dsimp only
      rw [← List.map_cons, innerTexts_relabel htail hrest, htrail, w.value_relabel]
    · refine .inr ?_
      rw [List.getLast?_cons_cons] at hlast
      rw [htokens, List.map_cons, List.map_cons, List.cons_append, List.cons_append]
      dsimp only
      rw [← List.cons_append, ← List.map_cons, String.join_cons, String.join_cons,
        innerTexts_marked htail hrest hlast hmarked, htrail, w.value_relabel]
      simp only [String.join_cons, String.append_assoc]

end Texts

end Weaving

end NullableMarker
