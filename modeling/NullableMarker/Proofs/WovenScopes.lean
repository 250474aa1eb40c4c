import Mathlib.Data.List.Pairwise
import NullableMarker.Proofs.WovenViews

/-!
# Scopes of woven trees

A tree and the tree that comes out of it have the same nodes in scopes that say the same, but for
the nodes of marks. The using directives of a namespace are told by the tokens that they start with,
and those stand for one another.

* `Weaving.Retells` — what is known of a weaving and of the tree it is applied to
* `Weaving.Retells.coupling` — two resolutions, one of each tree
* `Weaving.Retells.forall₂_scoped` — the nodes of both trees in their scopes
-/

namespace NullableMarker

/-! ## Tokens that stand for one another -/

/-- Tokens that start one after another are told by their offsets. -/
theorem eq_of_offset {ts : List Token} {f : Token → Token}
    (h : (ts.map f).Pairwise Token.StartsBefore) {t u : Token} (ht : t ∈ ts) (hu : u ∈ ts)
    (heq : (f t).offset = (f u).offset) : t = u := by
  have hne : ts.Pairwise fun a b => (f a).offset ≠ (f b).offset := by
    refine (List.pairwise_map.mp h).imp ?_
    rintro a b ⟨i, j, hi, hj, hlt⟩ hab
    rw [hi, hj] at hab
    cases hab
    exact Nat.lt_irrefl i hlt
  have : Std.Symm fun a b : Token => (f a).offset ≠ (f b).offset := ⟨fun _ _ hab => hab.symm⟩
  by_contra hcontra
  exact hne.forall ht hu hcontra heq

namespace Tree

/-! ## Walking with or without a scope -/

/-- The nodes of a tree that stands in `outer`, each with its scope. -/
def scopedFrom (outer : Option Scope) (t : Tree) : List ScopedNode :=
  match outer with
  | none => t.nodes.map (⟨·, none⟩)
  | some scope => t.scoped scope

/-- The scopes of the children of a namespace. -/
def memberScopes (inner : Scope) : List Tree → List (Option Scope)
  | [] => []
  | t :: ts =>
    if t.isNode (· == .name) then none :: ts.map fun _ => some inner
    else some inner :: memberScopes inner ts

/-- The scopes of the children of a node that stands in `outer`. -/
def childScopes (outer : Option Scope) (kind : NodeKind) (children : List Tree) :
    List (Option Scope) :=
  match outer with
  | none => children.map fun _ => none
  | some scope =>
    if kind.isOpaque || kind == .usingDirective then children.map fun _ => none
    else if kind.isNamespace then memberScopes (scope.enter (.node kind children)) children
    else children.map fun _ => some (scope.enter (.node kind children))

/-- The nodes of trees that stand in scopes of their own. -/
def scopedFromAll (outers : List (Option Scope)) (ts : List Tree) : List ScopedNode :=
  (List.zipWith scopedFrom outers ts).flatten

theorem scopedFromAll_const (outer : Option Scope) (ts : List Tree) :
    scopedFromAll (ts.map fun _ => outer) ts = ts.flatMap (scopedFrom outer) := by
  induction ts with
  | nil => rfl
  | cons t ts ih => exact congrArg (scopedFrom outer t ++ ·) ih

theorem flatMap_scopedFrom_none (ts : List Tree) :
    ts.flatMap (scopedFrom none) = (nodesAll ts).map (⟨·, none⟩) := by
  induction ts with
  | nil => rfl
  | cons t ts ih => rw [List.flatMap_cons, ih, nodesAll_cons, List.map_append]; rfl

theorem flatMap_scopedFrom_some (scope : Scope) (ts : List Tree) :
    ts.flatMap (scopedFrom (some scope)) = scopedAll scope ts := by
  induction ts with
  | nil => rw [scopedAll]; rfl
  | cons t ts ih => rw [List.flatMap_cons, ih, scopedAll]; rfl

theorem scopedFromAll_memberScopes (inner : Scope) (ts : List Tree) :
    scopedFromAll (memberScopes inner ts) ts = scopedMembers inner ts := by
  induction ts with
  | nil => rw [scopedMembers]; rfl
  | cons t ts ih =>
    rw [scopedMembers, memberScopes]
    split
    · rw [← flatMap_scopedFrom_some, ← scopedFromAll_const]
      rfl
    · rw [← ih]
      rfl

theorem scopedFrom_node (outer : Option Scope) (kind : NodeKind) (children : List Tree) :
    scopedFrom outer (.node kind children)
      = ⟨.node kind children, outer⟩
        :: scopedFromAll (childScopes outer kind children) children := by
  cases outer with
  | none =>
    rw [scopedFrom, nodes_node, childScopes, scopedFromAll_const, flatMap_scopedFrom_none]
    rfl
  | some scope =>
    rw [scopedFrom, Tree.scoped, childScopes]
    congr 1
    split
    · rw [scopedFromAll_const, flatMap_scopedFrom_none]
    · split
      · rw [scopedFromAll_memberScopes]
      · rw [scopedFromAll_const, flatMap_scopedFrom_some]

theorem enter_of_isType {kind : NodeKind} (h : kind.isType = true) (scope : Scope)
    (children : List Tree) : scope.enter (.node kind children) = scope := by
  cases kind <;> first | rfl | cases h

/-- A type stands where its parts do. -/
theorem scopedFrom_of_isType {kind : NodeKind} (h : kind.isType = true) (outer : Option Scope)
    (children : List Tree) :
    scopedFrom outer (.node kind children)
      = ⟨.node kind children, outer⟩ :: children.flatMap (scopedFrom outer) := by
  have hscopes : childScopes outer kind children = children.map fun _ => outer := by
    cases outer with
    | none => rfl
    | some scope =>
      rw [childScopes, enter_of_isType h]
      cases kind <;> first | rfl | cases h
  rw [scopedFrom_node, hscopes, scopedFromAll_const]

end Tree

/-- The nodes that are no types. -/
def nonTypes (nodes : List ScopedNode) : List ScopedNode :=
  nodes.filter (!·.isKind NodeKind.isType)

@[simp] theorem nonTypes_nil : nonTypes [] = [] := rfl

@[simp] theorem nonTypes_append (as bs : List ScopedNode) :
    nonTypes (as ++ bs) = nonTypes as ++ nonTypes bs := List.filter_append as bs

theorem nonTypes_cons_of_isType {s : ScopedNode} (h : s.isKind NodeKind.isType = true)
    (nodes : List ScopedNode) : nonTypes (s :: nodes) = nonTypes nodes := by
  rw [nonTypes, List.filter_cons, h]
  rfl

theorem nonTypes_cons {s : ScopedNode} (h : s.isKind NodeKind.isType = false)
    (nodes : List ScopedNode) : nonTypes (s :: nodes) = s :: nonTypes nodes := by
  rw [nonTypes, List.filter_cons, h]
  rfl

theorem nonTypes_scopedFrom_of_isType {kind : NodeKind} (h : kind.isType = true)
    (outer : Option Scope) (children : List Tree) :
    nonTypes (Tree.scopedFrom outer (.node kind children))
      = nonTypes (children.flatMap (Tree.scopedFrom outer)) := by
  rw [Tree.scopedFrom_of_isType h]
  exact nonTypes_cons_of_isType (s := ⟨.node kind children, outer⟩) h _

namespace Weaving

mutual

/-- A mark adds nodes of types only. -/
theorem nonTypes_markType (mark : Token) (outer : Option Scope) : (t : Tree) →
    nonTypes (Tree.scopedFrom outer (markType mark t)) = nonTypes (Tree.scopedFrom outer t)
  | .token s => by
    rw [markType, nonTypes_scopedFrom_of_isType rfl]
    cases outer <;> simp [Tree.scopedFrom, Tree.scoped]
  | .node k cs => by
    rw [markType]
    split
    · next hk =>
      rw [eq_of_beq hk, nonTypes_scopedFrom_of_isType rfl, nonTypes_scopedFrom_of_isType rfl]
      exact nonTypes_markLast mark outer cs
    · rw [nonTypes_scopedFrom_of_isType rfl]
      cases outer <;> simp [Tree.scopedFrom, Tree.scoped]

theorem nonTypes_markLast (mark : Token) (outer : Option Scope) : (ts : List Tree) →
    nonTypes ((markLast mark ts).flatMap (Tree.scopedFrom outer))
      = nonTypes (ts.flatMap (Tree.scopedFrom outer))
  | [] => by rw [markLast]
  | t :: ts => by
    rw [markLast]
    split
    · next hts =>
      rw [List.isEmpty_iff.mp hts, List.flatMap_singleton, List.flatMap_singleton]
      exact nonTypes_markType mark outer t
    · rw [List.flatMap_cons, List.flatMap_cons, nonTypes_append, nonTypes_append,
        nonTypes_markLast mark outer ts]

end

/-- The weaving without its marks. -/
def plain (w : Weaving) : Weaving := { w with marked := fun _ => false }

mutual

theorem relabelTree_plain (w : Weaving) : (t : Tree) → w.plain.relabelTree t = w.relabelTree t
  | .token s => by rw [relabelTree_token, relabelTree_token]; rfl
  | .node k cs => by rw [relabelTree, relabelTree, relabelAll_plain w cs]

theorem relabelAll_plain (w : Weaving) : (ts : List Tree) → w.plain.relabelAll ts = w.relabelAll ts
  | [] => by rw [relabelAll, relabelAll]
  | t :: ts => by rw [relabelAll, relabelAll, relabelTree_plain w t, relabelAll_plain w ts]

end

theorem tree_plain (w : Weaving) (t : Tree) : w.plain.tree t = w.relabelTree t := by
  rw [tree_of_unmarked t fun _ _ => rfl, relabelTree_plain]

/-! ## Two resolutions -/

/-- The weaving marks declared types only, and the tokens before and after it are told by their
offsets. -/
structure Retells (w : Weaving) (root : Tree) : Prop where
  marks : root.MarksAtTypes w.marked
  placed : ∀ t ∈ root.tokens, (∃ i, t.offset = some i) ∧ ∃ i, (w.relabel t).offset = some i
  before : root.tokens.Pairwise Token.StartsBefore
  after : (root.tokens.map w.relabel).Pairwise Token.StartsBefore

theorem Annotates.retells {w : Weaving} {root : Tree} {source : String} (h : w.Annotates root)
    (hroot : root.IsTreeOf source) : w.Retells root where
  marks := h.marks
  placed t ht := by
    obtain ⟨i, hi, -⟩ := hroot.placed.offset_ge t ht
    exact ⟨⟨i, hi⟩, h.placed t ht⟩
  before := hroot.startsBefore
  after := h.startsBefore

/-- The offsets of a token and of the token in its place. -/
def Ids (w : Weaving) (root : Tree) (i i' : Nat) : Prop :=
  ∃ t ∈ root.tokens, t.offset = some i ∧ (w.relabel t).offset = some i'

namespace Retells

variable {w : Weaving} {root : Tree}

theorem ids_iff (hw : w.Retells root) {i i' j j' : Nat} (h : w.Ids root i i')
    (h' : w.Ids root j j') : j = i ↔ j' = i' := by
  obtain ⟨t, ht, hi, hi'⟩ := h
  obtain ⟨u, hu, hj, hj'⟩ := h'
  constructor
  · rintro rfl
    have heq : t = u := eq_of_offset (f := id) (by simpa using hw.before) ht hu (hi.trans hj.symm)
    rw [heq, hj'] at hi'
    exact Option.some.inj hi'
  · rintro rfl
    have heq : t = u := eq_of_offset hw.after ht hu (hi'.trans hj'.symm)
    rw [heq, hj] at hi
    exact Option.some.inj hi

/-- A resolution of each tree, with the same types known and the same directives bound. -/
def coupling (hw : w.Retells root) : Coupling where
  asked _ := True
  keys _ := True
  entered _ := True
  found _ := True
  current _ := True
  found_of_current _ := trivial
  entered_of_found _ := trivial
  states st st' := st'.table = st.table
    ∧ ∀ i i', w.Ids root i i' → st'.bound.lookup i' = st.bound.lookup i
  ids := w.Ids root
  answers h := by
    rw [h.1]
    exact Inquiry.answers_refl (fun _ _ _ => trivial) fun _ _ _ => trivial
  bound_eq h hid := h.2 _ _ hid
  found_alias _ _ _ := trivial
  entered_static _ _ _ := trivial
  states_setBindings := by
    rintro st st' i i' b ⟨htable, hbound⟩ hid - -
    refine ⟨htable, fun j j' hid' => ?_⟩
    show (upsert i' b st'.bound).lookup j' = (upsert i b st.bound).lookup j
    by_cases hj : j = i
    · -- directives that are one on one side are one on the other
      have hj' := (hw.ids_iff hid hid').mp hj
      rw [hj, hj', lookup_upsert_self, lookup_upsert_self]
    · have hj' : j' ≠ i' := fun heq => hj ((hw.ids_iff hid hid').mpr heq)
      rw [lookup_upsert_of_ne hj, lookup_upsert_of_ne hj', hbound j j' hid']
  states_remark _ _ h := h

/-! ## Scopes -/

/-- Scopes that say the same. -/
def ScopeAlike (hw : w.Retells root) : Scope → Scope → Prop :=
  List.Forall₂ hw.coupling.FrameAlike

section Scopes

variable {hw : w.Retells root} {scope scope' : Scope}

theorem namespaceName_eq (h : hw.ScopeAlike scope scope') :
    scope'.namespaceName = scope.namespaceName := by
  induction h with
  | nil => rfl
  | cons hf _ ih =>
    cases hf with
    | space name hus hid _ => rfl
    | type _ ps => exact ih
    | method ps => exact ih

theorem container?_eq (h : hw.ScopeAlike scope scope') : scope'.container? = scope.container? := by
  cases h with
  | nil => rfl
  | cons hf _ => cases hf <;> rfl

theorem scopeAlike_enterNamespace {us us' : List Tree} (hus : List.Forall₂ UsingAlike us us')
    (hid : Option.Rel (w.Ids root) (usingsId? us) (usingsId? us')) (names : List String)
    (h : hw.ScopeAlike scope scope') :
    hw.ScopeAlike (scope.enterNamespace us names) (scope'.enterNamespace us' names) := by
  fun_induction Scope.enterNamespace scope us names generalizing scope' with
  | case1 scope => exact h
  | case2 scope name =>
    rw [Scope.enterNamespace, namespaceName_eq h]
    exact .cons (.space _ hus hid fun _ _ => trivial) h
  | case3 scope name names hne ih =>
    rw [Scope.enterNamespace, namespaceName_eq h]
    · exact ih (.cons (.space _ .nil .none fun _ _ => trivial) h)
    · exact hne

/-- A declaration in scopes that say the same declares the same. -/
theorem declaredSymbol_eq {w' : Weaving} (h : hw.ScopeAlike scope scope') {t : Tree}
    (ht : t.isNode NodeKind.isType = false) (origin : String) (kind : TypeKind) :
    declaredSymbol origin scope' kind (w'.tree t) = declaredSymbol origin scope kind t := by
  rw [declaredSymbol, declaredSymbol, name_tree ht, typeParameters_tree ht, namespaceName_eq h,
    container?_eq h]

/-- Directives are told by the tokens that they start with. -/
theorem rel_usingsId (hw : w.Retells root) {w' : Weaving} (hrelabel : w'.relabel = w.relabel)
    {us : List Tree} (hus : ∀ d ∈ us, d.tokens.Sublist root.tokens) :
    Option.Rel (w.Ids root) (usingsId? us) (usingsId? (us.map w'.tree)) := by
  cases us with
  | nil => exact .none
  | cons d us =>
    show Option.Rel (w.Ids root) (d.firstToken?.bind (·.offset))
      ((w'.tree d).firstToken?.bind (·.offset))
    rw [firstToken?_tree, hrelabel]
    cases hd : d.firstToken? with
    | none => exact .none
    | some s =>
      rw [Tree.firstToken?_eq] at hd
      have hs : s ∈ root.tokens := (hus d List.mem_cons_self).mem (List.mem_of_head? hd)
      obtain ⟨⟨i, hi⟩, i', hi'⟩ := hw.placed s hs
      show Option.Rel (w.Ids root) s.offset (w.relabel s).offset
      rw [hi, hi']
      exact .some ⟨s, hs, hi, hi'⟩

theorem usings_alike (hw : w.Retells root) {w' : Weaving} (hrelabel : w'.relabel = w.relabel)
    {t : Tree} (htype : t.isNode NodeKind.isType = false) (hsite : t.isNode NodeKind.isSite = false)
    (hmarks : t.MarksAtTypes w'.marked) (hsub : t.tokens.Sublist root.tokens) :
    List.Forall₂ UsingAlike t.usings (w'.tree t).usings
      ∧ Option.Rel (w.Ids root) (usingsId? t.usings) (usingsId? (w'.tree t).usings) := by
  have hmem : ∀ d ∈ t.usings, d ∈ t.children ∧ d.isNode (· == .usingDirective) = true :=
    fun d hd => List.mem_filter.mp hd
  rw [Tree.usings, Tree.usings, childrenOf_tree htype (typeBlind_beq rfl), ← Tree.usings]
  constructor
  · rw [List.forall₂_map_right_iff, List.forall₂_same]
    intro d hd
    obtain ⟨hchild, hkind⟩ := hmem d hd
    exact usingAlike_tree hkind (marksAtTypes_child hsite hmarks hchild)
  · refine hw.rel_usingsId hrelabel fun d hd => ?_
    exact (sublist_of_child (hmem d hd).1).trans hsub

/-- Nodes that say the same open scopes that do. -/
theorem scopeAlike_enter {w' : Weaving} (hrelabel : w'.relabel = w.relabel) {t : Tree}
    (htype : t.isNode NodeKind.isType = false) (hmarks : t.MarksAtTypes w'.marked)
    (hsub : t.tokens.Sublist root.tokens) (h : hw.ScopeAlike scope scope') :
    hw.ScopeAlike (scope.enter t) (scope'.enter (w'.tree t)) := by
  cases t with
  | token s => rw [tree_token]; exact h
  | node kind cs =>
    rw [Scope.enter, Scope.enter, kind?_tree htype]
    dsimp only [Tree.kind?]
    cases hkind : kind.typeKind? with
    | some typeKind =>
      dsimp only
      rw [declaredSymbol_eq h htype, typeParameters_tree htype]
      exact .cons (.type trivial _) h
    | none =>
      dsimp only
      have husings : kind.isSite = false →
          List.Forall₂ UsingAlike (Tree.node kind cs).usings (w'.tree (.node kind cs)).usings
            ∧ Option.Rel (w.Ids root) (usingsId? (Tree.node kind cs).usings)
              (usingsId? (w'.tree (.node kind cs)).usings) :=
        fun hsite => usings_alike hw hrelabel htype hsite hmarks hsub
      split
      · next hunit =>
        obtain ⟨hus, hid⟩ := husings (by
          rcases Bool.or_eq_true_iff.mp hunit with hk | hk <;> rw [eq_of_beq hk] <;> rfl)
        exact .cons (.space "" hus hid fun _ _ => trivial) .nil
      · split
        · next hspace =>
          -- the name of a namespace is no type of a declaration, so it has no mark
          have hsite : kind.isSite = false := by cases kind <;> first | rfl | cases hspace
          obtain ⟨hus, hid⟩ := husings hsite
          rw [segmentNames_tree htype hsite hmarks]
          exact scopeAlike_enterNamespace hus hid _ h
        · split
          · rw [typeParameters_tree htype]
            exact .cons (.method _) h
          · exact h

end Scopes

/-! ## Nodes -/

/-- A node of each tree, in scopes that say the same. The second is what comes out of the first;
below a type that is marked it comes out without marks, and there nothing is declared. -/
structure NodeAlike (hw : w.Retells root) (s s' : ScopedNode) : Prop where
  node : ∃ w' : Weaving, w'.relabel = w.relabel ∧ (s.node.Bare ∨ w' = w)
    ∧ s.node.MarksAtTypes w'.marked ∧ s'.node = w'.tree s.node
  isType : s.node.isNode NodeKind.isType = false
  tokens : s.node.tokens.Sublist root.tokens
  outer : Option.Rel hw.ScopeAlike s.outer s'.outer

/-- What is known of a tree that is woven: its marks are at declared types, or it is a declared type
itself. -/
structure Woven (w : Weaving) (root : Tree) (w' : Weaving) (t : Tree) : Prop where
  relabel : w'.relabel = w.relabel
  bare : t.Bare ∨ w' = w
  marks : t.MarksAtTypes w'.marked ∨ t.isNode NodeKind.isType = true ∧ t.Bare
  tokens : t.tokens.Sublist root.tokens

theorem Woven.marksAtTypes {w' : Weaving} {t : Tree} (h : Woven w root w' t)
    (ht : t.isNode NodeKind.isType = false) : t.MarksAtTypes w'.marked := by
  rcases h.marks with hmarks | ⟨htype, -⟩
  · exact hmarks
  · rw [ht] at htype
    cases htype

theorem Woven.child {w' : Weaving} {k : NodeKind} {cs : List Tree}
    (h : Woven w root w' (.node k cs)) (hk : k.isType = false) {c : Tree} (hc : c ∈ cs) :
    Woven w root w' c where
  relabel := h.relabel
  bare := h.bare.imp (fun hbare => ((Tree.bare_node k cs).mp hbare).2 c hc) id
  marks := by
    have hmarks := h.marksAtTypes hk
    cases hsite : k.isSite with
    | false => exact .inl (marksAtTypes_child (t := .node k cs) hsite hmarks hc)
    | true =>
      cases htype : c.isNode NodeKind.isType with
      | false =>
        have hunmarked := unmarked_of_site (t := .node k cs) hsite hmarks hc htype
        exact .inl (Tree.marksAtTypes_of_unmarked c hunmarked)
      | true =>
        rcases (Tree.marksAtTypes_site hsite cs).mp hmarks with hall | ⟨_, _, _, htyped, -⟩
        · exact .inl (Tree.marksAtTypes_of_unmarked c fun s hs => hall s (mem_tokensAll hc hs))
        · exact .inr ⟨rfl, htyped.bare c hc⟩
  tokens := (sublist_of_child (t := .node k cs) hc).trans h.tokens

/-- The parts of a type come out without marks. -/
theorem Woven.part {w' : Weaving} {k : NodeKind} {cs : List Tree}
    (h : Woven w root w' (.node k cs)) (hk : k.isType = true) :
    ∃ w'' : Weaving, (∀ c ∈ cs, Woven w root w'' c) ∧ cs.map w''.tree = cs.map w'.relabelTree := by
  have hsub : ∀ c ∈ cs, c.tokens.Sublist root.tokens :=
    fun c hc => (sublist_of_child (t := .node k cs) hc).trans h.tokens
  rcases h.marks with hmarks | ⟨-, hbare⟩
  · have hunmarked : ∀ c ∈ cs, ∀ s ∈ c.tokens, w'.marked s = false :=
      fun c hc s hs => unmarked_of_isType (t := .node k cs) hk hmarks s
        ((sublist_of_child (t := .node k cs) hc).mem hs)
    refine ⟨w', fun c hc => ⟨h.relabel, ?_, ?_, hsub c hc⟩, ?_⟩
    · exact h.bare.imp (fun hbare => ((Tree.bare_node k cs).mp hbare).2 c hc) id
    · exact .inl (Tree.marksAtTypes_of_unmarked c (hunmarked c hc))
    · exact List.map_congr_left fun c hc => tree_of_unmarked c (hunmarked c hc)
  · -- the type is marked, and its parts are not told apart by the mark
    refine ⟨w'.plain, fun c hc => ⟨h.relabel, ?_, ?_, hsub c hc⟩, ?_⟩
    · exact .inl (((Tree.bare_node k cs).mp hbare).2 c hc)
    · exact .inl (Tree.marksAtTypes_of_unmarked c fun _ _ => rfl)
    · exact List.map_congr_left fun c _ => w'.tree_plain c

section Nodes

variable {hw : w.Retells root}

theorem rel_const {outer outer' : Option Scope} (h : Option.Rel hw.ScopeAlike outer outer')
    (f : Tree → Tree) (cs : List Tree) :
    List.Forall₂ (Option.Rel hw.ScopeAlike) (cs.map fun _ => outer)
      ((cs.map f).map fun _ => outer') := by
  rw [List.map_map, List.forall₂_map_left_iff, List.forall₂_map_right_iff, List.forall₂_same]
  exact fun _ _ => h

theorem rel_memberScopes {inner inner' : Scope} (h : hw.ScopeAlike inner inner') {w' : Weaving}
    {cs : List Tree} (hcs : ∀ c ∈ cs, (w'.tree c).isNode (· == .name) = c.isNode (· == .name)) :
    List.Forall₂ (Option.Rel hw.ScopeAlike) (Tree.memberScopes inner cs)
      (Tree.memberScopes inner' (cs.map w'.tree)) := by
  induction cs with
  | nil => exact .nil
  | cons c cs ih =>
    rw [List.map_cons, Tree.memberScopes, Tree.memberScopes, hcs c List.mem_cons_self]
    split
    · exact .cons .none (rel_const (.some h) w'.tree cs)
    · exact .cons (.some h) (ih fun d hd => hcs d (List.mem_cons_of_mem c hd))

/-- The children of nodes that say the same stand in scopes that do. -/
theorem rel_childScopes {w' : Weaving} {k : NodeKind} {cs : List Tree} (hk : k.isType = false)
    (h : Woven w root w' (.node k cs)) {outer outer' : Option Scope}
    (houter : Option.Rel hw.ScopeAlike outer outer') :
    List.Forall₂ (Option.Rel hw.ScopeAlike) (Tree.childScopes outer k cs)
      (Tree.childScopes outer' k (cs.map w'.tree)) := by
  cases houter with
  | none => exact rel_const .none w'.tree cs
  | some hscope =>
    have hmarks := h.marksAtTypes hk
    have hinner := scopeAlike_enter (t := .node k cs) h.relabel hk hmarks h.tokens hscope
    rw [tree_node hk] at hinner
    rw [Tree.childScopes, Tree.childScopes]
    split
    · exact rel_const .none w'.tree cs
    · split
      · next hspace =>
        have hsite : k.isSite = false := by cases k <;> first | rfl | cases hspace
        refine rel_memberScopes hinner fun c hc => ?_
        have hchild := marksAtTypes_child (t := .node k cs) hsite hmarks hc
        rw [Tree.isNode, kind?_tree_of_marks hchild, ← Tree.isNode]
      · exact rel_const (.some hinner) w'.tree cs

mutual

/-- The nodes of a tree and of what comes out of it, but for the types. -/
theorem forall₂_scopedFrom : (t : Tree) → {w' : Weaving} → Woven w root w' t →
    {outer outer' : Option Scope} → Option.Rel hw.ScopeAlike outer outer' →
    List.Forall₂ hw.NodeAlike (nonTypes (t.scopedFrom outer))
      (nonTypes ((w'.tree t).scopedFrom outer'))
  | .token s, w', _, outer, outer', _ => by
    have hnil : ∀ (outer : Option Scope) (s : Token),
        nonTypes (Tree.scopedFrom outer (.token s)) = [] := by
      intro outer s
      cases outer <;> simp [Tree.scopedFrom, Tree.scoped]
    rw [tree_token, hnil, hnil]
    exact .nil
  | .node k cs, w', h, outer, outer', houter => by
    cases hk : k.isType with
    | true =>
      -- the type itself is left out, and a mark on it adds no other node
      have hsame : nonTypes ((w'.tree (.node k cs)).scopedFrom outer')
          = nonTypes ((w'.relabelTree (.node k cs)).scopedFrom outer') := by
        rcases tree_of_isType (w := w') (t := .node k cs) hk with ⟨-, heq⟩ | ⟨mark, -, heq⟩
        · rw [heq]
        · rw [heq, nonTypes_markType]
      obtain ⟨w'', hparts, hmap⟩ := h.part hk
      rw [hsame, relabelTree_node, nonTypes_scopedFrom_of_isType hk,
        nonTypes_scopedFrom_of_isType hk, ← hmap, ← Tree.scopedFromAll_const,
        ← Tree.scopedFromAll_const]
      exact forall₂_scopedFromAll cs hparts (rel_const houter w''.tree cs)
    | false =>
      have hnode : hw.NodeAlike ⟨.node k cs, outer⟩ ⟨w'.tree (.node k cs), outer'⟩ :=
        ⟨⟨w', h.relabel, h.bare, h.marksAtTypes hk, rfl⟩, hk, h.tokens, houter⟩
      rw [tree_node hk] at hnode ⊢
      rw [Tree.scopedFrom_node, Tree.scopedFrom_node, nonTypes_cons (s := ⟨.node k cs, outer⟩) hk,
        nonTypes_cons (s := ⟨.node k (cs.map w'.tree), outer'⟩) hk]
      exact .cons hnode (forall₂_scopedFromAll cs (fun c hc => h.child hk hc)
        (rel_childScopes hk h houter))

theorem forall₂_scopedFromAll : (ts : List Tree) → {w' : Weaving} →
    (∀ t ∈ ts, Woven w root w' t) → {outers outers' : List (Option Scope)} →
    List.Forall₂ (Option.Rel hw.ScopeAlike) outers outers' →
    List.Forall₂ hw.NodeAlike (nonTypes (Tree.scopedFromAll outers ts))
      (nonTypes (Tree.scopedFromAll outers' (ts.map w'.tree)))
  | [], _, _, outers, outers', _ => by
    rw [List.map_nil, Tree.scopedFromAll, Tree.scopedFromAll, List.zipWith_nil_right,
      List.zipWith_nil_right]
    exact .nil
  | t :: ts, w', h, outers, outers', houters => by
    cases houters with
    | nil => exact .nil
    | cons houter houters =>
      rw [List.map_cons, Tree.scopedFromAll, Tree.scopedFromAll, List.zipWith_cons_cons,
        List.zipWith_cons_cons, List.flatten_cons, List.flatten_cons, nonTypes_append,
        nonTypes_append]
      exact List.rel_append (forall₂_scopedFrom t (h t List.mem_cons_self) houter)
        (forall₂_scopedFromAll ts (fun u hu => h u (List.mem_cons_of_mem t hu)) houters)

end

end Nodes

/-- The nodes of the tree of a source and of what comes out of it, but for the types. -/
theorem forall₂_scoped (hw : w.Retells root) :
    List.Forall₂ hw.NodeAlike (nonTypes (root.scoped [])) (nonTypes ((w.tree root).scoped [])) := by
  have houter : Option.Rel hw.ScopeAlike (some []) (some []) := .some .nil
  exact forall₂_scopedFrom root ⟨rfl, .inr rfl, .inl hw.marks, List.Sublist.refl _⟩ houter

end Retells

end Weaving

end NullableMarker
