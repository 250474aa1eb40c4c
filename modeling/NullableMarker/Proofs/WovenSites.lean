import NullableMarker.Proofs.WovenScopes

/-!
# Environments of woven trees

The types that a tree declares are those that its woven tree declares, and their base lists are
resolved alike. So both trees have an environment or neither has, the same types are known in both,
and both have the same sites in the same order.

* `Weaving.Retells.alike_completeDeclaration` — base lists are resolved alike
* `Weaving.Retells.exists_ofTree` — the environment of a woven tree
* `Weaving.Retells.forall₂_sites` — its sites
-/

namespace NullableMarker

namespace Weaving.Retells

variable {w : Weaving} {root : Tree} {hw : w.Retells root}

/-! ## Nodes -/

section Nodes

variable {s s' : ScopedNode}

theorem NodeAlike.kind?_eq (h : hw.NodeAlike s s') : s'.node.kind? = s.node.kind? := by
  obtain ⟨w', -, -, -, heq⟩ := h.node
  rw [heq, kind?_tree h.isType]

theorem NodeAlike.isKind_eq (h : hw.NodeAlike s s') (p : NodeKind → Bool) :
    s'.isKind p = s.isKind p := by
  rw [ScopedNode.isKind, Tree.isNode, h.kind?_eq]
  rfl

theorem NodeAlike.inner (h : hw.NodeAlike s s') : Option.Rel hw.ScopeAlike s.inner s'.inner := by
  obtain ⟨w', hrelabel, -, hmarks, heq⟩ := h.node
  have houter := h.outer
  unfold ScopedNode.inner
  generalize s.outer = outer at houter
  generalize s'.outer = outer' at houter
  cases houter with
  | none => exact .none
  | some hscope =>
    rw [heq]
    exact .some (scopeAlike_enter hrelabel h.isType hmarks h.tokens hscope)

/-- The scope that a declaration sees says the same. -/
theorem NodeAlike.scope? (h : hw.NodeAlike s s') : Option.Rel hw.ScopeAlike s.scope? s'.scope? := by
  unfold ScopedNode.scope?
  rw [h.kind?_eq]
  cases s.node.kind? with
  | none => exact .none
  | some kind =>
    dsimp only
    split
    · exact .none
    · split
      · exact h.inner
      · exact h.outer

/-! ## Declared types -/

theorem NodeAlike.declaredSymbol?_eq (h : hw.NodeAlike s s') (origin : String) :
    s'.declaredSymbol? origin = s.declaredSymbol? origin := by
  obtain ⟨w', -, -, -, heq⟩ := h.node
  have houter := h.outer
  unfold ScopedNode.declaredSymbol?
  rw [h.kind?_eq]
  generalize s.outer = outer at houter
  generalize s'.outer = outer' at houter
  cases houter with
  | none => rfl
  | some hscope =>
    simp only [Option.bind_eq_bind, Option.bind_some, Option.pure_def, heq,
      declaredSymbol_eq hscope h.isType]

theorem NodeAlike.declaredKey?_eq (h : hw.NodeAlike s s') : s'.declaredKey? = s.declaredKey? := by
  rw [ScopedNode.declaredKey?, h.declaredSymbol?_eq, ← ScopedNode.declaredKey?]

theorem alike_resolveBaseList (h : hw.NodeAlike s s') :
    Alike hw.coupling.states Eq (resolveBaseList s) (resolveBaseList s') := by
  obtain ⟨w', -, -, -, heq⟩ := h.node
  have hinner := h.inner
  unfold resolveBaseList
  generalize s.inner = inner at hinner
  generalize s'.inner = inner' at hinner
  cases hinner with
  | none => exact Alike.pure rfl
  | some hscope =>
    dsimp only
    rw [h.isKind_eq, heq, baseTypes_tree h.isType]
    have htypes : List.Forall₂ (fun base base' => base'.written = base.written) s.node.baseTypes
        (s.node.baseTypes.map w'.tree) := by
      rw [List.forall₂_map_right_iff, List.forall₂_same]
      intro base hbase
      refine written_tree ?_
      unfold Tree.baseTypes at hbase
      split at hbase
      · exact (List.mem_filter.mp hbase).2
      · cases hbase
    refine Alike.foldlM htypes (fun l _ hl base base' hbase => ?_) rfl
    subst hl
    refine (Coupling.alike_typeNode (Coupling.alike_lookup hscope) hbase fun _ _ => trivial).bind ?_
    rintro o _ ⟨rfl, -⟩
    exact Alike.pure rfl

/-- Base lists are resolved alike, and complete the types alike. -/
theorem alike_completeDeclaration (h : hw.NodeAlike s s') :
    Alike hw.coupling.states (fun _ _ => True) (completeDeclaration s)
      (completeDeclaration s') := by
  unfold completeDeclaration
  rw [h.isKind_eq, h.declaredKey?_eq]
  split
  · exact Alike.pure trivial
  · cases s.declaredKey? with
    | none => exact Alike.pure trivial
    | some key =>
      refine (alike_resolveBaseList h).bind ?_
      rintro l _ rfl
      refine Alike.modify ?_
      rintro st st' ⟨htable, hbound⟩
      refine ⟨?_, hbound⟩
      show st'.table.complete key l = st.table.complete key l
      rw [htable]

end Nodes

end Weaving.Retells

/-! ## Environments -/

theorem typeDeclarations_nonTypes (nodes : List ScopedNode) :
    typeDeclarations (nonTypes nodes) = typeDeclarations nodes := by
  rw [typeDeclarations, nonTypes, List.filter_filter, typeDeclarations]
  refine List.filter_congr fun s _ => ?_
  have hkind : s.isKind NodeKind.isTypeDeclaration = true → s.isKind NodeKind.isType = false := by
    cases hs : s.node with
    | token t => rw [ScopedNode.isKind, hs]; intro h; cases h
    | node k cs =>
      rw [ScopedNode.isKind, ScopedNode.isKind, hs]
      cases k <;> first | exact fun _ => rfl | exact fun h => by cases h
  cases hd : s.isKind NodeKind.isTypeDeclaration with
  | false => simp
  | true => simp [hkind hd]

namespace Weaving.Retells

variable {w : Weaving} {root : Tree}

theorem forall₂_typeDeclarations (hw : w.Retells root) :
    List.Forall₂ hw.NodeAlike (typeDeclarations (root.scoped []))
      (typeDeclarations ((w.tree root).scoped [])) := by
  rw [← typeDeclarations_nonTypes, ← typeDeclarations_nonTypes ((w.tree root).scoped [])]
  refine List.rel_filter (fun s s' h => ?_) hw.forall₂_scoped
  have houter : s'.outer.isSome = s.outer.isSome := by
    have houter := h.outer
    generalize s.outer = outer at houter
    generalize s'.outer = outer' at houter
    cases houter <;> rfl
  show (s.outer.isSome && s.isKind NodeKind.isTypeDeclaration) = true
    ↔ (s'.outer.isSome && s'.isKind NodeKind.isTypeDeclaration) = true
  rw [h.isKind_eq, houter]

theorem filterMap_eq_of_forall₂ {α β γ : Type} {R : α → β → Prop} {f : α → Option γ}
    {g : β → Option γ} {as : List α} {bs : List β} (h : List.Forall₂ R as bs)
    (hfg : ∀ a b, R a b → g b = f a) : bs.filterMap g = as.filterMap f := by
  induction h with
  | nil => rfl
  | cons hab _ ih => rw [List.filterMap_cons, List.filterMap_cons, hfg _ _ hab, ih]

/-- A woven tree has an environment if the tree has one, with the same types known. -/
theorem exists_ofTree (hw : w.Retells root) {references : SymbolTable} {origin : String}
    {env : Environment} (h : Environment.ofTree references origin root = .ok env) :
    ∃ env', Environment.ofTree references origin (w.tree root) = .ok env'
      ∧ hw.coupling.states env.resolution env'.resolution := by
  have hdeclarations := hw.forall₂_typeDeclarations
  have hsymbols : (typeDeclarations ((w.tree root).scoped [])).filterMap (·.declaredSymbol? origin)
      = (typeDeclarations (root.scoped [])).filterMap (·.declaredSymbol? origin) :=
    filterMap_eq_of_forall₂ hdeclarations fun s s' hs => hs.declaredSymbol?_eq origin
  have hruns : Alike hw.coupling.states (fun _ _ => True)
      ((typeDeclarations (root.scoped [])).forM completeDeclaration)
      ((typeDeclarations ((w.tree root).scoped [])).forM completeDeclaration) :=
    Alike.forM hdeclarations fun s s' hs => alike_completeDeclaration hs
  obtain ⟨⟨⟨⟩, resolution⟩, hrun, h⟩ := ok_of_bind h
  cases h
  have hstates : hw.coupling.states
      { table := references.addAll ((typeDeclarations (root.scoped [])).filterMap
        (·.declaredSymbol? origin)) }
      { table := references.addAll ((typeDeclarations ((w.tree root).scoped [])).filterMap
        (·.declaredSymbol? origin)) } := by
    rw [hsymbols]
    exact ⟨rfl, fun _ _ _ => rfl⟩
  obtain ⟨_, resolution', hrun', -, hstates'⟩ := hruns.ok hstates hrun
  refine ⟨⟨w.tree root, (w.tree root).scoped [], resolution'⟩, ?_, hstates'⟩
  unfold Environment.ofTree
  dsimp only
  rw [hrun']
  rfl

end Weaving.Retells

/-! ## Types declare nothing -/

namespace Tree

/-- No declaration stands in a type. -/
theorem Orderly.bare_of_isType {t : Tree} (h : t.Orderly) :
    ∀ n ∈ t.nodes, n.isNode NodeKind.isType = true → n.Bare := by
  induction h with
  | bare h => exact fun n hn _ => Bare.nodes _ h n hn
  | @site k cs pre type post hk h =>
    intro n hn htype
    rw [nodes_node, List.mem_cons] at hn
    rcases hn with rfl | hn
    · rcases hk with rfl | rfl <;> cases htype
    · exact Bare.nodesAll cs h.bare n hn
  | @plain k cs hk h ih =>
    intro n hn htype
    rw [nodes_node, List.mem_cons] at hn
    rcases hn with rfl | hn
    · rw [isNode_node, isType_of_isOrdinary hk] at htype
      cases htype
    · obtain ⟨c, hc, hn⟩ := mem_nodesAll hn
      exact ih c hc n hn htype
  | @owner k pre list post hk hpre hlist hpost ih =>
    -- the node is before, in or after the parameter list; in it, it is a parameter or below one
    intro n hn htype
    obtain ⟨items, rfl, hitems⟩ := hlist
    rw [nodes_node, List.mem_cons] at hn
    rcases hn with rfl | hn
    · rw [isNode_node, isType_of_isOrdinary hk] at htype
      cases htype
    obtain ⟨c, hc, hn⟩ := mem_nodesAll hn
    rw [List.mem_append, List.mem_cons] at hc
    rcases hc with hc | rfl | hc
    · exact Bare.nodes c (hpre c hc) n hn
    · rw [nodes_node, List.mem_cons] at hn
      rcases hn with rfl | hn
      · cases htype
      obtain ⟨d, hd, hn⟩ := mem_nodesAll hn
      rcases hitems d hd with ⟨t, rfl⟩ | ⟨ds, rfl, hds⟩
      · rw [nodes_token] at hn
        cases hn
      · rw [nodes_node, List.mem_cons] at hn
        rcases hn with rfl | hn
        · cases htype
        · exact Bare.nodesAll ds hds.bare n hn
    · exact ih c hc n hn htype

end Tree

theorem sitesOf_nonTypes {nodes : List ScopedNode}
    (h : ∀ s ∈ nodes, s.isKind NodeKind.isType = true → s.node.Bare) :
    sitesOf (nonTypes nodes) = sitesOf nodes := by
  induction nodes with
  | nil => rfl
  | cons s nodes ih =>
    have ih := ih fun u hu => h u (List.mem_cons_of_mem s hu)
    cases hs : s.isKind NodeKind.isType with
    | false =>
      rw [nonTypes_cons hs]
      exact congrArg (s.ownSite ++ s.parameterSites ++ ·) ih
    | true =>
      have hnone := node_sitesOf [s]
      rw [List.map_singleton, List.flatMap_singleton, (h s List.mem_cons_self hs).sitesAt,
        List.map_eq_nil_iff] at hnone
      have hnone : s.ownSite ++ s.parameterSites = [] := by simpa [sitesOf] using hnone
      rw [nonTypes_cons_of_isType hs, ih, sitesOf, sitesOf, List.flatMap_cons, hnone]
      rfl

namespace Weaving.Retells

variable {w : Weaving} {root : Tree}

/-! ## Sites -/

/-- A site of each tree, judged as the same. -/
structure SiteAlike (hw : w.Retells root) (s s' : Site) : Prop where
  kind : s'.kind = s.kind
  method : s'.method = s.method
  isSite : s.node.isNode NodeKind.isSite = true
  declaration : hw.NodeAlike s.declaration s'.declaration

variable {hw : w.Retells root}

theorem not_bare_of_isSite {t : Tree} (h : t.isNode NodeKind.isSite = true) : ¬ t.Bare := by
  intro hbare
  rw [hbare.isSite] at h
  cases h

/-- A site comes out with its marks. -/
theorem SiteAlike.node_eq {s s' : Site} (h : hw.SiteAlike s s') :
    s'.node = w.tree s.node ∧ s.node.MarksAtTypes w.marked := by
  obtain ⟨w', -, hbare | rfl, hmarks, heq⟩ := h.declaration.node
  · exact absurd hbare (not_bare_of_isSite h.isSite)
  · exact ⟨heq, hmarks⟩

theorem not_bare_of_parameterList? {t list : Tree} (h : t.parameterList? = some list) :
    ¬ t.Bare := by
  intro hbare
  cases t with
  | token s => cases h
  | node k cs =>
    have hcs := ((Tree.bare_node k cs).mp hbare).2
    rw [Tree.find_parameterList_of_forall (fun c hc => (hcs c hc).isParameterList) k] at h
    cases h

theorem forall₂_ownSite {s s' : ScopedNode} (h : hw.NodeAlike s s') :
    List.Forall₂ hw.SiteAlike s.ownSite s'.ownSite := by
  unfold ScopedNode.ownSite
  rw [h.isKind_eq, h.isKind_eq]
  split
  · next hs => exact .cons ⟨rfl, rfl, Tree.isNode_of_kind hs _, h⟩ .nil
  · split
    · next hs => exact .cons ⟨rfl, rfl, Tree.isNode_of_kind hs _, h⟩ .nil
    · exact .nil

theorem forall₂_parameterSites {s s' : ScopedNode} (h : hw.NodeAlike s s') :
    List.Forall₂ hw.SiteAlike s.parameterSites s'.parameterSites := by
  obtain ⟨w', hrelabel, hacts, hmarks, heq⟩ := h.node
  unfold ScopedNode.parameterSites
  rw [h.isKind_eq, h.isKind_eq]
  split
  · exact .nil
  · dsimp only
    rw [heq, name_tree h.isType, parameterList?_tree h.isType]
    cases hlist : s.node.parameterList? with
    | none => exact .nil
    | some list =>
      -- a node with parameters is no part of a type, so it comes out with its marks
      obtain rfl : w' = w := hacts.resolve_left (not_bare_of_parameterList? hlist)
      have hlistType := isType_of_child? rfl hlist
      have hlistMem := List.mem_of_find?_eq_some hlist
      have hlistMarks := marksAtTypes_of_not_isType hmarks hlistMem hlistType
      simp only [Option.map_some, Option.getD_some]
      rw [parameters_tree hlistType, List.map_map, List.forall₂_map_left_iff,
        List.forall₂_map_right_iff, List.forall₂_same]
      intro p hp
      obtain ⟨hpMem, hpKind⟩ := List.mem_filter.mp hp
      have hpType := isType_of_mem_childrenOf rfl hp
      have hpMarks := marksAtTypes_of_not_isType hlistMarks hpMem hpType
      have hpTokens := (sublist_of_child hpMem).trans ((sublist_of_child hlistMem).trans h.tokens)
      exact ⟨rfl, rfl, Tree.isNode_of_kind hpKind _,
        ⟨w', rfl, .inr rfl, hpMarks, rfl⟩, hpType, hpTokens, h.inner⟩

/-- Both trees have the same sites, in the same order. -/
theorem forall₂_sites {source source' : String} (hroot : root.IsTreeOf source)
    (hroot' : (w.tree root).IsTreeOf source') {references : SymbolTable} {origin : String}
    {env env' : Environment} (h : Environment.ofTree references origin root = .ok env)
    (h' : Environment.ofTree references origin (w.tree root) = .ok env') :
    List.Forall₂ hw.SiteAlike env.sites env'.sites := by
  have hbare : ∀ {t : Tree}, t.Orderly →
      ∀ s ∈ (t.scoped []).tail, s.isKind NodeKind.isType = true → s.node.Bare := by
    intro t ht s hs htype
    refine ht.bare_of_isType s.node ?_ htype
    rw [← Tree.node_scoped []]
    exact List.mem_map_of_mem (List.mem_of_mem_tail hs)
  have htail : ∀ {t : Tree}, t.isNode NodeKind.isType = false →
      nonTypes (t.scoped []).tail = (nonTypes (t.scoped [])).tail := by
    intro t ht
    cases t with
    | token s => rfl
    | node k cs =>
      rw [Tree.scoped, List.tail_cons, nonTypes_cons (s := ⟨.node k cs, some []⟩) ht]
      rfl
  -- the nodes that are no types correspond one by one, and the others hold no site
  have htype : root.isNode NodeKind.isType = false := by
    obtain ⟨kind, cs, rfl, rfl | rfl, -⟩ := hroot.form <;> rfl
  have hnodes := List.forall₂_drop 1 hw.forall₂_scoped
  rw [List.drop_one, List.drop_one] at hnodes
  rw [Environment.sites, Environment.sites, (Environment.root_of_ofTree h).2,
    (Environment.root_of_ofTree h').2, ← sitesOf_nonTypes (hbare hroot.orderly),
    ← sitesOf_nonTypes (hbare hroot'.orderly), htail htype, htail ((isType_tree root).trans htype)]
  exact List.rel_flatMap hnodes fun s s' hs =>
    List.rel_append (forall₂_ownSite hs) (forall₂_parameterSites hs)

end Weaving.Retells

end NullableMarker
