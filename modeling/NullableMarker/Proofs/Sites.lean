import NullableMarker.Annotate
import NullableMarker.Proofs.TokenOrder
import NullableMarker.Proofs.UnitForms

/-!
# The declarations of a unit

The sites that are judged are the properties, fields and parameters of the tree, each once and in
the order in which they start. No two start at the same offset, so that an offset stands for one
declaration.

* `Tree.sites` — the declarations of a tree
* `Environment.node_sites` — they are what is judged
* `Tree.offsets_increasing` — where they start
-/

namespace NullableMarker

namespace Tree

/-- The properties, fields and parameters of a tree, each before what stands below it. -/
def sites (t : Tree) : List Tree := t.nodes.filter (·.isNode NodeKind.isSite)

/-- The declarations of a list of trees. -/
def sitesAll (ts : List Tree) : List Tree := (nodesAll ts).filter (·.isNode NodeKind.isSite)

@[simp] theorem sites_token (t : Token) : (token t).sites = [] := by simp [sites]

theorem sites_node (k : NodeKind) (cs : List Tree) :
    (node k cs).sites = if k.isSite then node k cs :: sitesAll cs else sitesAll cs := by
  rw [sites, nodes_node, List.filter_cons, isNode_node]
  rfl

@[simp] theorem sitesAll_nil : sitesAll [] = [] := by simp [sitesAll]

@[simp] theorem sitesAll_cons (t : Tree) (ts : List Tree) :
    sitesAll (t :: ts) = t.sites ++ sitesAll ts := by simp [sitesAll, sites]

@[simp] theorem sitesAll_append (as bs : List Tree) :
    sitesAll (as ++ bs) = sitesAll as ++ sitesAll bs := by simp [sitesAll]

/-! ## Judged nodes -/

/-- The declarations that are judged at a node: itself, and the parameters that it owns. -/
def sitesAt (t : Tree) : List Tree :=
  (if t.isNode (· == .property) || t.isNode (· == .field) then [t] else [])
    ++ (if t.isNode (· == .parameter) then [] else (t.parameterList?.map (·.parameters)).getD [])

mutual

/-- Scopes are put on all nodes, in their order. -/
theorem node_scoped (scope : Scope) : (t : Tree) → (t.scoped scope).map (·.node) = t.nodes
  | token _ => by simp [Tree.scoped]
  | node kind children => by
    rw [Tree.scoped, nodes_node, List.map_cons]
    congr 1
    split
    · simp [Function.comp_def]
    · split
      · exact node_scopedMembers _ children
      · exact node_scopedAll _ children

theorem node_scopedAll (scope : Scope) :
    (ts : List Tree) → (scopedAll scope ts).map (·.node) = nodesAll ts
  | [] => by simp [scopedAll]
  | t :: ts => by
    rw [scopedAll, List.map_append, nodesAll_cons, node_scoped scope t, node_scopedAll scope ts]

theorem node_scopedMembers (scope : Scope) :
    (ts : List Tree) → (scopedMembers scope ts).map (·.node) = nodesAll ts
  | [] => by simp [scopedMembers]
  | t :: ts => by
    rw [scopedMembers, nodesAll_cons]
    split
    · rw [List.map_append, node_scopedAll scope ts]
      simp [Function.comp_def]
    · rw [List.map_append, node_scoped scope t, node_scopedMembers scope ts]

end

end Tree

theorem node_sitesOf (nodes : List ScopedNode) :
    (sitesOf nodes).map (·.node) = (nodes.map (·.node)).flatMap Tree.sitesAt := by
  induction nodes with
  | nil => rfl
  | cons s nodes ih =>
    rw [sitesOf, List.flatMap_cons, List.map_append, List.map_cons, List.flatMap_cons, ← ih]
    congr 1
    rw [List.map_append, Tree.sitesAt]
    congr 1
    · unfold ScopedNode.ownSite ScopedNode.isKind
      split
      · next h => simp [h, Site.node]
      · next h =>
        split
        · next h' => simp [h', Site.node]
        · next h' => simp [h, h']
    · unfold ScopedNode.parameterSites ScopedNode.isKind
      split
      · rfl
      · simp [Site.node, Function.comp_def]

namespace Tree

/-! ## Bare trees declare nothing -/

mutual

theorem Bare.nodes : (t : Tree) → t.Bare → ∀ n ∈ t.nodes, n.Bare
  | token _, _ => by simp
  | node k cs, h => by
    intro n hn
    rw [nodes_node, List.mem_cons] at hn
    rcases hn with rfl | hn
    · exact h
    · exact Bare.nodesAll cs ((bare_node k cs).mp h).2 n hn

theorem Bare.nodesAll : (ts : List Tree) → (∀ t ∈ ts, t.Bare) → ∀ n ∈ Tree.nodesAll ts, n.Bare
  | [], _ => by simp
  | t :: ts, h => by
    intro n hn
    rw [nodesAll_cons, List.mem_append] at hn
    rcases hn with hn | hn
    · exact Bare.nodes t (h t (by simp)) n hn
    · exact Bare.nodesAll ts (fun u hu => h u (by simp [hu])) n hn

end

theorem Bare.not_isNode {t : Tree} (h : t.Bare) {p : NodeKind → Bool}
    (hp : ∀ k, p k = true → k.isDeclared = true) : t.isNode p = false := by
  cases t with
  | token t => rfl
  | node k cs =>
    rw [bare_node] at h
    rw [isNode_node]
    cases hk : p k with
    | false => rfl
    | true => rw [hp k hk] at h; simp at h

theorem find_parameterList_of_forall {cs : List Tree}
    (h : ∀ c ∈ cs, c.isNode (· == .parameterList) = false) (k : NodeKind) :
    (node k cs).parameterList? = none := by
  rw [parameterList?, child?]
  simpa [children] using h

theorem Bare.isParameterList {t : Tree} (h : t.Bare) : t.isNode (· == .parameterList) = false :=
  h.not_isNode (by intro k hk; simp [NodeKind.isDeclared, hk])

theorem Bare.isSite {t : Tree} (h : t.Bare) : t.isNode NodeKind.isSite = false :=
  h.not_isNode (by intro k hk; simp [NodeKind.isDeclared, hk])

theorem Bare.sitesAt {t : Tree} (h : t.Bare) : t.sitesAt = [] := by
  have hproperty : t.isNode (· == .property) = false :=
    h.not_isNode (by intro k hk; rw [beq_iff_eq.mp hk]; rfl)
  have hfield : t.isNode (· == .field) = false :=
    h.not_isNode (by intro k hk; rw [beq_iff_eq.mp hk]; rfl)
  cases t with
  | token t => rfl
  | node k cs =>
    have hlist := find_parameterList_of_forall
      (fun c hc => (((bare_node k cs).mp h).2 c hc).isParameterList) k
    simp [Tree.sitesAt, hproperty, hfield, hlist]

theorem Bare.sites {t : Tree} (h : t.Bare) : t.sites = [] := by
  rw [Tree.sites, List.filter_eq_nil_iff]
  intro n hn
  rw [(Bare.nodes t h n hn).isSite]
  simp

theorem sitesAll_of_bare {ts : List Tree} (h : ∀ t ∈ ts, t.Bare) : sitesAll ts = [] := by
  rw [sitesAll, List.filter_eq_nil_iff]
  intro n hn
  rw [(Bare.nodesAll ts h n hn).isSite]
  simp

theorem flatMap_sitesAt_of_bare {ts : List Tree} (h : ∀ t ∈ ts, t.Bare) :
    (nodesAll ts).flatMap sitesAt = [] := by
  rw [List.flatMap_eq_nil_iff]
  intro n hn
  exact (Bare.nodesAll ts h n hn).sitesAt

/-! ## Declarations with a type -/

theorem Typed.bare {cs pre : List Tree} {type : Tree} {post : List Tree}
    (h : Typed cs pre type post) : ∀ c ∈ cs, c.Bare := by
  intro c hc
  rw [h.split, List.mem_append, List.mem_cons] at hc
  rcases hc with hc | rfl | hc
  · exact (h.pre_plain c hc).1
  · exact h.type_isType.bare
  · exact (h.post_plain c hc).1

theorem ParameterForm.bare {cs : List Tree} (h : ParameterForm cs) : ∀ c ∈ cs, c.Bare := by
  rcases h with ⟨pre, type, post, h⟩ | ⟨h, -⟩
  · exact h.bare
  · intro c hc
    exact (h c hc).1

/-- Below the parameters of a list nothing is declared. -/
theorem sitesAll_of_items {cs : List Tree} (h : ∀ c ∈ cs, ParameterItem c) :
    (nodesAll cs).flatMap sitesAt = [] ∧ sitesAll cs = cs.filter (·.isNode (· == .parameter)) := by
  induction cs with
  | nil => simp
  | cons c cs ih =>
    obtain ⟨hnodes, hsites⟩ := ih fun d hd => h d (by simp [hd])
    rw [nodesAll_cons, List.flatMap_append, hnodes, sitesAll_cons, hsites]
    rcases h c (by simp) with ⟨t, rfl⟩ | ⟨ds, rfl, hds⟩
    · simp
    · have hbare := hds.bare
      rw [nodes_node, List.flatMap_cons, flatMap_sitesAt_of_bare hbare, sites_node,
        sitesAll_of_bare hbare]
      simp [sitesAt, NodeKind.isSite]

/-! ## All declarations are judged -/

theorem isSite_of_isDeclared {k : NodeKind} (h : k.isDeclared = false) : k.isSite = false := by
  rw [NodeKind.isDeclared, Bool.or_eq_false_iff] at h
  exact h.1

theorem Orderly.isParameterList {t : Tree} (h : t.Orderly) :
    t.isNode (· == .parameterList) = false := by
  have hplain : ∀ {k : NodeKind}, k.isDeclared = false → (k == .parameterList) = false := by
    intro k hk
    rw [NodeKind.isDeclared, Bool.or_eq_false_iff] at hk
    exact hk.2
  cases h with
  | bare h => exact h.isParameterList
  | site hk h => rcases hk with rfl | rfl <;> rfl
  | plain hk h => exact hplain (isDeclared_of_isOrdinary hk)
  | owner hk hpre hlist hpost => exact hplain (isDeclared_of_isOrdinary hk)

theorem sitesAt_of_isDeclared {k : NodeKind} (h : k.isDeclared = false) (cs : List Tree) :
    (node k cs).sitesAt = ((node k cs).parameterList?.map (·.parameters)).getD [] := by
  have hk := isSite_of_isDeclared h
  unfold sitesAt
  cases k <;> first | rfl | cases hk

theorem flatMap_sitesAt_nodesAll {cs : List Tree}
    (h : ∀ c ∈ cs, c.nodes.flatMap sitesAt = c.sites) :
    (nodesAll cs).flatMap sitesAt = sitesAll cs := by
  induction cs with
  | nil => simp
  | cons c cs ih =>
    rw [nodesAll_cons, List.flatMap_append, sitesAll_cons, h c (by simp),
      ih fun d hd => h d (by simp [hd])]

/-- What is judged at the nodes of an orderly tree are its declarations. -/
theorem Orderly.flatMap_sitesAt {t : Tree} (h : t.Orderly) :
    t.nodes.flatMap sitesAt = t.sites := by
  induction h with
  | bare h =>
    rw [h.sites, List.flatMap_eq_nil_iff]
    intro n hn
    exact (Bare.nodes _ h n hn).sitesAt
  | @site k cs pre type post hk h =>
    have hlist := find_parameterList_of_forall (fun c hc => (h.bare c hc).isParameterList) k
    rw [nodes_node, List.flatMap_cons, flatMap_sitesAt_of_bare h.bare, sites_node,
      sitesAll_of_bare h.bare]
    rcases hk with rfl | rfl <;> simp [sitesAt, NodeKind.isSite, hlist]
  | @plain k cs hk h ih =>
    have hk := isDeclared_of_isOrdinary hk
    have hlist := find_parameterList_of_forall (fun c hc => (h c hc).isParameterList) k
    rw [nodes_node, List.flatMap_cons, sitesAt_of_isDeclared hk, hlist, sites_node,
      isSite_of_isDeclared hk, flatMap_sitesAt_nodesAll ih]
    rfl
  | @owner k pre list post hk hpre hlist hpost ih =>
    have hk := isDeclared_of_isOrdinary hk
    obtain ⟨items, rfl, hitems⟩ := hlist
    obtain ⟨hnodes, hsites⟩ := sitesAll_of_items hitems
    have hfound : (node k (pre ++ node .parameterList items :: post)).parameterList?
        = some (node .parameterList items) := by
      have hbefore : pre.find? (·.isNode (· == .parameterList)) = none := by
        rw [List.find?_eq_none]
        intro c hc
        rw [(hpre c hc).isParameterList]
        simp
      rw [parameterList?, child?, children, List.find?_append, hbefore]
      rfl
    -- the parameters are judged at their owner, and nothing at the nodes of their list
    have hinner : (node .parameterList items).nodes.flatMap sitesAt = [] := by
      have hnone : (node .parameterList items).parameterList? = none := by
        refine find_parameterList_of_forall ?_ _
        intro c hc
        rcases hitems c hc with ⟨t, rfl⟩ | ⟨ds, rfl, -⟩ <;> rfl
      rw [nodes_node, List.flatMap_cons, hnodes]
      simp [sitesAt, hnone]
    rw [nodes_node, List.flatMap_cons, sitesAt_of_isDeclared hk, hfound, nodesAll_append,
      nodesAll_cons, List.flatMap_append, List.flatMap_append, hinner, flatMap_sitesAt_of_bare hpre,
      flatMap_sitesAt_nodesAll ih, sites_node, isSite_of_isDeclared hk, sitesAll_append,
      sitesAll_cons, sites_node, sitesAll_of_bare hpre, hsites]
    rfl

/-! ## Declarations stand apart -/

/-- The declarations of a tree follow one another, and none is empty. -/
def Apart (sites : List Tree) (tokens : List Token) : Prop :=
  (sites.flatMap Tree.tokens).Sublist tokens ∧ ∀ n ∈ sites, n.tokens ≠ []

theorem Apart.nil (tokens : List Token) : Apart [] tokens := ⟨by simp, by simp⟩

theorem Apart.append {as bs : List Tree} {ts us : List Token} (ha : Apart as ts)
    (hb : Apart bs us) : Apart (as ++ bs) (ts ++ us) := by
  refine ⟨?_, ?_⟩
  · rw [List.flatMap_append]
    exact ha.1.append hb.1
  · intro n hn
    rcases List.mem_append.mp hn with hn | hn
    · exact ha.2 n hn
    · exact hb.2 n hn

theorem Apart.single {t : Tree} (h : t.tokens ≠ []) : Apart [t] t.tokens :=
  ⟨by simp, by simpa using h⟩

theorem apart_sitesAll {cs : List Tree} (h : ∀ c ∈ cs, Apart c.sites c.tokens) :
    Apart (sitesAll cs) (tokensAll cs) := by
  induction cs with
  | nil => exact .nil _
  | cons c cs ih =>
    rw [sitesAll_cons, tokensAll_cons]
    exact (h c (by simp)).append (ih fun d hd => h d (by simp [hd]))

theorem Typed.tokens_ne_nil {cs pre : List Tree} {type : Tree} {post : List Tree}
    (h : Typed cs pre type post) : tokensAll cs ≠ [] := by
  have hends := h.type_isType.ends
  rw [h.split, tokensAll_append, tokensAll_cons]
  intro hnil
  simp only [List.append_eq_nil_iff] at hnil
  rw [hnil.2.1] at hends
  cases hends

theorem apart_of_item {c : Tree} (h : ParameterItem c) : Apart c.sites c.tokens := by
  rcases h with ⟨t, rfl⟩ | ⟨ds, rfl, hds⟩
  · exact .nil _
  · rw [sites_node, sitesAll_of_bare hds.bare]
    refine Apart.single ?_
    rw [tokens_node]
    rcases hds with ⟨pre, type, post, h⟩ | ⟨-, h⟩
    · exact h.tokens_ne_nil
    · exact h

theorem Orderly.apart {t : Tree} (h : t.Orderly) : Apart t.sites t.tokens := by
  induction h with
  | bare h =>
    rw [h.sites]
    exact .nil _
  | @site k cs pre type post hk h =>
    have hsite : k.isSite = true := by rcases hk with rfl | rfl <;> rfl
    rw [sites_node, sitesAll_of_bare h.bare, hsite]
    exact Apart.single h.tokens_ne_nil
  | plain hk h ih =>
    rw [sites_node, isSite_of_isDeclared (isDeclared_of_isOrdinary hk)]
    exact apart_sitesAll ih
  | owner hk hpre hlist hpost ih =>
    obtain ⟨items, rfl, hitems⟩ := hlist
    rw [sites_node, isSite_of_isDeclared (isDeclared_of_isOrdinary hk), tokens_node,
      if_neg (by simp), sitesAll_append, sitesAll_cons, sitesAll_of_bare hpre, tokensAll_append,
      tokensAll_cons]
    refine (Apart.nil _).append (Apart.append ?_ (apart_sitesAll ih))
    rw [sites_node, tokens_node]
    exact apart_sitesAll fun c hc => apart_of_item (hitems c hc)

end Tree

/-! ## Offsets -/

/-- The first token starts before the second. -/
def Token.StartsBefore (a b : Token) : Prop :=
  ∃ i j, a.offset = some i ∧ b.offset = some j ∧ i < j

theorem Token.PlacedFrom.offset_ge {n : Nat} {ts : List Token} (h : Token.PlacedFrom n ts) :
    ∀ t ∈ ts, ∃ i, t.offset = some i ∧ n ≤ i := by
  induction ts generalizing n with
  | nil => simp
  | cons t ts ih =>
    intro u hu
    rcases List.mem_cons.mp hu with rfl | hu
    · exact ⟨_, h.1, by omega⟩
    · obtain ⟨i, hi, hle⟩ := ih h.2 u hu
      exact ⟨i, hi, by omega⟩

/-- Tokens that follow one another start one after another, if only the last may be empty. -/
theorem Token.PlacedFrom.startsBefore {n : Nat} {ts : List Token} {last : Token}
    (h : Token.PlacedFrom n (ts ++ [last])) (hts : ∀ t ∈ ts, t.value ≠ "") :
    (ts ++ [last]).Pairwise Token.StartsBefore := by
  induction ts generalizing n with
  | nil => simp
  | cons t ts ih =>
    obtain ⟨hoffset, hrest⟩ := h
    refine List.pairwise_cons.mpr ⟨?_, ih hrest fun u hu => hts u (by simp [hu])⟩
    intro u hu
    obtain ⟨i, hi, hle⟩ := Token.PlacedFrom.offset_ge hrest u hu
    have hvalue : 0 < t.value.length := by
      rw [Nat.pos_iff_ne_zero, ne_eq, String.length_eq_zero_iff]
      exact hts t (by simp)
    refine ⟨_, i, hoffset, hi, ?_⟩
    rw [Token.fullText, String.length_append, String.length_append] at hle
    omega

theorem TokenStream.Tiles.startsBefore {source : String} {stream : TokenStream}
    (h : stream.Tiles source) : stream.all.Pairwise Token.StartsBefore :=
  Token.PlacedFrom.startsBefore h.placed fun t ht => (h.proper t ht).2

namespace Tree

/-- The first tree starts before the second. -/
def StartsBefore (a b : Tree) : Prop := ∃ i j, a.offset? = some i ∧ b.offset? = some j ∧ i < j

theorem offset?_eq (t : Tree) : t.offset? = t.tokens.head?.bind (·.offset) := by
  rw [offset?, firstToken?_eq]

/-- Declarations that stand apart start one after another. -/
theorem Apart.startsBefore {sites : List Tree} {tokens : List Token} (h : Apart sites tokens)
    (htokens : tokens.Pairwise Token.StartsBefore) : sites.Pairwise StartsBefore := by
  have hflat := htokens.sublist h.1
  have hne := h.2
  clear h
  induction sites with
  | nil => exact .nil
  | cons a sites ih =>
    rw [List.flatMap_cons, List.pairwise_append] at hflat
    obtain ⟨-, hrest, hcross⟩ := hflat
    refine List.pairwise_cons.mpr ⟨?_, ih hrest fun n hn => hne n (by simp [hn])⟩
    intro b hb
    obtain ⟨s, ss, hs⟩ := List.exists_cons_of_ne_nil (hne a (by simp))
    obtain ⟨u, us, hu⟩ := List.exists_cons_of_ne_nil (hne b (by simp [hb]))
    have hub : u ∈ sites.flatMap Tree.tokens :=
      List.mem_flatMap.mpr ⟨b, hb, by simp [hu]⟩
    obtain ⟨i, j, hi, hj, hlt⟩ := hcross s (by simp [hs]) u hub
    refine ⟨i, j, ?_, ?_, hlt⟩
    · rw [offset?_eq, hs]
      exact hi
    · rw [offset?_eq, hu]
      exact hj

/-! ## Trees of sources -/

/-- What is known of a tree that is read from a source. -/
structure IsTreeOf (root : Tree) (source : String) : Prop where
  form : ∃ kind cs, root = node kind cs ∧ (kind = .compilationUnit ∨ kind = .fragment)
    ∧ ∀ c ∈ cs, c.Orderly
  fullText : root.fullText = source
  tokens_ne_nil : root.tokens ≠ []
  placed : Token.PlacedFrom 0 root.tokens
  proper : ∀ t ∈ root.tokens, t.kind ≠ .eof → t.value ≠ ""
  startsBefore : root.tokens.Pairwise Token.StartsBefore

/-- What is known of the tree of a unit. -/
structure IsUnitOf (root : Tree) (source : String) : Prop extends root.IsTreeOf source where
  isUnit : root.isNode (· == .compilationUnit) = true

/-- The tokens of a tree that keeps those of a source. -/
theorem isTreeOf_of_ofSource {source : String} {defined : List String} {stream : TokenStream}
    (hstream : TokenStream.ofSource source defined = .ok stream) {root : Tree}
    (htokens : root.tokens = stream.all)
    (hform : ∃ kind cs, root = node kind cs ∧ (kind = .compilationUnit ∨ kind = .fragment)
      ∧ ∀ c ∈ cs, c.Orderly) : root.IsTreeOf source := by
  have htiles := TokenStream.tiles_of_ofSource hstream
  refine ⟨hform, ?_, ?_, ?_, ?_, ?_⟩
  · rw [Tree.fullText, htokens]
    exact htiles.fullText
  · rw [htokens, TokenStream.all]
    simp
  · rw [htokens]
    exact htiles.placed
  · rw [htokens]
    intro t ht hkind
    rcases List.mem_append.mp ht with ht | ht
    · exact (htiles.proper t ht).2
    · rw [List.mem_singleton.mp ht, htiles.eof_kind] at hkind
      exact absurd rfl hkind
  · rw [htokens]
    exact htiles.startsBefore

theorem isUnitOf_of_parseUnit {source : String} {defined : List String} {root : Tree}
    (h : parseUnit source defined = .ok root) : root.IsUnitOf source := by
  obtain ⟨stream, hstream, hroot⟩ := stream_of_readSource h
  have htokens := TokenStream.tokens_of_toUnit hroot
  obtain ⟨cs, rfl, hcs⟩ := TokenStream.toUnit_form hroot
  exact ⟨isTreeOf_of_ofSource hstream htokens ⟨_, cs, rfl, .inl rfl, hcs⟩, rfl⟩

theorem isTreeOf_of_parseFragment {source : String} {defined : List String} {root : Tree}
    (h : parseFragment source defined = .ok root) : root.IsTreeOf source := by
  obtain ⟨stream, hstream, hroot⟩ := stream_of_readSource h
  have htokens := TokenStream.tokens_of_toFragment hroot
  obtain ⟨cs, rfl, hcs⟩ := TokenStream.toFragment_form hroot
  exact isTreeOf_of_ofSource hstream htokens ⟨_, cs, rfl, .inr rfl, hcs⟩

namespace IsTreeOf

variable {root : Tree} {source : String}

theorem orderly (h : root.IsTreeOf source) : root.Orderly := by
  obtain ⟨kind, cs, rfl, rfl | rfl, hcs⟩ := h.form
  · exact .plain rfl hcs
  · exact .plain rfl hcs

/-- The declarations of a source start one after another. -/
theorem sites_startsBefore (h : root.IsTreeOf source) : root.sites.Pairwise StartsBefore :=
  h.orderly.apart.startsBefore h.startsBefore

/-- Every declaration of a source has an offset. -/
theorem exists_offset (h : root.IsTreeOf source) : ∀ n ∈ root.sites, ∃ i, n.offset? = some i := by
  intro n hn
  obtain ⟨hsub, hne⟩ := h.orderly.apart
  obtain ⟨t, ts, ht⟩ := List.exists_cons_of_ne_nil (hne n hn)
  have hmem : t ∈ root.tokens :=
    hsub.mem (List.mem_flatMap.mpr ⟨n, hn, by simp [ht]⟩)
  obtain ⟨i, hi, -⟩ := h.placed.offset_ge t hmem
  refine ⟨i, ?_⟩
  rw [offset?_eq, ht]
  exact hi

end IsTreeOf

end Tree

namespace Environment

variable {references : SymbolTable} {origin : String} {root : Tree} {env : Environment}

theorem root_of_ofTree (h : ofTree references origin root = .ok env) :
    env.root = root ∧ env.nodes = root.scoped [] := by
  obtain ⟨⟨u, resolution⟩, -, h⟩ := ok_of_bind h
  cases h
  exact ⟨rfl, rfl⟩

/-- What is judged in a source are its declarations. -/
theorem node_sites {source : String} (hroot : root.IsTreeOf source)
    (h : ofTree references origin root = .ok env) : env.sites.map (·.node) = root.sites := by
  obtain ⟨kind, cs, rfl, hkind, hcs⟩ := hroot.form
  have hsite : kind.isSite = false := by rcases hkind with rfl | rfl <;> rfl
  rw [sites, (root_of_ofTree h).2, node_sitesOf, List.map_tail, Tree.node_scoped, Tree.nodes_node,
    List.tail_cons, Tree.flatMap_sitesAt_nodesAll fun c hc => (hcs c hc).flatMap_sitesAt,
    Tree.sites_node, hsite]
  rfl

end Environment

end NullableMarker
