import NullableMarker.Proofs.WovenScopes

/-!
# The scopes that a tree opens

Using directives are told by the offset of the first. The tokens of a tree start at offsets of their
own, so an offset tells the namespace whose directives start there, with all that lies around it.

* `Scope.id?` — what the directives of the innermost frame are told by
* `Tree.Opens` — the scopes that nodes of a tree stand in or open, with those around them
* `Tree.Opens.eq_of_id?` — scopes that are told by the same offset are the same
-/

namespace NullableMarker

/-- What the directives of the innermost frame are told by. -/
def Scope.id? : Scope → Option Nat
  | .space _ usings :: _ => usingsId? usings
  | _ => none

/-! ## Entering a node -/

theorem NodeKind.isSome_typeKind? (k : NodeKind) : k.typeKind?.isSome = k.isTypeDeclaration := by
  cases k <;> rfl

namespace Scope

theorem enter_type {scope : Scope} {k : NodeKind} {cs : List Tree} {typeKind : TypeKind}
    (h : k.typeKind? = some typeKind) :
    scope.enter (.node k cs)
      = .type (declaredSymbol "" scope typeKind (.node k cs)).key (Tree.node k cs).typeParameters
        :: scope := by
  unfold Scope.enter
  simp [Tree.kind?, h]

/-- The frames that a namespace opens are no frames of types. -/
theorem mem_of_mem_enterNamespace {scope : Scope} {usings : List Tree} {names : List String}
    {key : String} {ps : List String} (h : .type key ps ∈ scope.enterNamespace usings names) :
    .type key ps ∈ scope := by
  fun_induction Scope.enterNamespace scope usings names with
  | case1 scope => exact h
  | case2 scope name => exact (List.mem_cons.mp h).resolve_left Frame.noConfusion
  | case3 scope name names hne ih => exact (List.mem_cons.mp (ih h)).resolve_left Frame.noConfusion

/-- The frame of a type is that of the declaration that opens it. -/
theorem mem_enter_type {scope : Scope} {kind : NodeKind} {cs : List Tree} {key : String}
    {ps : List String} (h : .type key ps ∈ scope.enter (.node kind cs)) :
    .type key ps ∈ scope ∨ ∃ typeKind, kind.typeKind? = some typeKind
      ∧ key = (declaredSymbol "" scope typeKind (.node kind cs)).key := by
  cases hkind : kind.typeKind? with
  | some typeKind =>
    rw [enter_type hkind] at h
    rcases List.mem_cons.mp h with heq | h
    · cases heq
      exact .inr ⟨typeKind, rfl, rfl⟩
    · exact .inl h
  | none =>
    unfold Scope.enter at h
    rw [show (Tree.node kind cs).kind? = some kind from rfl] at h
    dsimp only at h
    rw [hkind] at h
    dsimp only at h
    split at h
    · exact absurd (List.mem_singleton.mp h) Frame.noConfusion
    · split at h
      · exact .inl (mem_of_mem_enterNamespace h)
      · split at h
        · exact .inl ((List.mem_cons.mp h).resolve_left Frame.noConfusion)
        · exact .inl h

theorem suffix_of_cons {f : Frame} {x scope : Scope} (hx : x <:+ f :: scope) :
    x = f :: scope ∨ x <:+ scope := List.suffix_cons_iff.mp hx

/-- Only the last segment of the name of a namespace has directives. -/
theorem suffix_enterNamespace {scope x : Scope} {usings : List Tree} {names : List String} {i : Nat}
    (hx : x <:+ scope.enterNamespace usings names) (hi : x.id? = some i) :
    x <:+ scope ∨ x = scope.enterNamespace usings names ∧ usingsId? usings = some i := by
  fun_induction Scope.enterNamespace scope usings names with
  | case1 scope => exact .inl hx
  | case2 scope name =>
    rcases suffix_of_cons hx with rfl | hx
    · exact .inr ⟨rfl, hi⟩
    · exact .inl hx
  | case3 scope name names hne ih =>
    rcases ih hx with hx | hx
    · rcases suffix_of_cons hx with rfl | hx
      · cases hi
      · exact .inl hx
    · exact .inr hx

theorem exists_token_of_usingsId? {usings : List Tree} {i : Nat} (h : usingsId? usings = some i) :
    ∃ d ∈ usings, ∃ t ∈ d.tokens, t.offset = some i := by
  obtain ⟨d, hd, hi⟩ := Option.bind_eq_some_iff.mp h
  rw [Tree.offset?_eq] at hi
  obtain ⟨t, ht, hi⟩ := Option.bind_eq_some_iff.mp hi
  exact ⟨d, List.mem_of_head? hd, t, List.mem_of_head? ht, hi⟩

/-- A node opens at most one scope with directives, and these are its children. -/
theorem suffix_enter {scope x : Scope} {t : Tree} {i : Nat} (hx : x <:+ scope.enter t)
    (hi : x.id? = some i) :
    x <:+ scope ∨ x = scope.enter t
      ∧ ∃ d ∈ t.children, d.isNode (· == .usingDirective) = true
        ∧ ∃ u ∈ d.tokens, u.offset = some i := by
  have husings : usingsId? t.usings = some i → ∃ d ∈ t.children,
      d.isNode (· == .usingDirective) = true ∧ ∃ u ∈ d.tokens, u.offset = some i := by
    intro h
    obtain ⟨d, hd, hu⟩ := exists_token_of_usingsId? h
    obtain ⟨hchild, hkind⟩ := List.mem_filter.mp hd
    exact ⟨d, hchild, hkind, hu⟩
  unfold Scope.enter at hx ⊢
  cases hkind : t.kind? with
  | none =>
    rw [hkind] at hx
    exact .inl hx
  | some kind =>
    rw [hkind] at hx
    dsimp only at hx ⊢
    split at hx
    · -- the frame of a type has no directives
      rcases suffix_of_cons hx with rfl | hx
      · cases hi
      · exact .inl hx
    · next htype =>
      split at hx
      · next hunit =>
        rw [if_pos hunit]
        rcases suffix_of_cons hx with rfl | hx
        · exact .inr ⟨rfl, husings hi⟩
        · rw [List.suffix_nil.mp hx] at hi
          cases hi
      · next hunit =>
        rw [if_neg hunit]
        split at hx
        · next hspace =>
          rw [if_pos hspace]
          exact (suffix_enterNamespace hx hi).imp_right fun ⟨heq, h⟩ => ⟨heq, husings h⟩
        · split at hx
          · rcases suffix_of_cons hx with rfl | hx
            · cases hi
            · exact .inl hx
          · exact .inl hx

end Scope

/-! ## Scopes of the nodes below a tree -/

namespace Tree

/-- A node that stands below `t`, which stands in `scope`, stands in the scope `x` or opens it, or a
scope inside it. -/
def OpensIn (scope : Scope) (t : Tree) (x : Scope) : Prop :=
  ∃ s ∈ t.scoped scope, ∃ y, (s.outer = some y ∨ s.inner = some y) ∧ x <:+ y

/-- The scopes that nodes of a tree stand in or open, with those around them. -/
def Opens (root : Tree) (x : Scope) : Prop := root.OpensIn [] x

theorem outer_of_mem_scopedFrom_none {t : Tree} {s : ScopedNode} (hs : s ∈ scopedFrom none t) :
    s.outer = none := by
  obtain ⟨n, -, rfl⟩ := List.mem_map.mp hs
  rfl

theorem mem_scopedFromAll {outers : List (Option Scope)} {ts : List Tree} {s : ScopedNode}
    (hs : s ∈ scopedFromAll outers ts) : ∃ outer ∈ outers, ∃ t ∈ ts, s ∈ scopedFrom outer t
      ∧ scopedFrom outer t ⊆ scopedFromAll outers ts := by
  induction outers generalizing ts with
  | nil => cases hs
  | cons outer outers ih =>
    cases ts with
    | nil => cases hs
    | cons t ts =>
      rcases List.mem_append.mp hs with hs | hs
      · exact ⟨outer, List.mem_cons_self, t, List.mem_cons_self, hs, List.subset_append_left _ _⟩
      · obtain ⟨o, ho, u, hu, hs, hsub⟩ := ih hs
        exact ⟨o, List.mem_cons_of_mem outer ho, u, List.mem_cons_of_mem t hu, hs,
          List.Subset.trans hsub (List.subset_append_right _ _)⟩

theorem mem_memberScopes {inner : Scope} {ts : List Tree} {outer : Option Scope}
    (h : outer ∈ memberScopes inner ts) : outer = none ∨ outer = some inner := by
  induction ts with
  | nil => cases h
  | cons t ts ih =>
    rw [memberScopes] at h
    split at h
    · rcases List.mem_cons.mp h with rfl | h
      · exact .inl rfl
      · obtain ⟨u, -, rfl⟩ := List.mem_map.mp h
        exact .inr rfl
    · rcases List.mem_cons.mp h with rfl | h
      · exact .inr rfl
      · exact ih h

theorem mem_childScopes {scope : Scope} {kind : NodeKind} {cs : List Tree} {outer : Option Scope}
    (h : outer ∈ childScopes (some scope) kind cs) :
    outer = none ∨ outer = some (scope.enter (.node kind cs)) := by
  rw [childScopes] at h
  split at h
  · obtain ⟨c, -, rfl⟩ := List.mem_map.mp h
    exact .inl rfl
  · split at h
    · exact mem_memberScopes h
    · obtain ⟨c, -, rfl⟩ := List.mem_map.mp h
      exact .inr rfl

/-- A directive opens no scope, and no names are looked up from its parts. -/
theorem suffix_of_opensIn_using {scope x : Scope} {t : Tree}
    (ht : t.isNode (· == .usingDirective) = true) (h : t.OpensIn scope x) : x <:+ scope := by
  obtain ⟨s, hs, y, hy, hx⟩ := h
  cases t with
  | token t => cases ht
  | node kind cs =>
    obtain rfl : kind = .usingDirective := eq_of_beq ht
    rw [Tree.scoped] at hs
    rcases List.mem_cons.mp hs with rfl | hs
    · rcases hy with hy | hy <;> cases hy <;> exact hx
    · obtain ⟨n, -, rfl⟩ := List.mem_map.mp hs
      rcases hy with hy | hy <;> cases hy

/-- A scope opened below a node is the one it stands in, the one it opens, or one that is opened
below a child that is no directive. -/
theorem OpensIn.of_node {scope x : Scope} {kind : NodeKind} {cs : List Tree}
    (h : (node kind cs).OpensIn scope x) :
    x <:+ scope ∨ x <:+ scope.enter (.node kind cs)
      ∨ ∃ c ∈ cs, c.isNode (· == .usingDirective) = false
        ∧ c.OpensIn (scope.enter (.node kind cs)) x := by
  obtain ⟨s, hs, y, hy, hx⟩ := h
  rw [show (node kind cs).scoped scope = scopedFrom (some scope) (.node kind cs) from rfl,
    scopedFrom_node] at hs
  rcases List.mem_cons.mp hs with rfl | hs
  · rcases hy with hy | hy <;> cases hy
    · exact .inl hx
    · exact .inr (.inl hx)
  · obtain ⟨outer, houter, c, hc, hs, -⟩ := mem_scopedFromAll hs
    rcases mem_childScopes houter with rfl | rfl
    · -- names are looked up neither here nor further inside
      have hnone := outer_of_mem_scopedFrom_none hs
      rw [ScopedNode.inner, hnone] at hy
      rcases hy with hy | hy <;> cases hy
    · have hopens : c.OpensIn (scope.enter (.node kind cs)) x := ⟨s, hs, y, hy, hx⟩
      cases hkind : c.isNode (· == .usingDirective) with
      | true => exact .inr (.inl (suffix_of_opensIn_using hkind hopens))
      | false => exact .inr (.inr ⟨c, hc, hkind, hopens⟩)

theorem OpensIn.of_token {scope x : Scope} {t : Token} (h : (token t).OpensIn scope x) : False := by
  obtain ⟨s, hs, -⟩ := h
  rw [Tree.scoped] at hs
  cases hs

/-! ## Offsets -/

/-- What is opened below a tree is told by one of its tokens. -/
theorem OpensIn.exists_token {x : Scope} {i : Nat} (hi : x.id? = some i) {scope : Scope} :
    (t : Tree) → t.OpensIn scope x → x <:+ scope ∨ ∃ u ∈ t.tokens, u.offset = some i
  | .token t, h => h.of_token.elim
  | .node kind cs, h => by
    have henter : x <:+ scope.enter (.node kind cs) →
        x <:+ scope ∨ ∃ u ∈ (node kind cs).tokens, u.offset = some i := by
      intro hx
      refine (Scope.suffix_enter hx hi).imp_right ?_
      rintro ⟨-, d, hd, -, u, hu, hoffset⟩
      exact ⟨u, (Weaving.sublist_of_child hd).mem hu, hoffset⟩
    rcases h.of_node with hx | hx | ⟨c, hc, -, hopens⟩
    · exact .inl hx
    · exact henter hx
    · rcases OpensIn.exists_token hi c hopens with hx | ⟨u, hu, hoffset⟩
      · exact henter hx
      · exact .inr ⟨u, (Weaving.sublist_of_child (t := .node kind cs) hc).mem hu, hoffset⟩
termination_by t => sizeOf t
decreasing_by
  have := List.sizeOf_lt_of_mem hc
  simp only [Tree.node.sizeOf_spec]
  omega

/-- The child whose token tells a scope: a directive, if the node opens the scope itself, or the
child that it is opened below. -/
theorem OpensIn.exists_child {scope x : Scope} {kind : NodeKind} {cs : List Tree} {i : Nat}
    (h : (node kind cs).OpensIn scope x) (hi : x.id? = some i) (hx : ¬ x <:+ scope) :
    ∃ c ∈ cs, (∃ u ∈ c.tokens, u.offset = some i)
      ∧ (c.isNode (· == .usingDirective) = true ∧ x = scope.enter (.node kind cs)
        ∨ c.isNode (· == .usingDirective) = false ∧ ¬ x <:+ scope.enter (.node kind cs)
          ∧ c.OpensIn (scope.enter (.node kind cs)) x) := by
  by_cases henter : x <:+ scope.enter (.node kind cs)
  · rcases Scope.suffix_enter henter hi with hsuffix | ⟨heq, d, hd, hkind, hu⟩
    · exact absurd hsuffix hx
    · exact ⟨d, hd, hu, .inl ⟨hkind, heq⟩⟩
  · rcases h.of_node with hsuffix | hsuffix | ⟨c, hc, hkind, hopens⟩
    · exact absurd hsuffix hx
    · exact absurd hsuffix henter
    · have hu := (hopens.exists_token hi).resolve_left henter
      exact ⟨c, hc, hu, .inr ⟨hkind, henter, hopens⟩⟩

theorem offset_ne_of_startsBefore {u u' : Token} (h : u.StartsBefore u') :
    u.offset ≠ u'.offset := by
  obtain ⟨i, j, hi, hj, hlt⟩ := h
  rw [hi, hj]
  exact fun heq => Nat.ne_of_lt hlt (Option.some.inj heq)

/-- An offset tells the child that has it. -/
theorem child_eq_of_offset {cs : List Tree} (h : (tokensAll cs).Pairwise Token.StartsBefore)
    {c c' : Tree} (hc : c ∈ cs) (hc' : c' ∈ cs) {u u' : Token} (hu : u ∈ c.tokens)
    (hu' : u' ∈ c'.tokens) (heq : u.offset = u'.offset) : c = c' := by
  have hmem : ∀ {ts : List Tree} {t : Tree} {v : Token}, t ∈ ts → v ∈ t.tokens →
      v ∈ tokensAll ts := by
    intro ts t v ht hv
    rw [← tokens_node .fragment]
    exact (Weaving.sublist_of_child (t := .node .fragment ts) ht).mem hv
  induction cs with
  | nil => cases hc
  | cons t ts ih =>
    rw [tokensAll_cons, List.pairwise_append] at h
    obtain ⟨-, hts, hcross⟩ := h
    rcases List.mem_cons.mp hc with rfl | hcs <;> rcases List.mem_cons.mp hc' with rfl | hcs'
    · rfl
    · exact absurd heq (offset_ne_of_startsBefore (hcross u hu u' (hmem hcs' hu')))
    · exact absurd heq.symm (offset_ne_of_startsBefore (hcross u' hu' u (hmem hcs hu)))
    · exact ih hts hcs hcs'

/-- Below a tree whose tokens start one after another, what is told by the same offset is the
same. -/
theorem OpensIn.eq_of_id? {x x' : Scope} {i : Nat} (hi : x.id? = some i) (hi' : x'.id? = some i)
    {scope : Scope} (hx : ¬ x <:+ scope) (hx' : ¬ x' <:+ scope) :
    (t : Tree) → t.tokens.Pairwise Token.StartsBefore → t.OpensIn scope x → t.OpensIn scope x' →
    x = x'
  | .token t, _, h, _ => h.of_token.elim
  | .node kind cs, htokens, h, h' => by
    rw [tokens_node] at htokens
    obtain ⟨c, hc, ⟨u, hu, hoffset⟩, hcase⟩ := h.exists_child hi hx
    obtain ⟨c', hc', ⟨u', hu', hoffset'⟩, hcase'⟩ := h'.exists_child hi' hx'
    obtain rfl : c = c' :=
      child_eq_of_offset htokens hc hc' hu hu' (hoffset.trans hoffset'.symm)
    rcases hcase with ⟨hkind, heq⟩ | ⟨hkind, hnot, hopens⟩
      <;> rcases hcase' with ⟨hkind', heq'⟩ | ⟨hkind', hnot', hopens'⟩
    · rw [heq, heq']
    · rw [hkind] at hkind'
      cases hkind'
    · rw [hkind] at hkind'
      cases hkind'
    · refine OpensIn.eq_of_id? hi hi' hnot hnot' c ?_ hopens hopens'
      refine htokens.sublist ?_
      rw [← tokens_node kind]
      exact Weaving.sublist_of_child (t := .node kind cs) hc
termination_by t => sizeOf t
decreasing_by
  have := List.sizeOf_lt_of_mem hc
  simp only [Tree.node.sizeOf_spec]
  omega

theorem Opens.of_suffix {root : Tree} {x y : Scope} (h : root.Opens y) (hx : x <:+ y) :
    root.Opens x := by
  obtain ⟨s, hs, z, hz, hy⟩ := h
  exact ⟨s, hs, z, hz, hx.trans hy⟩

/-- Scopes of a tree that are told by the same offset are the same. -/
theorem Opens.eq_of_id? {root : Tree} (hroot : root.tokens.Pairwise Token.StartsBefore)
    {x x' : Scope} (h : root.Opens x) (h' : root.Opens x') {i : Nat} (hi : x.id? = some i)
    (hi' : x'.id? = some i) : x = x' := by
  have hnil : ∀ {y : Scope}, y.id? = some i → ¬ y <:+ [] := by
    intro y hy hsuffix
    rw [List.suffix_nil.mp hsuffix] at hy
    cases hy
  exact OpensIn.eq_of_id? hi hi' (hnil hi) (hnil hi') root hroot h h'

end Tree

end NullableMarker
