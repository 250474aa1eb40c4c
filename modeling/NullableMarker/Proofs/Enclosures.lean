import NullableMarker.Proofs.DottedNames
import NullableMarker.Proofs.OpenFailures

/-!
# What declarations are enclosed by

A scope keeps the names of the namespaces around a node and the key of the type around it, put
together on the way down. The same is told by the tree alone: which parts the names of the
namespaces have, and which types with which arities stand around. Types nest only in namespaces and
in types, so a namespace or a method starts without types around.

* `Enclosure`, `Tree.enclosures` — the declarations around each node
* `Located` — a scope says what the enclosure says, and the types around are known by it
* `Tree.located_scoped` — so for all nodes of a tree
-/

namespace NullableMarker

/-! ## Enclosures -/

/-- The segments of the name of a namespace. -/
def Tree.spaceParts (t : Tree) : List String :=
  (t.nameNode?.map fun n => n.segments.map (·.name)).getD []

/-- The declarations around a node: the parts of the names of the namespaces, and the types with
their arities, the outermost first. -/
structure Enclosure where
  spaces : List String := []
  types : List (String × Nat) := []

/-- The names of types with their arities, as they are written in keys. -/
def metadataNames (types : List (String × Nat)) : List String :=
  types.map fun type => metadataName type.1 type.2

@[simp] theorem metadataNames_nil : metadataNames [] = [] := rfl

@[simp] theorem metadataNames_cons (type : String × Nat) (types : List (String × Nat)) :
    metadataNames (type :: types) = metadataName type.1 type.2 :: metadataNames types := rfl

namespace Enclosure

/-- The segments of the full name. -/
def segments (c : Enclosure) : List (String × Nat) := c.spaces.map (·, 0) ++ c.types

/-- The parts of the full name, as they are written in keys. -/
def parts (c : Enclosure) : List String := c.spaces ++ metadataNames c.types

/-- What the children of a node stand in. -/
def enter (c : Enclosure) (t : Tree) : Enclosure :=
  match t.kind? with
  | none => c
  | some kind =>
    if kind.isTypeDeclaration then
      { c with types := c.types ++ [(t.name, t.typeParameters.length)] }
    else if kind == .compilationUnit || kind == .fragment then {}
    else if kind.isNamespace then { spaces := c.spaces ++ t.spaceParts }
    else if kind == .method then { c with types := [] }
    else c

end Enclosure

namespace Tree

mutual

/-- The enclosures of the nodes of a tree, in the order of `Tree.nodes`. -/
def enclosures (c : Enclosure) : Tree → List Enclosure
  | token _ => []
  | node kind children => c :: enclosuresAll (c.enter (node kind children)) children

/-- The enclosures of the nodes of a list of trees. -/
def enclosuresAll (c : Enclosure) : List Tree → List Enclosure
  | [] => []
  | t :: ts => t.enclosures c ++ enclosuresAll c ts

end

mutual

theorem length_enclosures (c : Enclosure) :
    (t : Tree) → (t.enclosures c).length = t.nodes.length
  | token _ => by simp [enclosures]
  | node kind children => by
    simp [enclosures, length_enclosuresAll (c.enter (node kind children)) children]

theorem length_enclosuresAll (c : Enclosure) :
    (ts : List Tree) → (enclosuresAll c ts).length = (nodesAll ts).length
  | [] => by simp [enclosuresAll]
  | t :: ts => by
    simp [enclosuresAll, length_enclosures c t, length_enclosuresAll c ts]

end

/-! ## Names in trees -/

/-- The nodes of the tree have their parts, and its identifiers can be parts of names. -/
structure Spelled (t : Tree) : Prop where
  whole : t.Whole
  identifiers : ∀ id ∈ t.tokens, id.kind = .identifier → id.value ≠ "" ∧ Undotted id.value

theorem mem_nodesAll_of_mem {c n : Tree} {cs : List Tree} (hc : c ∈ cs) (hn : n ∈ c.nodes) :
    n ∈ nodesAll cs := by
  induction cs with
  | nil => cases hc
  | cons d cs ih =>
    rw [nodesAll_cons]
    rcases List.mem_cons.mp hc with rfl | hc
    · exact List.mem_append_left _ hn
    · exact List.mem_append_right _ (ih hc)

theorem Spelled.child {k : NodeKind} {cs : List Tree} (h : (node k cs).Spelled) {c : Tree}
    (hc : c ∈ cs) : c.Spelled where
  whole n hn := by
    refine h.whole n ?_
    rw [nodes_node]
    exact List.mem_cons_of_mem _ (mem_nodesAll_of_mem hc hn)
  identifiers id hid := h.identifiers id (by rw [tokens_node]; exact Weaving.mem_tokensAll hc hid)

theorem mem_tokens_of_mem_childTokens {t : Tree} {id : Token} (h : id ∈ t.childTokens) :
    id ∈ t.tokens := by
  cases t with
  | token s => cases h
  | node k cs =>
    obtain ⟨c, hc, hid⟩ := List.mem_filterMap.mp h
    cases c with
    | node => cases hid
    | token s =>
      cases hid
      rw [tokens_node]
      exact Weaving.mem_tokensAll hc (by simp)

theorem Spelled.undotted_name {t : Tree} (h : t.Spelled) : Undotted t.name := by
  unfold name
  cases hid : t.nameToken? with
  | none => exact List.not_mem_nil
  | some id =>
    have hmem := List.mem_reverse.mp (List.mem_of_find?_eq_some hid)
    have hkind := List.find?_some hid
    exact (h.identifiers id (mem_tokens_of_mem_childTokens hmem) (by simpa using hkind)).2

theorem exists_identifier_of_mem_segmentsOf {cs : List Tree} {s : Segment} (h : s ∈ segmentsOf cs) :
    ∃ id, token id ∈ cs ∧ id.kind = .identifier ∧ s.name = id.value := by
  fun_induction segmentsOf cs with
  | case1 => cases h
  | case2 id rest hid ih =>
    rcases List.mem_cons.mp h with rfl | h
    · exact ⟨id, List.mem_cons_self, by simpa using hid, rfl⟩
    · obtain ⟨id', hid', heq⟩ := ih h
      exact ⟨id', List.mem_cons_of_mem _ hid', heq⟩
  | case3 id rest hid ih =>
    obtain ⟨id', hid', heq⟩ := ih h
    exact ⟨id', List.mem_cons_of_mem _ hid', heq⟩
  | case4 k cs rest ih =>
    obtain ⟨id', hid', heq⟩ := ih h
    exact ⟨id', List.mem_cons_of_mem _ hid', heq⟩

theorem exists_identifier_of_mem_segments {t : Tree} {s : Segment} (h : s ∈ t.segments) :
    ∃ id ∈ t.tokens, id.kind = .identifier ∧ s.name = id.value := by
  obtain ⟨id, hid, hform⟩ := exists_identifier_of_mem_segmentsOf h
  refine ⟨id, mem_tokens_of_mem_childTokens ?_, hform⟩
  refine List.mem_filterMap.mpr ⟨token id, ?_, rfl⟩
  split at hid
  · exact List.mem_of_mem_drop hid
  · exact hid

/-- The name of a namespace has parts, all of which can be part of a name. -/
theorem Spelled.spaceParts {k : NodeKind} {cs : List Tree} (h : (node k cs).Spelled)
    (hk : k.isNamespace = true) :
    (node k cs).spaceParts ≠ []
      ∧ ∀ part ∈ (node k cs).spaceParts, part ≠ "" ∧ Undotted part := by
  have hparts := h.whole (node k cs) (by simp)
  have hname : (node k cs).nameNode?.isSome = true := by
    cases k with
    | namespaceBlock | fileScopedNamespace => exact hparts
    | _ => cases hk
  obtain ⟨n, hn⟩ := Option.isSome_iff_exists.mp hname
  have hmem : n ∈ cs := List.mem_of_find?_eq_some hn
  have hkind : n.isNode (· == .name) = true := List.find?_some hn
  have hspelled := h.child hmem
  unfold Tree.spaceParts
  rw [hn]
  constructor
  · cases n with
    | token => cases hkind
    | node k' ds =>
      have hsegments : (node k' ds).NameParts := by
        have hparts := hspelled.whole (node k' ds) (by simp)
        rw [eq_of_beq hkind] at hparts ⊢
        exact hparts
      simpa using hsegments.segment
  · intro part hpart
    obtain ⟨s, hs, rfl⟩ := List.mem_map.mp hpart
    obtain ⟨id, hid, hidentifier, heq⟩ := exists_identifier_of_mem_segments hs
    rw [heq]
    exact hspelled.identifiers id hid hidentifier

end Tree

/-! ## Scopes and their enclosures -/

theorem Scope.namespaceName_enterNamespace (scope : Scope) (usings : List Tree)
    (names : List String) :
    (scope.enterNamespace usings names).namespaceName
      = names.foldl joinName scope.namespaceName := by
  fun_induction Scope.enterNamespace scope usings names with
  | case1 => rfl
  | case2 => rfl
  | case3 scope name names _ ih => exact ih

theorem Scope.container?_enterNamespace {scope : Scope} {usings : List Tree} {names : List String}
    (h : names ≠ []) : (scope.enterNamespace usings names).container? = none := by
  fun_induction Scope.enterNamespace scope usings names with
  | case1 => exact absurd rfl h
  | case2 => rfl
  | case3 scope name names hne ih => exact ih (fun heq => hne (by simp [heq]))

/-- The scope has the names of the enclosure, and the types around are known by theirs. No type has
an empty key, or the name of the namespace around. -/
structure Located (T : SymbolTable) (scope : Scope) (c : Enclosure) : Prop where
  space : scope.namespaceName = dottedName c.spaces
  container : scope.container? = if c.types = [] then none else some (dottedName c.parts)
  empty : T.get? "" = none
  free : T.get? (dottedName c.spaces) = none
  spaces : ∀ part ∈ c.spaces, part ≠ "" ∧ Undotted part
  types : ∀ type ∈ c.types, Undotted type.1
  known : ∀ types, types <+: c.types → types ≠ [] →
    (T.get? (dottedName { c with types }.parts)).isSome = true

/-- What a node declares has its place in the table: a type is known, and no type has the name of a
namespace. -/
structure Registered (T : SymbolTable) (s : ScopedNode) : Prop where
  key : ∀ key, s.declaredKey? = some key → (T.get? key).isSome = true
  space : s.isKind NodeKind.isNamespace = true → ∀ scope, s.inner = some scope →
    T.get? scope.namespaceName = none

namespace Enclosure

variable (c : Enclosure)

theorem enter_type {t : Tree} (h : t.isNode NodeKind.isTypeDeclaration = true) :
    c.enter t = { c with types := c.types ++ [(t.name, t.typeParameters.length)] } := by
  cases t with
  | token => cases h
  | node k cs =>
    have hk : k.isTypeDeclaration = true := h
    simp [enter, Tree.kind?, hk]

theorem parts_concat (name : String) (arity : Nat) :
    { c with types := c.types ++ [(name, arity)] }.parts
      = c.parts ++ [metadataName name arity] := by
  simp [parts, metadataNames]

end Enclosure

namespace Located

variable {T : SymbolTable} {scope : Scope} {c : Enclosure}

/-- Outside all frames. -/
theorem start (hempty : T.get? "" = none) {scope : Scope} (hspace : scope.namespaceName = "")
    (hcontainer : scope.container? = none) : Located T scope {} where
  space := hspace
  container := hcontainer
  empty := hempty
  free := hempty
  spaces := nofun
  types := nofun
  known _ hpre hne := absurd (List.prefix_nil.mp hpre) hne

/-- The parts can be told from the key. -/
theorem parts (h : Located T scope c) : Parts c.parts := by
  constructor
  · intro hhead
    cases hspaces : c.spaces with
    | cons part spaces =>
      rw [Enclosure.parts, hspaces] at hhead
      exact (h.spaces part (by simp [hspaces])).1 (Option.some.inj hhead)
    | nil =>
      cases htypes : c.types with
      | nil =>
        rw [Enclosure.parts, hspaces, htypes] at hhead
        cases hhead
      | cons type types =>
        -- the outermost type would be known by the empty key
        have hknown := h.known [type] (by simp [htypes]) (List.cons_ne_nil _ _)
        rw [Enclosure.parts, hspaces, htypes] at hhead
        rw [Enclosure.parts, hspaces] at hknown
        have hkey : dottedName ([] ++ metadataNames [type]) = "" :=
          Option.some.inj hhead
        rw [hkey, h.empty] at hknown
        cases hknown
  · intro part hpart
    rcases List.mem_append.mp hpart with hpart | hpart
    · exact (h.spaces part hpart).2
    · obtain ⟨type, htype, rfl⟩ := List.mem_map.mp hpart
      exact undotted_metadataName (h.types type htype) type.2

theorem key_ne_empty (h : Located T scope c) (hne : c.types ≠ []) :
    dottedName c.parts ≠ "" := by
  intro heq
  have hknown := h.known c.types (List.prefix_refl _) hne
  rw [heq, h.empty] at hknown
  cases hknown

/-- A type that is declared in a scope is known by its full name. -/
theorem key_declaredSymbol (h : Located T scope c) (origin : String)
    (kind : TypeKind) (t : Tree) :
    (declaredSymbol origin scope kind t).key
      = dottedName (c.parts ++ [metadataName t.name t.typeParameters.length]) := by
  rw [dottedName_concat]
  unfold declaredSymbol TypeSymbol.key
  dsimp only
  rw [h.container, h.space]
  by_cases htypes : c.types = []
  · rw [if_pos htypes, Enclosure.parts, htypes, metadataNames_nil, List.append_nil]
    rfl
  · rw [if_neg htypes, joinName_of_ne (h.key_ne_empty htypes)]
    rw [if_pos]
    · rfl
    · simpa using h.key_ne_empty htypes

/-- Inside a type. -/
theorem enter_type (h : Located T scope c) {name : String} {arity : Nat}
    (hname : Undotted name) {key : String} {ps : List String}
    (hkey : key = dottedName (c.parts ++ [metadataName name arity]))
    (hknown : (T.get? key).isSome = true) :
    Located T (.type key ps :: scope) { c with types := c.types ++ [(name, arity)] } where
  space := h.space
  container := by
    rw [if_neg (by simp), Enclosure.parts_concat, ← hkey]
    rfl
  empty := h.empty
  free := h.free
  spaces := h.spaces
  types := by
    intro type htype
    rcases List.mem_append.mp htype with htype | htype
    · exact h.types type htype
    · rw [List.mem_singleton.mp htype]
      exact hname
  known := by
    intro types hpre hne
    rcases List.prefix_concat_iff.mp hpre with rfl | hpre
    · show (T.get? (dottedName { c with types := c.types ++ [(name, arity)] }.parts)).isSome = true
      rw [Enclosure.parts_concat, ← hkey]
      exact hknown
    · exact h.known types hpre hne

/-- Inside a namespace. -/
theorem enter_namespace (h : Located T scope c) {usings : List Tree} {names : List String}
    (hne : names ≠ []) (hnames : ∀ part ∈ names, part ≠ "" ∧ Undotted part)
    (hfree : T.get? (scope.enterNamespace usings names).namespaceName = none) :
    Located T (scope.enterNamespace usings names) { spaces := c.spaces ++ names } := by
  have hspace : (scope.enterNamespace usings names).namespaceName
      = dottedName (c.spaces ++ names) := by
    rw [Scope.namespaceName_enterNamespace, h.space, dottedName, dottedName, List.foldl_append]
  exact {
    space := hspace
    container := Scope.container?_enterNamespace hne
    empty := h.empty
    free := hspace ▸ hfree
    spaces := by
      intro part hpart
      rcases List.mem_append.mp hpart with hpart | hpart
      · exact h.spaces part hpart
      · exact hnames part hpart
    types := nofun
    known := fun types hpre hne => absurd (List.prefix_nil.mp hpre) hne }

/-- Inside a method. -/
theorem enter_method (h : Located T scope c) (ps : List String) :
    Located T (.method ps :: scope) { c with types := [] } where
  space := h.space
  container := rfl
  empty := h.empty
  free := h.free
  spaces := h.spaces
  types := nofun
  known _ hpre hne := absurd (List.prefix_nil.mp hpre) hne

/-- Inside any node. -/
theorem enter (h : Located T scope c) {t : Tree} (ht : t.Spelled)
    (hs : Registered T ⟨t, some scope⟩) : Located T (scope.enter t) (c.enter t) := by
  cases t with
  | token => exact h
  | node k cs =>
    by_cases htype : k.isTypeDeclaration = true
    · obtain ⟨typeKind, hkind⟩ := Option.isSome_iff_exists.mp (k.isSome_typeKind?.trans htype)
      have hkey := h.key_declaredSymbol "" typeKind (.node k cs)
      have hknown : (T.get? (declaredSymbol "" scope typeKind (.node k cs)).key).isSome = true :=
        hs.key _ (by simp [ScopedNode.declaredKey?, ScopedNode.declaredSymbol?, Tree.kind?, hkind])
      rw [Scope.enter_type hkind, c.enter_type (show (Tree.node k cs).isNode _ = true from htype)]
      exact h.enter_type ht.undotted_name hkey hknown
    · have hkind : k.typeKind? = none := by
        rw [← Option.not_isSome_iff_eq_none, k.isSome_typeKind?]
        exact htype
      unfold Scope.enter Enclosure.enter
      simp only [Tree.kind?, hkind, htype, Bool.false_eq_true, if_false]
      split
      · exact .start h.empty rfl rfl
      · split
        · next hunit hspace =>
          obtain ⟨hne, hnames⟩ := ht.spaceParts hspace
          refine h.enter_namespace hne hnames (hs.space hspace _ ?_)
          simp only [ScopedNode.inner, Option.map_some, Scope.enter, Tree.kind?, hkind, hunit,
            hspace]
          rfl
        · split
          · exact h.enter_method _
          · exact h

end Located

/-- The scope that a node stands in has the names of the enclosure, and so has the scope inside the
node. -/
def ScopedNode.IsLocated (T : SymbolTable) (s : ScopedNode) (c : Enclosure) : Prop :=
  ∀ scope, s.outer = some scope →
    Located T scope c ∧ Located T (scope.enter s.node) (c.enter s.node)

namespace Tree

variable {T : SymbolTable}

/-- Of nodes without a scope nothing is asked. -/
theorem located_unscoped {ts : List Tree} {cs : List Enclosure} (h : cs.length = ts.length) :
    List.Forall₂ (ScopedNode.IsLocated T) (ts.map fun t => ⟨t, none⟩) cs := by
  induction ts generalizing cs with
  | nil => rw [List.length_eq_zero_iff.mp h]; exact .nil
  | cons t ts ih =>
    cases cs with
    | nil => cases h
    | cons c cs => exact .cons nofun (ih (Nat.succ.inj h))

mutual

/-- The nodes of a tree stand in their enclosures. -/
theorem located_scoped {scope : Scope} {c : Enclosure}
    (h : Located T scope c) : (t : Tree) → t.Spelled → (∀ s ∈ t.scoped scope, Registered T s) →
    List.Forall₂ (ScopedNode.IsLocated T) (t.scoped scope) (t.enclosures c)
  | token _, _, _ => by
    rw [Tree.scoped, enclosures]
    exact .nil
  | node kind children, ht, hs => by
    rw [Tree.scoped] at hs ⊢
    rw [enclosures]
    have hself := hs _ List.mem_cons_self
    have hinner := h.enter ht hself
    have hrest := fun s hmem => hs s (List.mem_cons_of_mem _ hmem)
    have hchildren := fun t hmem => ht.child (c := t) hmem
    refine .cons (fun _ hscope => Option.some.inj hscope ▸ ⟨h, hinner⟩) ?_
    by_cases hunscoped : (kind.isOpaque || kind == .usingDirective) = true
    · rw [if_pos hunscoped]
      exact located_unscoped (length_enclosuresAll _ children)
    · rw [if_neg hunscoped] at hrest ⊢
      by_cases hspace : kind.isNamespace = true
      · rw [if_pos hspace] at hrest ⊢
        exact located_scopedMembers hinner children hchildren hrest
      · rw [if_neg hspace] at hrest ⊢
        exact located_scopedAll hinner children hchildren hrest

theorem located_scopedAll {scope : Scope} {c : Enclosure}
    (h : Located T scope c) : (ts : List Tree) → (∀ t ∈ ts, t.Spelled) →
    (∀ s ∈ scopedAll scope ts, Registered T s) →
    List.Forall₂ (ScopedNode.IsLocated T) (scopedAll scope ts) (enclosuresAll c ts)
  | [], _, _ => by
    rw [scopedAll, enclosuresAll]
    exact .nil
  | t :: ts, ht, hs => by
    rw [scopedAll] at hs ⊢
    rw [enclosuresAll]
    obtain ⟨hfirst, hrest⟩ := List.forall_mem_append.mp hs
    exact List.rel_append (located_scoped h t (ht t List.mem_cons_self) hfirst)
      (located_scopedAll h ts (fun t' ht' => ht t' (List.mem_cons_of_mem t ht')) hrest)

theorem located_scopedMembers {scope : Scope} {c : Enclosure}
    (h : Located T scope c) : (ts : List Tree) → (∀ t ∈ ts, t.Spelled) →
    (∀ s ∈ scopedMembers scope ts, Registered T s) →
    List.Forall₂ (ScopedNode.IsLocated T) (scopedMembers scope ts) (enclosuresAll c ts)
  | [], _, _ => by
    rw [scopedMembers, enclosuresAll]
    exact .nil
  | t :: ts, ht, hs => by
    rw [scopedMembers] at hs ⊢
    rw [enclosuresAll]
    have htail := fun t' ht' => ht t' (List.mem_cons_of_mem t ht')
    by_cases hname : t.isNode (· == .name) = true
    · rw [if_pos hname] at hs ⊢
      obtain ⟨-, hrest⟩ := List.forall_mem_append.mp hs
      exact List.rel_append (located_unscoped (length_enclosures c t))
        (located_scopedAll h ts htail hrest)
    · rw [if_neg hname] at hs ⊢
      obtain ⟨hfirst, hrest⟩ := List.forall_mem_append.mp hs
      exact List.rel_append (located_scoped h t (ht t List.mem_cons_self) hfirst)
        (located_scopedMembers h ts htail hrest)

end

end Tree

end NullableMarker
