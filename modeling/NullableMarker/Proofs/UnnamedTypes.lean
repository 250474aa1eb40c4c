import NullableMarker.Proofs.DeclarationOrder

/-!
# Types that are not named

A unit is read over the types known. Which of them there are besides those that its base lists name
makes no difference to what it declares: where two tables differ only in types that have none of
these names, and no other type derives from one of them, every name is found to stand for the same.

* `Strangers` — what one table knows and another does not
* `SymbolTable.SameBut` — tables that are the same but for strangers
* `Strangers.coupling` — resolutions over such tables, side by side
* `Environment.declaredTypes_of_sameBut` — units over such tables
-/

namespace NullableMarker

/-! ## Names -/

/-- The text is a name, or ends in one behind a dot. -/
def EndsIn (text name : String) : Prop := text = name ∨ ∃ outer, text = outer ++ "." ++ name

theorem endsIn_joinName (space name : String) : EndsIn (joinName space name) name := by
  unfold joinName
  split
  · exact .inl rfl
  · exact .inr ⟨space, rfl⟩

/-- The name is written in the text, at its beginning or behind a dot. -/
def IsWritten (name text : String) : Prop :=
  ("." ++ name).toByteArray.data.toList <:+: ("." ++ text).toByteArray.data.toList

instance (name text : String) : Decidable (IsWritten name text) :=
  inferInstanceAs (Decidable (_ <:+: _))

theorem toByteArray_toList_append (s t : String) : (s ++ t).toByteArray.data.toList
    = s.toByteArray.data.toList ++ t.toByteArray.data.toList := by
  rw [String.toByteArray_append, ByteArray.data_append, Array.toList_append]

theorem EndsIn.isWritten {name text : String} {arity : Int}
    (h : EndsIn text (metadataName name arity)) : IsWritten name text := by
  obtain ⟨rest, hrest⟩ : ∃ rest, metadataName name arity = name ++ rest := by
    unfold metadataName
    split
    · exact ⟨"", String.append_empty.symm⟩
    · exact ⟨_, String.append_assoc⟩
  obtain ⟨outer, houter⟩ : ∃ outer, "." ++ text = outer ++ ("." ++ name) ++ rest := by
    rw [hrest] at h
    obtain rfl | ⟨outer, rfl⟩ := h
    · exact ⟨"", by simp only [String.empty_append, String.append_assoc]⟩
    · exact ⟨"." ++ outer, by simp only [String.append_assoc]⟩
  refine ⟨outer.toByteArray.data.toList, rest.toByteArray.data.toList, ?_⟩
  rw [← toByteArray_toList_append, ← toByteArray_toList_append, houter]

/-! ## Strangers -/

/-- What one table knows and another does not: types by their keys, namespaces and keywords. -/
structure Strangers where
  keys : String → Prop
  spaces : String → Prop
  words : Special → Prop

namespace Strangers

/-- The name is that of no stranger, wherever it is looked up. -/
structure Unnamed (X : Strangers) (name : String) : Prop where
  type : ∀ key, X.keys key → ∀ arity, ¬ EndsIn key (metadataName name arity)
  space : ∀ space, X.spaces space → ¬ EndsIn space name
  word : ∀ w, Special.ofWord? name = some w → ¬ X.words w

/-- The type is no stranger, and it derives from none. -/
structure Apart (X : Strangers) (s : TypeSymbol) : Prop where
  key : ¬ X.keys s.key
  base : ∀ key, s.base = some (.key key) → ¬ X.keys key

/-- The strangers without the namespaces that a table knows. -/
def beyond (X : Strangers) (U : SymbolTable) : Strangers :=
  { X with spaces := fun space => X.spaces space ∧ U.hasNamespace space = false }

theorem Unnamed.beyond {X : Strangers} {name : String} (h : X.Unnamed name) (U : SymbolTable) :
    (X.beyond U).Unnamed name where
  type := h.type
  space space hspace := h.space space hspace.1
  word := h.word

/-- What is asked by names that are those of no strangers. -/
def inquiry (X : Strangers) : Inquiry where
  asked := X.Unnamed
  keys key := ¬ X.keys key
  entered := X.Apart
  found := X.Apart
  current := X.Apart
  found_of_current := id
  entered_of_found := id

variable {X : Strangers} {s t : TypeSymbol}

theorem Apart.baseOr (hs : X.Apart s) {base : Option TypeRef}
    (hbase : ∀ key, base = some (.key key) → ¬ X.keys key) (key : String)
    (h : s.baseOr base = some (.key key)) : ¬ X.keys key := by
  unfold TypeSymbol.baseOr at h
  split at h
  · exact hs.base key h
  · exact hbase key h

theorem Apart.merge (hs : X.Apart s) (ht : X.Apart t) : X.Apart (s.merge t) where
  key := by
    rw [s.key_merge]
    exact hs.key
  base := hs.baseOr ht.base

theorem Apart.completed (hs : X.Apart s) {l : BaseList}
    (hl : ∀ r, l.base = some r → ∃ b, X.Apart b ∧ r = .key b.key) : X.Apart (s.completed l) where
  key := hs.key
  base := by
    refine hs.baseOr fun key hkey => ?_
    obtain ⟨b, hb, heq⟩ := hl _ hkey
    cases heq
    exact hb.key

end Strangers

/-! ## Tables that are the same but for strangers -/

namespace SymbolTable

/-- The first table knows what the second does and besides only strangers, from which no other type
derives. -/
structure SameBut (X : Strangers) (T U : SymbolTable) : Prop where
  keyed : T.Keyed
  keyed' : U.Keyed
  get? : ∀ key, ¬ X.keys key → U.get? key = T.get? key
  apart : ∀ key s, ¬ X.keys key → T.get? key = some s → X.Apart s
  special? : ∀ w, ¬ X.words w → U.special? w = T.special? w
  special_apart : ∀ w s, ¬ X.words w → T.special? w = some s → X.Apart s
  hasNamespace : ∀ name, ¬ X.spaces name → U.hasNamespace name = T.hasNamespace name
  spaces : ∀ name, U.hasNamespace name = true → T.hasNamespace name = true

theorem Keyed.complete {T : SymbolTable} (hT : T.Keyed) (key : String) (l : BaseList) :
    (T.complete key l).Keyed := by
  intro k s hs
  by_cases hk : k = key
  · rw [hk, get?_complete_self] at hs
    obtain ⟨t, ht, rfl⟩ := Option.map_eq_some_iff.mp hs
    exact (hT key t ht).trans hk.symm
  · rw [get?_complete_of_ne T hk] at hs
    exact hT k s hs

/-- A namespace that is known was known before, or it is one around a type. -/
theorem exists_of_hasNamespace_addAll {T : SymbolTable} (hT : T.Keyed) {symbols : List TypeSymbol}
    {name : String} (h : (T.addAll symbols).hasNamespace name = true) :
    T.hasNamespace name = true
      ∨ (∃ key t, T.get? key = some t ∧ name ∈ enclosing t.namespaceName)
      ∨ ∃ t ∈ symbols, name ∈ enclosing t.namespaceName := by
  induction symbols generalizing T with
  | nil => exact .inl h
  | cons a symbols ih =>
    -- what stands for the type that is added
    have hmerged : name ∈ enclosing ((T.get? a.key).elim a (·.merge a)).namespaceName →
        (∃ key t, T.get? key = some t ∧ name ∈ enclosing t.namespaceName)
          ∨ ∃ t ∈ a :: symbols, name ∈ enclosing t.namespaceName := by
      intro hname
      cases hfirst : T.get? a.key with
      | none =>
        rw [hfirst] at hname
        exact .inr ⟨a, List.mem_cons_self, hname⟩
      | some first =>
        rw [hfirst] at hname
        exact .inl ⟨a.key, first, hfirst, hname⟩
    obtain hknown | ⟨key, t, ht, hname⟩ | ⟨t, ht, hname⟩ := ih (hT.add a) h
    · rw [hasNamespace_add, Bool.or_eq_true, List.contains_iff_mem] at hknown
      exact hknown.imp_right hmerged
    · by_cases hkey : key = a.key
      · rw [hkey, get?_add_self hT] at ht
        cases ht
        exact .inr (hmerged hname)
      · rw [get?_add_of_ne hT hkey] at ht
        exact .inr (.inl ⟨key, t, ht, hname⟩)
    · exact .inr (.inr ⟨t, List.mem_cons_of_mem a ht, hname⟩)

theorem special?_add (T : SymbolTable) (s : TypeSymbol) (w : Special) :
    (T.add s).1.special? w
      = if ((T.get? s.key).elim s (·.merge s)).special = some w then
          some ((T.get? s.key).elim s (·.merge s))
        else T.special? w := by
  have hspecials : (T.add s).1.specials = ((T.get? s.key).elim s (·.merge s)).special.elim T.specials
      fun special => upsert special ((T.get? s.key).elim s (·.merge s)) T.specials := by
    unfold add
    cases T.get? s.key with
    | none => cases hspecial : s.special <;> simp [hspecial]
    | some first => cases hspecial : (first.merge s).special <;> simp [hspecial]
  rw [special?, hspecials]
  cases hspecial : ((T.get? s.key).elim s (·.merge s)).special with
  | none => rw [if_neg (Option.some_ne_none w).symm, Option.elim_none, special?]
  | some special =>
    rw [Option.elim_some]
    by_cases hw : special = w
    · rw [if_pos (congrArg some hw), hw, lookup_upsert_self]
    · rw [if_neg (by simpa using hw), lookup_upsert_of_ne (Ne.symm hw), special?]

namespace SameBut

variable {X : Strangers} {T U : SymbolTable}

/-- A namespace that both tables know is no stranger. -/
theorem beyond (h : T.SameBut X U) : T.SameBut (X.beyond U) U where
  keyed := h.keyed
  keyed' := h.keyed'
  get? := h.get?
  apart key s hkey hs := ⟨(h.apart key s hkey hs).key, (h.apart key s hkey hs).base⟩
  special? := h.special?
  special_apart w s hw hs := ⟨(h.special_apart w s hw hs).key, (h.special_apart w s hw hs).base⟩
  hasNamespace name hname := by
    cases hknown : U.hasNamespace name with
    | true => exact (h.spaces name hknown).symm
    | false =>
      rw [← hknown]
      exact h.hasNamespace name fun hspace => hname ⟨hspace, hknown⟩
  spaces := h.spaces

/-- A type that is no stranger is added to both tables. -/
theorem add (h : T.SameBut X U) {s : TypeSymbol} (hs : X.Apart s) :
    (T.add s).1.SameBut X (U.add s).1 := by
  have hget := h.get? s.key hs.key
  -- both tables get the same entry
  obtain ⟨entry, hentry, hT, hU⟩ : ∃ entry, X.Apart entry
      ∧ (T.get? s.key).elim s (·.merge s) = entry
      ∧ (U.get? s.key).elim s (·.merge s) = entry := by
    refine ⟨_, ?_, rfl, congrArg (Option.elim · s (·.merge s)) hget⟩
    cases hfirst : T.get? s.key with
    | none => exact hs
    | some first => exact (h.apart s.key first hs.key hfirst).merge hs
  refine ⟨h.keyed.add s, h.keyed'.add s, fun key hkey => ?_, fun key t hkey ht => ?_,
    fun w hw => ?_, fun w t hw ht => ?_, fun name hname => ?_, fun name hname => ?_⟩
  · by_cases heq : key = s.key
    · rw [heq, get?_add_self h.keyed, get?_add_self h.keyed', hT, hU]
    · rw [get?_add_of_ne h.keyed heq, get?_add_of_ne h.keyed' heq, h.get? key hkey]
  · by_cases heq : key = s.key
    · rw [heq, get?_add_self h.keyed, hT] at ht
      cases ht
      exact hentry
    · rw [get?_add_of_ne h.keyed heq] at ht
      exact h.apart key t hkey ht
  · rw [special?_add, special?_add, hT, hU, h.special? w hw]
  · rw [special?_add, hT] at ht
    split at ht
    · cases ht
      exact hentry
    · exact h.special_apart w t hw ht
  · rw [hasNamespace_add, hasNamespace_add, hT, hU, h.hasNamespace name hname]
  · rw [hasNamespace_add, hU, Bool.or_eq_true] at hname
    rw [hasNamespace_add, hT, Bool.or_eq_true]
    exact hname.imp_left (h.spaces name)

theorem addAll (h : T.SameBut X U) {symbols : List TypeSymbol} (hs : ∀ s ∈ symbols, X.Apart s) :
    (T.addAll symbols).SameBut X (U.addAll symbols) := by
  induction symbols generalizing T U with
  | nil => exact h
  | cons s symbols ih =>
    exact ih (h.add (hs s List.mem_cons_self)) fun t ht => hs t (List.mem_cons_of_mem s ht)

/-- A type is completed in both tables, by a base that is no stranger. -/
theorem complete (h : T.SameBut X U) (key : String) {l : BaseList}
    (hl : ∀ r, l.base = some r → ∃ b, X.Apart b ∧ r = .key b.key) :
    (T.complete key l).SameBut X (U.complete key l) := by
  refine ⟨h.keyed.complete key l, h.keyed'.complete key l, fun k hk => ?_, fun k s hk hs => ?_,
    fun w hw => ?_, fun w s hw hs => ?_, fun name hname => ?_, fun name hname => ?_⟩
  · by_cases heq : k = key
    · subst heq
      rw [get?_complete_self, get?_complete_self, h.get? k hk]
    · rw [get?_complete_of_ne _ heq, get?_complete_of_ne _ heq, h.get? k hk]
  · by_cases heq : k = key
    · subst heq
      rw [get?_complete_self] at hs
      obtain ⟨t, ht, rfl⟩ := Option.map_eq_some_iff.mp hs
      exact (h.apart k t hk ht).completed hl
    · rw [get?_complete_of_ne _ heq] at hs
      exact h.apart k s hk hs
  · rw [special?_complete, special?_complete, h.special? w hw]
  · rw [special?_complete] at hs
    exact h.special_apart w s hw hs
  · rw [hasNamespace_complete, hasNamespace_complete, h.hasNamespace name hname]
  · rw [hasNamespace_complete] at hname ⊢
    exact h.spaces name hname

/-! ### What is found -/

theorem ancestry_eq (h : T.SameBut X U) {s : TypeSymbol} (hs : X.Apart s) :
    U.ancestry s = T.ancestry s := by
  have hbases : U.basesFrom [s.key] s.base = T.basesFrom [s.key] s.base := by
    refine basesFrom_congr (P := fun r => ∀ key, r = .key key → ¬ X.keys key) ?_ ?_ ?_
    · exact fun r hr => find_congr fun key heq => h.get? key (hr key heq)
    · rintro r b hr hb r' hr' key rfl
      obtain ⟨k, rfl, hk⟩ := exists_key_of_find hb
      exact (h.apart k b (hr k rfl) hk).base key hr'
    · rintro r hr key rfl
      exact hs.base key hr
  rw [ancestry, ancestry, hbases]

/-- What is asked by names that are those of no strangers is answered alike. -/
theorem answers (h : T.SameBut X U) : X.inquiry.Answers T U where
  get? hkey := ⟨h.get? _ hkey, fun s => h.apart _ s hkey⟩
  lookup {name} hname space arity := by
    have hkey : ¬ X.keys ((if space.isEmpty then "" else space ++ ".")
        ++ metadataName name arity) := by
      refine fun hkey => hname.type _ hkey arity ?_
      split
      · exact .inl (String.empty_append)
      · exact .inr ⟨space, rfl⟩
    exact ⟨h.get? _ hkey, fun s => h.apart _ s hkey⟩
  nested {c name} hc hname arity := by
    have hkey : ∀ b : TypeSymbol, ¬ X.keys (b.key ++ "." ++ metadataName name arity) :=
      fun b hkey => hname.type _ hkey arity (.inr ⟨b.key, rfl⟩)
    constructor
    · unfold nested
      rw [h.ancestry_eq hc]
      exact congrArg (T.ancestry c).findSome? (funext fun b => h.get? _ (hkey b))
    · intro s hs
      obtain ⟨b, hb⟩ := exists_of_nested hs
      exact h.apart _ s (hkey b) hb
  hasNamespace {name} hname space :=
    h.hasNamespace _ fun hspace => hname.space _ hspace (endsIn_joinName space name)
  special? hword w hw :=
    ⟨h.special? w (hword.word w hw), fun s => h.special_apart w s (hword.word w hw)⟩

end SameBut

/-! ### Types that are added -/

theorem sameBut_empty (X : Strangers) : empty.SameBut X empty where
  keyed := keyed_ofList []
  keyed' := keyed_ofList []
  get? _ _ := rfl
  apart _ _ _ hs := by cases hs
  special? _ _ := rfl
  special_apart _ _ _ hs := by cases hs
  hasNamespace _ _ := rfl
  spaces _ h := h

/-- New types are strangers to a table that does not derive from them. -/
theorem sameBut_addAll {U : SymbolTable} (hU : U.Sound) {symbols : List TypeSymbol}
    (hfresh : U.Fresh symbols) (hforeign : U.Foreign (symbols.map (·.key))) :
    (U.addAll symbols).SameBut
      ⟨(· ∈ symbols.map (·.key)), fun space => ∃ s ∈ symbols, space ∈ enclosing s.namespaceName,
        fun _ => False⟩ U where
  keyed := Keyed.addAll hU.keyed symbols
  keyed' := hU.keyed
  get? _ hkey := (get?_addAll_of_not_mem hU.keyed hkey).symm
  apart key s hkey hs := by
    have hs := (get?_addAll_of_not_mem hU.keyed hkey).symm.trans hs
    refine ⟨?_, hforeign.base s (.inl ⟨key, hs⟩)⟩
    show s.key ∉ symbols.map (·.key)
    rwa [hU.keyed key s hs]
  special? w _ := (special?_addAll hU.keyed hfresh w).symm
  special_apart w s _ hs := by
    have hs := (special?_addAll hU.keyed hfresh w).symm.trans hs
    refine ⟨fun hkey => ?_, hforeign.base s (.inr ⟨w, hs⟩)⟩
    have hunknown := hforeign.unknown s.key hkey
    rw [(hU.specials w s hs).2] at hunknown
    cases hunknown
  hasNamespace name hname := by
    rw [hasNamespace_addAll hU.keyed hfresh, eq_comm, Bool.or_eq_left_iff_imp]
    intro hany
    obtain ⟨s, hs, hcontains⟩ := List.any_eq_true.mp hany
    exact absurd ⟨s, hs, List.contains_iff_mem.mp hcontains⟩ hname
  spaces _ hname := hasNamespace_addAll_of_hasNamespace hname symbols

end SymbolTable

/-! ## Resolutions side by side -/

/-- All types that directives bring in are apart from the strangers. -/
structure Bindings.Apart (X : Strangers) (b : Bindings) : Prop where
  aliases : ∀ a s, b.aliases.lookup a = some (.type s) → X.Apart s
  statics : ∀ s ∈ b.statics, X.Apart s

theorem Bindings.apart_empty (X : Strangers) : Bindings.Apart X {} := ⟨by simp, by simp⟩

namespace Strangers

/-- Two resolutions over tables that are the same but for strangers, with the same directives
bound. -/
def coupling (X : Strangers) : Coupling where
  toInquiry := X.inquiry
  states st st' := st.table.SameBut X st'.table ∧ st'.bound = st.bound
    ∧ ∀ i, (st.bindings i).Apart X
  ids := Eq
  answers h := h.1.answers
  bound_eq := by
    rintro st st' i _ ⟨-, hbound, -⟩ rfl
    rw [hbound]
  found_alias := by
    rintro st st' i _ a s ⟨-, -, hst⟩ rfl hs
    exact (hst i).aliases a s hs
  entered_static := by
    rintro st st' i _ s ⟨-, -, hst⟩ rfl hs
    exact (hst i).statics s hs
  states_setBindings := by
    rintro st st' i _ b ⟨htable, hbound, hst⟩ rfl haliases hstatics
    refine ⟨htable, congrArg (upsert i b) hbound, fun j => ?_⟩
    by_cases hj : j = i
    · rw [hj, Resolution.bindings_setBindings_self]
      exact ⟨haliases, hstatics⟩
    · rw [Resolution.bindings, Resolution.setBindings, lookup_upsert_of_ne hj]
      exact hst j
  states_remark _ _ h := h

end Strangers

/-! ## Names in base lists -/

/-- The names in the base list of a declaration, and in the using directives around it. -/
def ScopedNode.baseNames (d : ScopedNode) : List String :=
  match d.inner with
  | none => []
  | some scope => scope.flatMap (·.names) ++ d.node.baseTypes.flatMap (·.written.names)

/-- The names that the base lists among scoped nodes are resolved by. -/
def baseNames (nodes : List ScopedNode) : List String :=
  (typeDeclarations nodes).flatMap (·.baseNames)

namespace Tree

theorem declaredKeys_subset {nodes nodes' : List ScopedNode} (h : nodes ⊆ nodes') :
    declaredKeys nodes ⊆ declaredKeys nodes' := by
  intro key hkey
  obtain ⟨d, hd, hdkey⟩ := List.mem_filterMap.mp hkey
  obtain ⟨hmem, htype⟩ := List.mem_filter.mp hd
  exact List.mem_filterMap.mpr ⟨d, List.mem_filter.mpr ⟨h hmem, htype⟩, hdkey⟩

/-- The frame that a type declaration opens has its key. -/
theorem declaredKey_of_mem_enter {scope : Scope} {kind : NodeKind} {cs : List Tree} {key : String}
    {ps : List String} (h : .type key ps ∈ scope.enter (.node kind cs)) {nodes : List ScopedNode}
    (hnode : ⟨.node kind cs, some scope⟩ ∈ nodes) :
    .type key ps ∈ scope ∨ key ∈ declaredKeys nodes := by
  refine (Scope.mem_enter_type h).imp_right ?_
  rintro ⟨typeKind, hkind, rfl⟩
  have hdeclaration : kind.isTypeDeclaration = true := by
    rw [← kind.isSome_typeKind?, hkind]
    rfl
  refine List.mem_filterMap.mpr ⟨_, List.mem_filter.mpr ⟨hnode, hdeclaration⟩, ?_⟩
  unfold ScopedNode.declaredKey? ScopedNode.declaredSymbol?
  rw [show (Tree.node kind cs).kind? = some kind from rfl]
  simp only [Option.bind_eq_bind, Option.bind_some, hkind, Option.pure_def, Option.map_some]

/-- The types around a node are declared in the tree, or around it. -/
theorem declaredKey_of_frame {key : String} {ps : List String} {s : ScopedNode} {inside : Scope}
    (hinside : s.outer = some inside ∨ s.inner = some inside) (hframe : .type key ps ∈ inside)
    {scope : Scope} :
    (t : Tree) → s ∈ t.scoped scope →
      .type key ps ∈ scope ∨ key ∈ declaredKeys (t.scoped scope)
  | .token _, hs => by
    rw [Tree.scoped] at hs
    cases hs
  | .node kind cs, hs => by
    have hscoped : (node kind cs).scoped scope = ⟨.node kind cs, some scope⟩
        :: scopedFromAll (childScopes (some scope) kind cs) cs :=
      scopedFrom_node (some scope) kind cs
    have hnode : ⟨.node kind cs, some scope⟩ ∈ (node kind cs).scoped scope := by
      rw [hscoped]
      exact List.mem_cons_self
    rw [hscoped] at hs
    rcases List.mem_cons.mp hs with rfl | hs
    · rcases hinside with hinside | hinside
      · cases hinside
        exact .inl hframe
      · cases hinside
        exact declaredKey_of_mem_enter hframe hnode
    · obtain ⟨outer, houter, c, hc, hs, hsub⟩ := mem_scopedFromAll hs
      rcases mem_childScopes houter with rfl | rfl
      · -- names are looked up neither here nor further inside
        have hnone := outer_of_mem_scopedFrom_none hs
        rw [ScopedNode.inner, hnone] at hinside
        rcases hinside with hinside | hinside <;> cases hinside
      · rcases declaredKey_of_frame hinside hframe c hs with henter | hkey
        · exact declaredKey_of_mem_enter henter hnode
        · refine .inr (declaredKeys_subset (fun d hd => ?_) hkey)
          rw [hscoped]
          exact List.mem_cons_of_mem _ (hsub hd)
termination_by t => sizeOf t
decreasing_by
  have := List.sizeOf_lt_of_mem hc
  simp only [Tree.node.sizeOf_spec]
  omega

end Tree

/-! ## Units -/

namespace Strangers

variable {X : Strangers} {root : Tree} {d : ScopedNode}

/-- The base list of a declaration is resolved alike. -/
theorem alike_resolveBaseList (hkeys : ∀ key ∈ declaredKeys (root.scoped []), ¬ X.keys key)
    (hd : d ∈ root.scoped []) (hnames : ∀ n ∈ d.baseNames, X.Unnamed n) :
    Alike X.coupling.states X.coupling.FindsBase (resolveBaseList d) (resolveBaseList d) := by
  cases hinner : d.inner with
  | none =>
    unfold resolveBaseList
    rw [hinner]
    exact Alike.pure ⟨rfl, fun r hr => by cases hr⟩
  | some scope =>
    unfold ScopedNode.baseNames at hnames
    rw [hinner] at hnames
    refine Coupling.alike_resolveBaseList_self (fun _ => rfl) (fun scope' hscope' f hf => ⟨?_, ?_⟩)
      fun base hbase n hn => ?_
    · obtain rfl : scope = scope' := Option.some.inj (hinner.symm.trans hscope')
      exact fun n hn => hnames n (List.mem_append_left _ (List.mem_flatMap.mpr ⟨f, hf, hn⟩))
    · rintro key ps rfl
      obtain hnil | hkey := Tree.declaredKey_of_frame (.inr hscope') hf root hd
      · cases hnil
      · exact hkeys key hkey
    · exact hnames n (List.mem_append_right _ (List.mem_flatMap.mpr ⟨base, hbase, hn⟩))

/-- A declaration is completed alike. -/
theorem alike_completeDeclaration (hkeys : ∀ key ∈ declaredKeys (root.scoped []), ¬ X.keys key)
    (hd : d ∈ root.scoped []) (hnames : ∀ n ∈ d.baseNames, X.Unnamed n) :
    Alike X.coupling.states (fun _ _ => True) (completeDeclaration d) (completeDeclaration d) := by
  unfold completeDeclaration
  split
  · exact Alike.pure trivial
  · cases d.declaredKey? with
    | none => exact Alike.pure trivial
    | some key =>
      refine (alike_resolveBaseList hkeys hd hnames).bind ?_
      rintro l _ ⟨rfl, hl⟩
      exact Alike.modify fun st st' hst => ⟨hst.1.complete key hl, hst.2.1, hst.2.2⟩

end Strangers

theorem base_of_mem_declaredSymbols {origin : String} {nodes : List ScopedNode} {s : TypeSymbol}
    (h : s ∈ declaredSymbols origin nodes) : s.base = none := by
  obtain ⟨d, -, hd⟩ := List.mem_filterMap.mp h
  have hkey : d.declaredKey? = some s.key := by
    rw [← d.key_declaredSymbol? origin, hd]
    rfl
  obtain ⟨s', hs', -, hbase⟩ := exists_declaredSymbol hkey origin
  rwa [← Option.some.inj (hs'.symm.trans hd)]

/-- Over tables that differ only in strangers, a unit whose base lists name no stranger declares the
same types, and these derive from no stranger. A namespace of a type of the unit is none. -/
theorem Environment.declaredTypes_of_sameBut {X : Strangers} {T U : SymbolTable} {origin : String}
    {root : Tree} {env : Environment} (h : T.SameBut X U)
    (hkeys : ∀ key ∈ declaredKeys (root.scoped []), ¬ X.keys key)
    (hnames : ∀ n ∈ baseNames (root.scoped []),
      (X.beyond (U.addAll (declaredSymbols origin (root.scoped [])))).Unnamed n)
    (henv : ofTree T origin root = .ok env) :
    ∃ env', ofTree U origin root = .ok env' ∧ env'.declaredTypes = env.declaredTypes
      ∧ ∀ t ∈ env.declaredTypes, X.Apart t := by
  obtain ⟨-, hnodes, hrun⟩ := run_of_ofTree henv
  generalize hX : X.beyond _ = Y at hnames
  have halike : Alike Y.coupling.states (fun _ _ => True)
      ((typeDeclarations (root.scoped [])).forM completeDeclaration)
      ((typeDeclarations (root.scoped [])).forM completeDeclaration) := by
    refine Alike.forM (P := fun d d' => d' = d ∧ d ∈ typeDeclarations (root.scoped []))
      (List.forall₂_same.mpr fun d hd => ⟨rfl, hd⟩) ?_
    rintro _ d ⟨rfl, hd⟩
    refine Strangers.alike_completeDeclaration ?_ (List.mem_of_mem_filter hd)
      fun n hn => hnames n (List.mem_flatMap.mpr ⟨d, hd, hn⟩)
    rwa [← hX]
  have hstart : Y.coupling.states { table := T.addAll (declaredSymbols origin (root.scoped [])) }
      { table := U.addAll (declaredSymbols origin (root.scoped [])) } := by
    refine ⟨?_, rfl, fun _ => Bindings.apart_empty Y⟩
    rw [← hX]
    refine (h.addAll fun s hs => ⟨hkeys s.key ?_, fun key hkey => ?_⟩).beyond
    · rw [← map_key_declaredSymbols origin]
      exact List.mem_map_of_mem hs
    · rw [base_of_mem_declaredSymbols hs] at hkey
      cases hkey
  obtain ⟨_, resolution, hrun', -, hend, -⟩ := halike.ok hstart hrun
  have hdeclared : ∀ key ∈ (declaredKeys (root.scoped [])).eraseDups, ¬ Y.keys key := by
    intro key hkey
    rw [← hX]
    exact hkeys key (List.mem_eraseDups.mp hkey)
  refine ⟨⟨root, root.scoped [], resolution⟩, ?_, ?_, fun t ht => ?_⟩
  · unfold ofTree
    show ((typeDeclarations (root.scoped [])).forM completeDeclaration).run
      { table := U.addAll (declaredSymbols origin _) } >>= _ = _
    rw [hrun']
    rfl
  · rw [declaredTypes, declaredTypes, hnodes]
    exact List.filterMap_congr fun key hkey => hend.get? key (hdeclared key hkey)
  · rw [declaredTypes, hnodes] at ht
    obtain ⟨key, hkey, ht⟩ := List.mem_filterMap.mp ht
    have hapart := hend.apart key t (hdeclared key hkey) ht
    rw [← hX] at hapart
    exact ⟨hapart.key, hapart.base⟩

/-! ## The default references -/

namespace Defaults

theorem sound : table.Sound := SymbolTable.sound_ofList symbols

theorem get?_eq_none {key : String} (h : key ∉ symbols.map (·.key)) : table.get? key = none :=
  SymbolTable.get?_addAll_of_not_mem (SymbolTable.keyed_ofList []) h

/-- The default types derive from default types only. -/
theorem foreign {keys : List String} (h : ∀ key ∈ keys, table.get? key = none) :
    table.Foreign keys where
  unknown := h
  base s hs key hbase hkey := by
    let X : Strangers := ⟨(· ∉ symbols.map (·.key)), fun _ => False, fun _ => False⟩
    have hbases : symbols.all (fun s => s.base.all fun r =>
        r.key?.toOption.join.all (symbols.map (·.key)).contains) = true := by decide +kernel
    have hself : table.SameBut X table := by
      refine (SymbolTable.sameBut_empty X).addAll fun t ht => ⟨?_, fun k hk => ?_⟩
      · exact not_not.mpr (List.mem_map_of_mem ht)
      · have hall := List.all_eq_true.mp hbases t ht
        rw [hk] at hall
        exact not_not.mpr (List.contains_iff_mem.mp hall)
    have hapart : X.Apart s := by
      rcases hs with ⟨k, hs⟩ | ⟨word, hs⟩
      · refine hself.apart k s (fun hk => ?_) hs
        rw [get?_eq_none hk] at hs
        cases hs
      · exact hself.special_apart word s id hs
    obtain ⟨t, ht, heq⟩ := List.mem_map.mp (not_not.mp (hapart.base key hbase))
    have hknown : (table.get? key).isSome = true :=
      SymbolTable.isSome_get?_addAll (.inr ⟨t, ht, heq.symm⟩)
    rw [h key hkey] at hknown
    cases hknown

/-- All that the default table knows. -/
def strangers : Strangers where
  keys key := key ∈ symbols.map (·.key)
  spaces space := space ≠ "" ∧ table.hasNamespace space = true
  words _ := True

/-- The default types are strangers to the empty table. -/
theorem sameBut_empty : table.SameBut strangers .empty where
  keyed := sound.keyed
  keyed' := SymbolTable.keyed_ofList []
  get? _ hkey := (get?_eq_none hkey).symm
  apart key s hkey hs := by
    rw [get?_eq_none hkey] at hs
    cases hs
  special? _ hw := absurd trivial hw
  special_apart _ _ hw := absurd trivial hw
  hasNamespace name hname := by
    by_cases hempty : name = ""
    · subst hempty
      exact (SymbolTable.hasNamespace_addAll_of_hasNamespace (T := .empty) rfl symbols).symm
    · rw [Bool.eq_false_iff.mpr fun h => hname ⟨hempty, h⟩]
      simpa [SymbolTable.hasNamespace, SymbolTable.empty] using hempty
  spaces _ hname := SymbolTable.hasNamespace_addAll_of_hasNamespace hname symbols

/-- A name that is written in no key and no namespace of the default types is no stranger's. -/
theorem unnamed {name : String} (hword : Special.ofWord? name = none)
    (hkeys : ∀ key ∈ symbols.map (·.key), ¬ IsWritten name key)
    (hspaces : ∀ space ∈ (symbols.map (·.namespaceName)).eraseDups.flatMap SymbolTable.enclosing,
      ¬ IsWritten name space) :
    strangers.Unnamed name where
  type key hkey _ hends := hkeys key hkey hends.isWritten
  space space := by
    rintro ⟨hne, hspace⟩ hends
    obtain hempty | ⟨key, t, ht, -⟩ | ⟨t, ht, hname⟩ :=
      SymbolTable.exists_of_hasNamespace_addAll (SymbolTable.keyed_ofList []) hspace
    · exact hne (List.mem_singleton.mp (List.contains_iff_mem.mp hempty))
    · cases ht
    · refine hspaces space (List.mem_flatMap.mpr ⟨t.namespaceName, ?_, hname⟩)
        (EndsIn.isWritten (show EndsIn space (metadataName name 0) from hends))
      exact List.mem_eraseDups.mpr (List.mem_map_of_mem ht)
  word w hw := by
    rw [hword] at hw
    cases hw

end Defaults

end NullableMarker
