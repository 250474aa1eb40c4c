import NullableMarker.Proofs.PartialTables

/-!
# The order of declarations

Two units that differ only in the order of their top-level declarations declare the same types. What
these derive from may differ: a base list is resolved before those that follow it, and a name in it
may be one that a base class, not filled in yet, would bring in. If no type of the unit inherits a
nested type, the order does not matter at all.

* `ScopedNode.baseList` — what a base list says of the types declared, without a state
* `Completing` — what is kept while base lists are resolved one after the other
* `Environment.ofTree_reordered` — units with their declarations in another order
* `Environment.ofTree_order_matters` — a unit where the order matters
-/

namespace NullableMarker

/-! ## New types -/

namespace SymbolTable

variable {T : SymbolTable} {symbols : List TypeSymbol}

/-- Types that the table does not know, each declared once and none with a keyword. -/
structure Fresh (T : SymbolTable) (symbols : List TypeSymbol) : Prop where
  nodup : (symbols.map (·.key)).Nodup
  unknown : ∀ s ∈ symbols, T.get? s.key = none
  special : ∀ s ∈ symbols, s.special = none

theorem Fresh.tail {s : TypeSymbol} (hT : T.Keyed) (h : T.Fresh (s :: symbols)) :
    (T.add s).1.Fresh symbols where
  nodup := (List.nodup_cons.mp h.nodup).2
  unknown t ht := by
    rw [get?_add_of_ne hT, h.unknown t (List.mem_cons_of_mem s ht)]
    intro heq
    have hmem : t.key ∈ symbols.map (·.key) := List.mem_map_of_mem ht
    rw [heq] at hmem
    exact (List.nodup_cons.mp h.nodup).1 hmem
  special t ht := h.special t (List.mem_cons_of_mem s ht)

theorem get?_addAll_of_mem (hT : T.Keyed) (h : T.Fresh symbols) {s : TypeSymbol}
    (hs : s ∈ symbols) : (T.addAll symbols).get? s.key = some s := by
  induction symbols generalizing T with
  | nil => cases hs
  | cons t symbols ih =>
    rcases List.mem_cons.mp hs with rfl | hs
    · refine (get?_addAll_of_not_mem (hT.add s) (List.nodup_cons.mp h.nodup).1).trans ?_
      rw [get?_add_self hT, h.unknown s List.mem_cons_self]
      rfl
    · exact ih (hT.add t) (h.tail hT) hs

theorem special?_addAll (hT : T.Keyed) (h : T.Fresh symbols) (word : Special) :
    (T.addAll symbols).special? word = T.special? word := by
  induction symbols generalizing T with
  | nil => rfl
  | cons s symbols ih =>
    refine (ih (hT.add s) (h.tail hT)).trans ?_
    unfold add
    rw [h.unknown s List.mem_cons_self]
    dsimp only
    rw [h.special s List.mem_cons_self]
    rfl

theorem contains_foldl (names known : List String) (name : String) :
    (names.foldl (fun known n => if known.contains n then known else known ++ [n]) known).contains
      name = (known.contains name || names.contains name) := by
  induction names generalizing known with
  | nil => simp
  | cons n names ih =>
    rw [List.foldl_cons, ih]
    by_cases hn : known.contains n
    · rw [if_pos hn]
      by_cases heq : name = n
      · rw [heq, hn, Bool.true_or, Bool.true_or]
      · simp [heq]
    · rw [if_neg hn]
      simp [Bool.or_assoc]

/-- Adding a type registers the namespaces of what it is merged to. -/
theorem hasNamespace_add (T : SymbolTable) (s : TypeSymbol) (name : String) :
    (T.add s).1.hasNamespace name
      = (T.hasNamespace name
        || (enclosing ((T.get? s.key).elim s (·.merge s)).namespaceName).contains name) := by
  unfold add
  cases T.get? s.key with
  | none => exact contains_foldl _ _ _
  | some first => exact contains_foldl _ _ _

theorem hasNamespace_addAll_of_hasNamespace {name : String} (h : T.hasNamespace name = true)
    (symbols : List TypeSymbol) : (T.addAll symbols).hasNamespace name = true := by
  induction symbols generalizing T with
  | nil => exact h
  | cons s symbols ih =>
    refine ih ?_
    rw [hasNamespace_add, h, Bool.true_or]

theorem hasNamespace_addAll (hT : T.Keyed) (h : T.Fresh symbols) (name : String) :
    (T.addAll symbols).hasNamespace name
      = (T.hasNamespace name
        || symbols.any fun s => (enclosing s.namespaceName).contains name) := by
  induction symbols generalizing T with
  | nil => simp [addAll]
  | cons s symbols ih =>
    have hadd : (T.add s).1.hasNamespace name
        = (T.hasNamespace name || (enclosing s.namespaceName).contains name) := by
      rw [hasNamespace_add, h.unknown s List.mem_cons_self]
      rfl
    rw [List.any_cons, ← Bool.or_assoc, ← hadd]
    exact ih (hT.add s) (h.tail hT)

section Perm

variable {symbols' : List TypeSymbol}

theorem Fresh.perm (h : T.Fresh symbols) (hperm : symbols'.Perm symbols) : T.Fresh symbols' where
  nodup := (hperm.map _).nodup_iff.mpr h.nodup
  unknown s hs := h.unknown s (hperm.subset hs)
  special s hs := h.special s (hperm.subset hs)

/-- The order in which new types are added does not matter. -/
theorem get?_addAll_perm (hT : T.Keyed) (h : T.Fresh symbols) (hperm : symbols'.Perm symbols)
    (key : String) : (T.addAll symbols').get? key = (T.addAll symbols).get? key := by
  by_cases hkey : key ∈ symbols.map (·.key)
  · obtain ⟨s, hs, rfl⟩ := List.mem_map.mp hkey
    rw [get?_addAll_of_mem hT h hs, get?_addAll_of_mem hT (h.perm hperm) (hperm.mem_iff.mpr hs)]
  · rw [get?_addAll_of_not_mem hT hkey, get?_addAll_of_not_mem hT]
    rwa [(hperm.map _).mem_iff]

theorem hasNamespace_addAll_perm (hT : T.Keyed) (h : T.Fresh symbols)
    (hperm : symbols'.Perm symbols) (name : String) :
    (T.addAll symbols').hasNamespace name = (T.addAll symbols).hasNamespace name := by
  rw [hasNamespace_addAll hT h, hasNamespace_addAll hT (h.perm hperm), hperm.any_eq]

end Perm

end SymbolTable

/-! ## Base lists without a state -/

/-- What the base list of a declaration says, if the directives of the tree are not bound yet. -/
def ScopedNode.baseList (U : SymbolTable) (d : ScopedNode) : Except BadReference BaseList :=
  match d.inner with
  | none => pure {}
  | some scope =>
    let isClass := d.isKind fun k => k == .classType || k == .recordType
    d.node.baseTypes.foldlM (fun l base =>
      return l.add isClass (← (scope.finder U fun _ => none).written U base.written)) {}

theorem BaseList.add_eq (l : BaseList) (isClass : Bool) {o o' : Option TypeSymbol}
    (h : SameOutlines o o') : l.add isClass o = l.add isClass o' := by
  cases h with
  | none => rfl
  | some h =>
    unfold BaseList.add
    dsimp only
    rw [h.key_eq, h.kind_eq]

/-- In a table between, a base list is resolved to what it says of the types declared. -/
theorem Completion.keeps_resolveBaseList {keys : List String} {D F : SymbolTable}
    (h : Completion keys D F) {root : Tree} (hroot : root.tokens.Pairwise Token.StartsBefore)
    {d : ScopedNode} (hd : d ∈ root.scoped []) :
    Keeps (StandsIn (Like keys D F) D (fun _ => none) root) Eq (resolveBaseList d)
      (d.baseList D) := by
  unfold resolveBaseList ScopedNode.baseList
  cases hinner : d.inner with
  | none => exact Keeps.pure rfl
  | some scope =>
    have hopens : root.Opens scope := ⟨d, hd, scope, .inr hinner, List.suffix_rfl⟩
    refine Keeps.foldlM fun l base => ?_
    rw [Lookup.typeNode_eq]
    refine (keeps_written (fun _ hst => hst.table) (lookupKeeps_of_opens hroot hopens) _).bind ?_
    intro o o' ho
    refine Keeps.pure (BaseList.add_eq l _ ?_)
    cases ho with
    | none => exact .none
    | some hs => exact .some (hs.sameOutline h).symm

/-! ## Base lists one after the other -/

/-- The keys of the types that declarations give a base list. -/
def completedKeysOf (ds : List ScopedNode) : List String := ds.filterMap (·.completedKey?)

theorem completedKeysOf_cons_of_none {d : ScopedNode} (hd : d.completedKey? = none)
    (ds : List ScopedNode) : completedKeysOf (d :: ds) = completedKeysOf ds :=
  List.filterMap_cons_none hd

theorem completedKeysOf_cons_of_some {d : ScopedNode} {key : String}
    (hd : d.completedKey? = some key) (ds : List ScopedNode) :
    completedKeysOf (d :: ds) = key :: completedKeysOf ds := List.filterMap_cons_some hd

/-- Base lists leave types that they are not of alone. -/
theorem get?_completeAll_of_not_mem {ds : List ScopedNode} {st st' : Resolution} {u : Unit}
    (h : (ds.forM completeDeclaration).run st = .ok (u, st')) {key : String}
    (hkey : key ∉ completedKeysOf ds) : st'.table.get? key = st.table.get? key := by
  induction ds generalizing st with
  | nil =>
    cases h
    rfl
  | cons d ds ih =>
    obtain ⟨⟨_, st₁⟩, hd, hrest⟩ := ok_of_bind h
    rcases completeDeclaration_cases hd with ⟨hnone, rfl⟩ | ⟨k, l, st₂, hk, -, rfl⟩
    · rw [completedKeysOf_cons_of_none hnone] at hkey
      exact ih hrest hkey
    · rw [completedKeysOf_cons_of_some hk, List.mem_cons, not_or] at hkey
      exact (ih hrest hkey.2).trans (SymbolTable.get?_complete_of_ne _ hkey.1 l)

/-- The states while the base lists of `ds` are still to be resolved: their types are as declared,
and all others as in the end. -/
structure Completing (root : Tree) (keys : List String) (D F : SymbolTable) (ds : List ScopedNode)
    (st : Resolution) : Prop where
  pending : ∀ key ∈ completedKeysOf ds, st.table.get? key = D.get? key
  done : ∀ key, key ∉ completedKeysOf ds → st.table.get? key = F.get? key
  special? : ∀ word, st.table.special? word = D.special? word
  hasNamespace : ∀ name, st.table.hasNamespace name = D.hasNamespace name
  bound : ∀ (x : Scope) (i : Nat), root.Opens x → x.id? = some i →
    x.Holds (Completion.Like keys D F) D (fun _ => none) i (st.bound.lookup i)

namespace Completing

variable {root : Tree} {keys : List String} {D F : SymbolTable} {d : ScopedNode}
  {ds : List ScopedNode} {st : Resolution}

theorem standsIn (h : Completion keys D F) (hst : Completing root keys D F ds st) :
    StandsIn (Completion.Like keys D F) D (fun _ => none) root st where
  table := by
    refine Completion.Between.alike h ⟨fun key => ?_, hst.special?, hst.hasNamespace⟩
    by_cases hpending : key ∈ completedKeysOf ds
    · exact .inl (hst.pending key hpending)
    · rw [hst.done key hpending]
      by_cases hkey : key ∈ keys
      · exact .inr ⟨hkey, rfl⟩
      · exact .inl (h.others key hkey)
  bound := hst.bound

/-- A declaration without a base list. -/
theorem skip (hst : Completing root keys D F (d :: ds) st) (hd : d.completedKey? = none) :
    Completing root keys D F ds st := by
  have heq := completedKeysOf_cons_of_none hd ds
  exact ⟨heq ▸ hst.pending, heq ▸ hst.done, hst.special?, hst.hasNamespace, hst.bound⟩

/-- A base list that completes its type to what it is in the end. -/
theorem complete {key : String} {l : BaseList} {st₁ : Resolution}
    (hst : Completing root keys D F (d :: ds) st) (hd : d.completedKey? = some key)
    (hnodup : (completedKeysOf (d :: ds)).Nodup)
    (hst₁ : StandsIn (Completion.Like keys D F) D (fun _ => none) root st₁)
    (hF : F.get? key = (D.get? key).map (·.completed l)) :
    Completing root keys D F ds { st₁ with table := st.table.complete key l } := by
  obtain ⟨hpending, hdone, hspecial, hspace, -⟩ := hst
  rw [completedKeysOf_cons_of_some hd] at hnodup hpending hdone
  refine ⟨?_, ?_, ?_, ?_, hst₁.bound⟩
  · intro k hk
    have hne : k ≠ key := by
      rintro rfl
      exact (List.nodup_cons.mp hnodup).1 hk
    exact (SymbolTable.get?_complete_of_ne _ hne l).trans
      (hpending k (List.mem_cons_of_mem key hk))
  · intro k hk
    show (st.table.complete key l).get? k = _
    by_cases hne : k = key
    · rw [hne, SymbolTable.get?_complete_self, hpending key List.mem_cons_self, hF]
    · rw [SymbolTable.get?_complete_of_ne _ hne, hdone k (by simp [hne, hk])]
  · intro word
    exact (SymbolTable.special?_complete _ _ _ _).trans (hspecial word)
  · intro name
    exact (SymbolTable.hasNamespace_complete _ _ _ _).trans (hspace name)

end Completing

/-- The base list of the declaration, as it is without a state, completes its type to what it is in
the end. -/
def ScopedNode.Completes (D F : SymbolTable) (d : ScopedNode) : Prop :=
  ∀ key, d.completedKey? = some key →
    ∃ l, d.baseList D = .ok l ∧ F.get? key = (D.get? key).map (·.completed l)

section Runs

variable {root : Tree} {keys : List String} {D F : SymbolTable}

theorem nodup_tail {d : ScopedNode} {ds : List ScopedNode}
    (h : (completedKeysOf (d :: ds)).Nodup) : (completedKeysOf ds).Nodup := by
  cases hd : d.completedKey? with
  | none =>
    rw [completedKeysOf_cons_of_none hd] at h
    exact h
  | some key =>
    rw [completedKeysOf_cons_of_some hd] at h
    exact (List.nodup_cons.mp h).2

/-- What the run that leads to the end says of every base list. -/
theorem completes_of_run (h : Completion keys D F) (hroot : root.tokens.Pairwise Token.StartsBefore)
    {ds : List ScopedNode} (hds : ∀ d ∈ ds, d ∈ root.scoped [])
    (hnodup : (completedKeysOf ds).Nodup)
    {st st' : Resolution} {u : Unit} (hst : Completing root keys D F ds st)
    (hrun : (ds.forM completeDeclaration).run st = .ok (u, st')) (hF : st'.table = F) :
    ∀ d ∈ ds, d.Completes D F := by
  induction ds generalizing st with
  | nil => simp
  | cons d ds ih =>
    obtain ⟨⟨_, st₁⟩, hd, hrest⟩ := ok_of_bind hrun
    have hds' : ∀ d' ∈ ds, d' ∈ root.scoped [] := fun d' hd' => hds d' (List.mem_cons_of_mem d hd')
    rcases completeDeclaration_cases hd with ⟨hnone, rfl⟩ | ⟨key, l, st₂, hkey, hl, rfl⟩
    · intro d' hd'
      rcases List.mem_cons.mp hd' with rfl | hd'
      · intro key hkey
        rw [hnone] at hkey
        cases hkey
      · exact ih hds' (nodup_tail hnodup) (hst.skip hnone) hrest d' hd'
    · have hkeeps := h.keeps_resolveBaseList hroot (hds d List.mem_cons_self)
      obtain ⟨hbaseList, hst₂⟩ := hkeeps.of_run (hst.standsIn h) hl
      have heq := completedKeysOf_cons_of_some hkey ds
      have hfinal : F.get? key = (D.get? key).map (·.completed l) := by
        rw [heq] at hnodup
        rw [← hF, get?_completeAll_of_not_mem hrest (List.nodup_cons.mp hnodup).1]
        show (st.table.complete key l).get? key = _
        rw [SymbolTable.get?_complete_self, hst.pending key]
        rw [heq]
        exact List.mem_cons_self
      intro d' hd'
      rcases List.mem_cons.mp hd' with rfl | hd'
      · intro key' hkey'
        rw [hkey] at hkey'
        cases hkey'
        exact ⟨l, hbaseList, hfinal⟩
      · exact ih hds' (nodup_tail hnodup) (hst.complete hkey hnodup hst₂ hfinal) hrest d' hd'

/-- Base lists that complete their types lead to the end in any order. -/
theorem run_of_completes (h : Completion keys D F) (hroot : root.tokens.Pairwise Token.StartsBefore)
    {ds : List ScopedNode} (hds : ∀ d ∈ ds, d ∈ root.scoped [])
    (hnodup : (completedKeysOf ds).Nodup)
    (hcompletes : ∀ d ∈ ds, d.Completes D F) {st : Resolution}
    (hst : Completing root keys D F ds st) :
    ∃ st', (ds.forM completeDeclaration).run st = .ok ((), st')
      ∧ Completing root keys D F [] st' := by
  induction ds generalizing st with
  | nil => exact ⟨st, rfl, hst⟩
  | cons d ds ih =>
    have hrest : ∀ {st₁ : Resolution}, Completing root keys D F ds st₁ →
        ∃ st', (ds.forM completeDeclaration).run st₁ = .ok ((), st')
          ∧ Completing root keys D F [] st' :=
      ih (fun d' hd' => hds d' (List.mem_cons_of_mem d hd')) (nodup_tail hnodup)
        fun d' hd' => hcompletes d' (List.mem_cons_of_mem d hd')
    have hbind : ∀ {st₁ st'}, (completeDeclaration d).run st = .ok ((), st₁) →
        (ds.forM completeDeclaration).run st₁ = .ok ((), st') →
        ((d :: ds).forM completeDeclaration).run st = .ok ((), st') := by
      intro st₁ st' hd hds
      show ((completeDeclaration d).run st >>= fun r => (ds.forM completeDeclaration).run r.2) = _
      rw [hd]
      exact hds
    cases hkey : d.completedKey? with
    | none =>
      obtain ⟨st', hrun, hst'⟩ := hrest (hst.skip hkey)
      exact ⟨st', hbind (run_completeDeclaration_of_none hkey st) hrun, hst'⟩
    | some key =>
      obtain ⟨l, hl, hfinal⟩ := hcompletes d List.mem_cons_self key hkey
      have hkeeps := h.keeps_resolveBaseList hroot (hds d List.mem_cons_self)
      rw [hl] at hkeeps
      obtain ⟨st₁, hrun₁, hst₁⟩ := hkeeps.exists_run (hst.standsIn h)
      obtain ⟨st', hrun, hst'⟩ := hrest (hst.complete hkey hnodup hst₁ hfinal)
      exact ⟨st', hbind (run_completeDeclaration_of_some hkey hrun₁) hrun, hst'⟩

end Runs

/-! ## Declarations in another order -/

/-- The references do not know the types with these keys, and do not derive from them. -/
structure SymbolTable.Foreign (T : SymbolTable) (keys : List String) : Prop where
  unknown : ∀ key ∈ keys, T.get? key = none
  base : ∀ s, (∃ key, T.get? key = some s) ∨ (∃ word, T.special? word = some s) →
    ∀ key, s.base = some (.key key) → key ∉ keys

theorem ScopedNode.declaredKey?_of_completedKey? {d : ScopedNode} {key : String}
    (h : d.completedKey? = some key) : d.declaredKey? = some key := by
  unfold completedKey? at h
  split at h
  · cases h
  · exact h

theorem completedKeysOf_sublist (ds : List ScopedNode) :
    (completedKeysOf ds).Sublist (ds.filterMap (·.declaredKey?)) := by
  induction ds with
  | nil => exact .slnil
  | cons d ds ih =>
    rw [completedKeysOf, List.filterMap_cons, List.filterMap_cons]
    cases hd : d.completedKey? with
    | none =>
      cases d.declaredKey? with
      | none => exact ih
      | some key => exact ih.cons key
    | some key =>
      rw [ScopedNode.declaredKey?_of_completedKey? hd]
      exact ih.cons_cons key

theorem exists_declaredSymbol {d : ScopedNode} {key : String} (h : d.declaredKey? = some key)
    (origin : String) : ∃ s, d.declaredSymbol? origin = some s ∧ s.key = key ∧ s.base = none := by
  rw [← d.key_declaredSymbol? origin] at h
  obtain ⟨s, hs, hkey⟩ := Option.map_eq_some_iff.mp h
  refine ⟨s, hs, hkey, ?_⟩
  obtain ⟨kind, -, hs⟩ := Option.bind_eq_some_iff.mp hs
  obtain ⟨typeKind, -, hs⟩ := Option.bind_eq_some_iff.mp hs
  obtain ⟨outer, -, hs⟩ := Option.bind_eq_some_iff.mp hs
  cases hs
  rfl

namespace Environment

variable {references : SymbolTable} {origin : String} {root : Tree} {env : Environment}

/-- No type of the unit inherits a nested type. -/
def InheritsNone (env : Environment) : Prop :=
  ∀ s ∈ env.declaredTypes, ∀ name arity,
    env.table.nested s name arity = .ok (env.table.get? (s.key ++ "." ++ metadataName name arity))

theorem fresh_declaredSymbols (origin : String) (hkeys : (declaredKeys (root.scoped [])).Nodup)
    (hforeign : references.Foreign (declaredKeys (root.scoped []))) :
    references.Fresh (declaredSymbols origin (root.scoped [])) where
  nodup := by rwa [map_key_declaredSymbols]
  unknown s hs := by
    refine hforeign.unknown s.key ?_
    rw [← map_key_declaredSymbols origin]
    exact List.mem_map_of_mem hs
  special _ hs := special_of_mem_declaredSymbols hs

/-- The table of an environment completes that of the types declared. -/
theorem completion_of_ofTree (hreferences : references.Keyed)
    (henv : ofTree references origin root = .ok env)
    (hkeys : (declaredKeys (root.scoped [])).Nodup)
    (hforeign : references.Foreign (declaredKeys (root.scoped []))) (hnone : env.InheritsNone) :
    Completion (completedKeysOf (typeDeclarations (root.scoped [])))
      (references.addAll (declaredSymbols origin (root.scoped []))) env.table := by
  obtain ⟨-, hnodes, hrun⟩ := run_of_ofTree henv
  have hfresh := fresh_declaredSymbols origin hkeys hforeign
  have hsub := (completedKeysOf_sublist (typeDeclarations (root.scoped []))).subset
  have hdeclared : ∀ key ∈ declaredKeys (root.scoped []),
      ∃ s, (references.addAll (declaredSymbols origin (root.scoped []))).get? key = some s
        ∧ s.base = none := by
    intro key hkey
    obtain ⟨d, hd, hkey⟩ := List.mem_filterMap.mp hkey
    obtain ⟨s, hs, rfl, hbase⟩ := exists_declaredSymbol hkey origin
    have hmem : s ∈ declaredSymbols origin (root.scoped []) := List.mem_filterMap.mpr ⟨d, hd, hs⟩
    exact ⟨s, SymbolTable.get?_addAll_of_mem hreferences hfresh hmem, hbase⟩
  refine ⟨?_, ?_, ?_, ?_⟩
  · rintro s (⟨key, hs⟩ | ⟨word, hs⟩) k hbase hk
    · by_cases hkey : key ∈ declaredKeys (root.scoped [])
      · obtain ⟨t, ht, hnone⟩ := hdeclared key hkey
        obtain rfl := Option.some.inj (hs.symm.trans ht)
        rw [hnone] at hbase
        cases hbase
      · rw [← map_key_declaredSymbols origin] at hkey
        rw [SymbolTable.get?_addAll_of_not_mem hreferences hkey] at hs
        exact hforeign.base s (.inl ⟨key, hs⟩) k hbase (hsub hk)
    · rw [SymbolTable.special?_addAll hreferences hfresh] at hs
      exact hforeign.base s (.inr ⟨word, hs⟩) k hbase (hsub hk)
  · intro key hkey
    obtain ⟨s, hs, hbase⟩ := hdeclared key (hsub hkey)
    have houtline := sameOutline_completeAll hrun key
    rw [hs] at houtline
    generalize ho : env.resolution.table.get? key = o at houtline
    cases houtline with
    | some h => exact ⟨s, _, hs, hbase, ho, h.symm⟩
  · exact fun key hkey => get?_completeAll_of_not_mem hrun hkey
  · intro key hkey t ht
    refine hnone t ?_
    rw [declaredTypes, hnodes]
    exact List.mem_filterMap.mpr ⟨key, List.mem_eraseDups.mpr (hsub hkey), ht⟩

/-- The declarations of a unit with its members in another order. -/
theorem perm_typeDeclarations {cs cs' : List Tree} (hperm : cs'.Perm cs)
    (husings : (Tree.node .compilationUnit cs').usings = (Tree.node .compilationUnit cs).usings) :
    (typeDeclarations ((Tree.node .compilationUnit cs').scoped [])).Perm
      (typeDeclarations ((Tree.node .compilationUnit cs).scoped [])) := by
  have hscoped : ∀ ts : List Tree,
      typeDeclarations ((Tree.node .compilationUnit ts).scoped [])
        = typeDeclarations (ts.flatMap (Tree.scoped
            [.space "" (Tree.node .compilationUnit ts).usings])) := by
    intro ts
    show typeDeclarations (Tree.scopedFrom (some []) (.node .compilationUnit ts)) = _
    rw [Tree.scopedFrom_node]
    show typeDeclarations (_ :: Tree.scopedFromAll (ts.map fun _ =>
      some [.space "" (Tree.node .compilationUnit ts).usings]) ts) = _
    rw [Tree.scopedFromAll_const]
    exact List.filter_cons_of_neg Bool.false_ne_true
  rw [hscoped, hscoped, husings]
  exact (hperm.flatMap_right _).filter _

/-- Types that are declared once are told by their keys, whatever their order. -/
theorem find?_eq_of_perm {symbols symbols' : List TypeSymbol} (hperm : symbols'.Perm symbols)
    (hnodup : (symbols.map (·.key)).Nodup) (key : String) :
    symbols'.find? (·.key == key) = symbols.find? (·.key == key) := by
  rw [← List.findSome?_guard, ← List.findSome?_guard]
  refine findSome?_eq_of_perm hperm fun s hs t ht x y hx hy => ?_
  obtain ⟨rfl, hskey⟩ := Option.guard_eq_some_iff.mp hx
  obtain ⟨rfl, htkey⟩ := Option.guard_eq_some_iff.mp hy
  exact List.inj_on_of_nodup_map hnodup hs ht ((eq_of_beq hskey).trans (eq_of_beq htkey).symm)

/-- The base lists of the same declarations, resolved in another order. -/
theorem exists_run_reordered (htokens : root.tokens.Pairwise Token.StartsBefore)
    (hkeys : (declaredKeys (root.scoped [])).Nodup) (hreferences : references.Keyed)
    (henv : ofTree references origin root = .ok env)
    (hforeign : references.Foreign (declaredKeys (root.scoped []))) (hnone : env.InheritsNone)
    {nodes' : List ScopedNode}
    (hperm : (typeDeclarations nodes').Perm (typeDeclarations (root.scoped []))) :
    ∃ st', ((typeDeclarations nodes').forM completeDeclaration).run
        { table := references.addAll (declaredSymbols origin nodes') } = .ok ((), st')
      ∧ ∀ key, st'.table.get? key = env.table.get? key := by
  have hcompletion := completion_of_ofTree hreferences henv hkeys hforeign hnone
  have hfresh := fresh_declaredSymbols origin hkeys hforeign
  have hnodup : (completedKeysOf (typeDeclarations (root.scoped []))).Nodup :=
    hkeys.sublist (completedKeysOf_sublist _)
  obtain ⟨-, -, hrun⟩ := run_of_ofTree henv
  have hcompletes := completes_of_run hcompletion htokens (fun d hd => List.mem_of_mem_filter hd)
    hnodup ⟨fun _ _ => rfl, fun key hkey => (hcompletion.others key hkey).symm, fun _ => rfl,
      fun _ => rfl, fun _ _ _ _ => .unbound rfl⟩ hrun rfl
  -- the other run starts from a table that holds the same, and has the same base lists to resolve
  have hsymbols : (declaredSymbols origin nodes').Perm (declaredSymbols origin (root.scoped [])) :=
    hperm.filterMap _
  have hcompleted : (completedKeysOf (typeDeclarations nodes')).Perm
      (completedKeysOf (typeDeclarations (root.scoped []))) := hperm.filterMap _
  have hget := SymbolTable.get?_addAll_perm hreferences hfresh hsymbols
  have hstart : Completing root (completedKeysOf (typeDeclarations (root.scoped [])))
      (references.addAll (declaredSymbols origin (root.scoped []))) env.table
      (typeDeclarations nodes') { table := references.addAll (declaredSymbols origin nodes') } := by
    refine ⟨fun key _ => hget key, fun key hkey => ?_, fun word => ?_, ?_,
      fun _ _ _ _ => .unbound rfl⟩
    · rw [hcompleted.mem_iff] at hkey
      exact (hget key).trans (hcompletion.others key hkey).symm
    · exact (SymbolTable.special?_addAll hreferences (hfresh.perm hsymbols) word).trans
        (SymbolTable.special?_addAll hreferences hfresh word).symm
    · exact SymbolTable.hasNamespace_addAll_perm hreferences hfresh hsymbols
  obtain ⟨st', hrun', hst'⟩ := run_of_completes hcompletion htokens
    (fun d hd => List.mem_of_mem_filter (hperm.mem_iff.mp hd)) (hcompleted.nodup_iff.mpr hnodup)
    (fun d hd => hcompletes d (hperm.mem_iff.mp hd)) hstart
  exact ⟨st', hrun', fun key => hst'.done key List.not_mem_nil⟩

/-- Two units that differ only in the order of their top-level declarations, with the same using
directives in the same order and each type declared once, declare types of the same outlines. If the
references are foreign to the unit and no type of it inherits a nested type, both have the same
types, which derive from the same and implement the same interfaces. -/
theorem ofTree_reordered {source : String} {defined : List String}
    (hroot : parseUnit source defined = .ok root) {cs' : List Tree}
    (hperm : cs'.Perm root.children)
    (husings : (Tree.node .compilationUnit cs').usings = root.usings)
    (hkeys : (declaredKeys (root.scoped [])).Nodup) (hreferences : references.Keyed)
    (henv : ofTree references origin root = .ok env) :
    (∀ env', ofTree references origin (.node .compilationUnit cs') = .ok env' →
        ∀ key, SameOutlines (env'.table.get? key) (env.table.get? key))
      ∧ (references.Foreign (declaredKeys (root.scoped [])) → env.InheritsNone →
        ∃ env', ofTree references origin (.node .compilationUnit cs') = .ok env'
          ∧ (∀ key, env'.table.get? key = env.table.get? key)
          ∧ ∀ s space name,
            env'.table.implements s space name = env.table.implements s space name) := by
  have hunit := Tree.isUnitOf_of_parseUnit hroot
  obtain ⟨cs, rfl⟩ : ∃ cs, root = .node .compilationUnit cs := by
    obtain ⟨kind, cs, rfl, -⟩ := hunit.form
    exact ⟨cs, by rw [eq_of_beq hunit.isUnit]⟩
  have hdeclarations := perm_typeDeclarations (show cs'.Perm cs from hperm) husings
  constructor
  · intro env' henv' key
    refine (sameOutline_ofTree hreferences henv' key).trans ?_
    have hsymbols := hdeclarations.filterMap (·.declaredSymbol? origin)
    have hnodup := hkeys
    rw [← map_key_declaredSymbols origin] at hnodup
    rw [show ((declaredSymbols origin _).find? _ : Option TypeSymbol) = _ from
      find?_eq_of_perm hsymbols hnodup key]
    exact (sameOutline_ofTree hreferences henv key).symm
  · intro hforeign hnone
    obtain ⟨st', hrun', hget⟩ := exists_run_reordered hunit.startsBefore hkeys hreferences henv
      hforeign hnone hdeclarations
    refine ⟨⟨.node .compilationUnit cs', (Tree.node .compilationUnit cs').scoped [], st'⟩, ?_, hget,
      SymbolTable.implements_congr hget⟩
    unfold ofTree
    show ((typeDeclarations ((Tree.node .compilationUnit cs').scoped [])).forM
      completeDeclaration).run { table := references.addAll (declaredSymbols origin _) } >>= _ = _
    rw [hrun']
    rfl

/-- An interface may as well stand before the class that implements it. -/
theorem ofTree_reordered_interface :
    ∃ root env env', parseUnit "class A:I{}interface I{}" [] = .ok root
      ∧ ofTree (.ofList []) "source" root = .ok env
      ∧ ofTree (.ofList []) "source"
          (.node .compilationUnit ((root.children.take 2).reverse ++ root.children.drop 2))
        = .ok env'
      ∧ ((env.table.get? "A").any (·.interfaces == [.key "I"])) = true
      ∧ ∀ key, env'.table.get? key = env.table.get? key := by
  have hrun : ((parseUnit "class A:I{}interface I{}" []).toOption.bind fun root =>
      (ofTree (.ofList []) "source" root).toOption.map fun env =>
        (declaredKeys (root.scoped []), env.declaredTypes.all (·.base.isNone), root.usings.isEmpty,
          (Tree.node .compilationUnit
            ((root.children.take 2).reverse ++ root.children.drop 2)).usings.isEmpty,
          (env.table.get? "A").any (·.interfaces == [.key "I"])))
      = some (["A", "I"], true, true, true, true) := by
    decide +kernel
  obtain ⟨root, hroot, hrun⟩ := Option.bind_eq_some_iff.mp hrun
  obtain ⟨env, henv, hrun⟩ := Option.map_eq_some_iff.mp hrun
  simp only [Prod.mk.injEq, List.isEmpty_iff, List.all_eq_true, Option.isNone_iff_eq_none] at hrun
  obtain ⟨hkeys, hbases, husings, husings', hinterfaces⟩ := hrun
  have hroot := ok_of_toOption hroot
  have henv := ok_of_toOption henv
  have hperm : ((root.children.take 2).reverse ++ root.children.drop 2).Perm root.children := by
    have hswap := (List.reverse_perm (root.children.take 2)).append_right (root.children.drop 2)
    rwa [List.take_append_drop] at hswap
  have hforeign : (SymbolTable.ofList []).Foreign (declaredKeys (root.scoped [])) := by
    refine ⟨fun _ _ => rfl, ?_⟩
    rintro s (⟨_, hs⟩ | ⟨_, hs⟩) <;> cases hs
  have hnodup : (declaredKeys (root.scoped [])).Nodup := by
    rw [hkeys]
    decide
  obtain ⟨-, hsame⟩ := ofTree_reordered hroot hperm (husings'.trans husings.symm) hnodup
    (SymbolTable.keyed_ofList []) henv
  obtain ⟨env', henv', hget, -⟩ := hsame hforeign fun s hs =>
    SymbolTable.nested_of_base_none (hbases s hs) env.table
  exact ⟨root, env, env', hroot, henv, henv', hinterfaces, hget⟩

/-- The base class of `D` is a nested type that `A` inherits from `B`. It is not found unless the
base list of `A` comes before. -/
theorem ofTree_order_matters :
    ∃ root env env', parseUnit "class D:A.I{}class A:B{}class B{class I{}}" [] = .ok root
      ∧ ofTree (.ofList []) "source" root = .ok env
      ∧ ofTree (.ofList []) "source"
          (.node .compilationUnit ((root.children.take 3).reverse ++ root.children.drop 3))
        = .ok env'
      ∧ (env.table.get? "D").map (·.base) = some none
      ∧ (env'.table.get? "D").map (·.base) = some (some (.key "B.I")) := by
  have hrun : ((parseUnit "class D:A.I{}class A:B{}class B{class I{}}" []).toOption.bind
      fun root => (ofTree (.ofList []) "source" root).toOption.bind fun env =>
        (ofTree (.ofList []) "source" (.node .compilationUnit
            ((root.children.take 3).reverse ++ root.children.drop 3))).toOption.map fun env' =>
          ((env.table.get? "D").map (·.base.isNone),
            (env'.table.get? "D").map (·.base.any (· == .key "B.I"))))
      = some (some true, some true) := by
    decide +kernel
  obtain ⟨root, hroot, hrun⟩ := Option.bind_eq_some_iff.mp hrun
  obtain ⟨env, henv, hrun⟩ := Option.bind_eq_some_iff.mp hrun
  obtain ⟨env', henv', hrun⟩ := Option.map_eq_some_iff.mp hrun
  obtain ⟨hbase, hbase'⟩ := Prod.mk.inj hrun
  exact ⟨root, env, env', ok_of_toOption hroot, ok_of_toOption henv, ok_of_toOption henv',
    TypeSymbol.map_base_of_isNone hbase, TypeSymbol.map_base_of_beq hbase'⟩

end Environment

end NullableMarker
