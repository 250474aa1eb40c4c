import NullableMarker.Proofs.TotalResolution

/-!
# What declarations tell of types

Declaring a type fixes its name, namespace, kind, arity and container; its base list only fills in
what it derives from. So up to bases and interfaces, the table of an environment is the table of its
references with the first declaration of every other type.

* `TypeSymbol.SameOutline` — types that differ at most in what they derive from
* `SymbolTable.sameOutline_addAll` — tables with types added
* `Environment.sameOutline_ofTree` — the tables of environments
-/

namespace NullableMarker

/-- What can be found in one way only is found in any order. -/
theorem findSome?_eq_of_perm {α β : Type} {f : α → Option β} {l l' : List α} (hperm : l'.Perm l)
    (hunique : ∀ a ∈ l, ∀ b ∈ l, ∀ x y, f a = some x → f b = some y → x = y) :
    l'.findSome? f = l.findSome? f := by
  cases hl : l.findSome? f with
  | none =>
    rw [List.findSome?_eq_none_iff] at hl ⊢
    exact fun a ha => hl a (hperm.mem_iff.mp ha)
  | some x =>
    obtain ⟨a, ha, hx⟩ := List.exists_of_findSome?_eq_some hl
    cases hl' : l'.findSome? f with
    | none =>
      rw [List.findSome?_eq_none_iff.mp hl' a (hperm.mem_iff.mpr ha)] at hx
      cases hx
    | some y =>
      obtain ⟨b, hb, hy⟩ := List.exists_of_findSome?_eq_some hl'
      rw [hunique a ha b (hperm.mem_iff.mp hb) x y hx hy]

/-! ## Outlines -/

/-- The types differ at most in what they derive from. -/
def TypeSymbol.SameOutline (s t : TypeSymbol) : Prop :=
  t = { s with base := t.base, interfaces := t.interfaces }

namespace TypeSymbol.SameOutline

variable {s t u : TypeSymbol}

theorem refl (s : TypeSymbol) : s.SameOutline s := rfl

theorem symm (h : s.SameOutline t) : t.SameOutline s := by
  unfold SameOutline at *
  rw [h]

theorem trans (h : s.SameOutline t) (h' : t.SameOutline u) : s.SameOutline u := by
  unfold SameOutline at *
  rw [h', h]

theorem key_eq (h : s.SameOutline t) : t.key = s.key := by
  unfold SameOutline at h
  rw [h]
  rfl

theorem namespaceName_eq (h : s.SameOutline t) : t.namespaceName = s.namespaceName := by
  unfold SameOutline at h
  rw [h]

theorem kind_eq (h : s.SameOutline t) : t.kind = s.kind := by
  unfold SameOutline at h
  rw [h]

theorem special_eq (h : s.SameOutline t) : t.special = s.special := by
  unfold SameOutline at h
  rw [h]

/-- A second declaration of a type adds nothing to the outline of the first. -/
theorem merge (s : TypeSymbol) (ht : t.special = none) : s.SameOutline (s.merge t) := by
  unfold SameOutline TypeSymbol.merge
  rw [ht, Option.or_none]

end TypeSymbol.SameOutline

/-- The same was found, but for what it derives from. -/
abbrev SameOutlines : Option TypeSymbol → Option TypeSymbol → Prop :=
  Option.Rel TypeSymbol.SameOutline

namespace SameOutlines

variable {o o' o'' : Option TypeSymbol}

theorem refl (o : Option TypeSymbol) : SameOutlines o o := by
  cases o with
  | none => exact .none
  | some s => exact .some (.refl s)

theorem symm (h : SameOutlines o o') : SameOutlines o' o := by
  cases h with
  | none => exact .none
  | some h => exact .some h.symm

theorem trans (h : SameOutlines o o') (h' : SameOutlines o' o'') : SameOutlines o o'' := by
  cases h with
  | none => exact h'
  | some h =>
    cases h' with
    | some h' => exact .some (h.trans h')

end SameOutlines

/-! ## Types that are added -/

namespace SymbolTable

variable {T : SymbolTable}

/-- Every type stands under its key. -/
def Keyed (T : SymbolTable) : Prop := ∀ key s, T.get? key = some s → s.key = key

theorem get?_add_of_ne (hT : T.Keyed) {s : TypeSymbol} {key : String} (hne : key ≠ s.key) :
    (T.add s).1.get? key = T.get? key := by
  obtain ⟨merged, hmerged, htypes, -⟩ := add_fst T s
  have hkey : merged.key = s.key := by
    rcases hmerged with ⟨-, rfl⟩ | ⟨first, hfirst, rfl⟩
    · rfl
    · exact (first.key_merge s).trans (hT _ _ hfirst)
  rw [get?, htypes, hkey, lookup_upsert_of_ne hne, get?]

theorem get?_add_self (hT : T.Keyed) (s : TypeSymbol) :
    (T.add s).1.get? s.key = some ((T.get? s.key).elim s (·.merge s)) := by
  obtain ⟨merged, hmerged, htypes, -⟩ := add_fst T s
  rcases hmerged with ⟨hnone, rfl⟩ | ⟨first, hfirst, rfl⟩
  · rw [get?, htypes, lookup_upsert_self, hnone]
    rfl
  · have hkey : (first.merge s).key = s.key := (first.key_merge s).trans (hT _ _ hfirst)
    rw [get?, htypes, hkey, lookup_upsert_self, hfirst]
    rfl

theorem Keyed.add (hT : T.Keyed) (s : TypeSymbol) : (T.add s).1.Keyed := by
  intro key t ht
  by_cases hkey : key = s.key
  · rw [hkey, get?_add_self hT] at ht
    cases ht
    cases hfirst : T.get? s.key with
    | none => exact hkey.symm
    | some first => exact ((first.key_merge s).trans (hT _ _ hfirst)).trans hkey.symm
  · rw [get?_add_of_ne hT hkey] at ht
    exact hT key t ht

theorem Keyed.addAll (hT : T.Keyed) (symbols : List TypeSymbol) : (T.addAll symbols).Keyed := by
  induction symbols generalizing T with
  | nil => exact hT
  | cons s symbols ih => exact ih (hT.add s)

theorem get?_addAll_of_not_mem (hT : T.Keyed) {symbols : List TypeSymbol} {key : String}
    (h : key ∉ symbols.map (·.key)) : (T.addAll symbols).get? key = T.get? key := by
  induction symbols generalizing T with
  | nil => rfl
  | cons s symbols ih =>
    rw [List.map_cons, List.mem_cons, not_or] at h
    exact (ih (hT.add s) h.2).trans (get?_add_of_ne hT h.1)

theorem keyed_ofList (symbols : List TypeSymbol) : (ofList symbols).Keyed :=
  (sound_ofList symbols).keyed

/-- A type that was known keeps its outline, and another has that of its first declaration. -/
theorem sameOutline_addAll (hT : T.Keyed) {symbols : List TypeSymbol}
    (hspecial : ∀ s ∈ symbols, s.special = none) (key : String) :
    SameOutlines ((T.addAll symbols).get? key)
      ((T.get? key).or (symbols.find? (·.key == key))) := by
  induction symbols generalizing T with
  | nil =>
    rw [List.find?_nil, Option.or_none]
    exact .refl _
  | cons s symbols ih =>
    have hrest := ih (hT.add s) fun t ht => hspecial t (List.mem_cons_of_mem s ht)
    refine hrest.trans ?_
    by_cases hkey : s.key = key
    · subst hkey
      rw [get?_add_self hT, Option.some_or, List.find?_cons_of_pos (by simp)]
      cases T.get? s.key with
      | none => exact .refl _
      | some first => exact .some (.symm (.merge first (hspecial s List.mem_cons_self)))
    · rw [get?_add_of_ne hT (Ne.symm hkey), List.find?_cons_of_neg (by simpa using hkey)]
      exact .refl _

end SymbolTable

/-! ## Base lists -/

/-- Two resolutions over one table that stays. -/
def Coupling.fixed (T : SymbolTable) : Coupling where
  asked _ := True
  keys _ := True
  entered _ := True
  found _ := True
  current _ := True
  found_of_current _ := trivial
  entered_of_found _ := trivial
  states st st' := st.table = T ∧ st'.table = T ∧ st'.bound = st.bound
  ids := Eq
  answers := by
    rintro st st' ⟨rfl, hT', -⟩
    rw [hT']
    exact Inquiry.answers_refl (fun _ _ _ => trivial) fun _ _ _ => trivial
  bound_eq := by
    rintro st st' i _ ⟨-, -, hbound⟩ rfl
    rw [hbound]
  found_alias _ _ _ := trivial
  entered_static _ _ _ := trivial
  states_setBindings := by
    rintro st st' i _ b ⟨hT, hT', hbound⟩ rfl - -
    exact ⟨hT, hT', congrArg (upsert i b) hbound⟩
  states_remark _ _ h := h

/-- Resolving a base list leaves the table alone. -/
theorem table_resolveBaseList {d : ScopedNode} {st st' : Resolution} {l : BaseList}
    (h : (resolveBaseList d).run st = .ok (l, st')) : st'.table = st.table := by
  have halike := Coupling.alike_resolveBaseList_self (C := .fixed st.table) (d := d) (fun _ => rfl)
    (fun _ _ _ _ => ⟨fun _ _ => trivial, fun _ _ _ => trivial⟩) fun _ _ _ _ => trivial
  obtain ⟨_, _, -, -, htable, -⟩ := halike.ok ⟨rfl, rfl, rfl⟩ h
  exact htable

/-- What a type is completed to by a base list. -/
def TypeSymbol.completed (s : TypeSymbol) (l : BaseList) : TypeSymbol :=
  { s with
    base := s.baseOr l.base
    interfaces := s.interfaces ++ l.interfaces.filter (!s.interfaces.contains ·) }

namespace SymbolTable

theorem get?_complete_self (T : SymbolTable) (key : String) (l : BaseList) :
    (T.complete key l).get? key = (T.get? key).map (·.completed l) := by
  unfold complete
  cases hkey : T.get? key with
  | none => exact hkey
  | some s =>
    rw [get?]
    exact lookup_upsert_self _ _ _

theorem get?_complete_of_ne (T : SymbolTable) {key k : String} (hne : k ≠ key) (l : BaseList) :
    (T.complete key l).get? k = T.get? k := by
  unfold complete
  cases T.get? key with
  | none => rfl
  | some s =>
    rw [get?]
    exact lookup_upsert_of_ne hne _ _

theorem hasNamespace_complete (T : SymbolTable) (key : String) (l : BaseList) (name : String) :
    (T.complete key l).hasNamespace name = T.hasNamespace name := by
  unfold complete
  split <;> rfl

end SymbolTable

/-- A declaration that gives no base list changes nothing, and another completes its type. -/
theorem completeDeclaration_cases {d : ScopedNode} {st st' : Resolution} {u : Unit}
    (h : (completeDeclaration d).run st = .ok (u, st')) :
    (d.completedKey? = none ∧ st' = st)
      ∨ ∃ key l st₁, d.completedKey? = some key ∧ (resolveBaseList d).run st = .ok (l, st₁)
        ∧ st' = { st₁ with table := st.table.complete key l } := by
  unfold completeDeclaration at h
  unfold ScopedNode.completedKey?
  split at h
  · next hkind =>
    cases h
    rw [if_pos hkind]
    exact .inl ⟨rfl, rfl⟩
  · next hkind =>
    rw [if_neg hkind]
    cases hkey : d.declaredKey? with
    | none =>
      rw [hkey] at h
      cases h
      exact .inl ⟨rfl, rfl⟩
    | some key =>
      rw [hkey] at h
      obtain ⟨⟨l, st₁⟩, hl, hend⟩ := ok_of_bind h
      cases hend
      refine .inr ⟨key, l, st₁, rfl, hl, ?_⟩
      rw [← table_resolveBaseList hl]

theorem run_completeDeclaration_of_none {d : ScopedNode} (hd : d.completedKey? = none)
    (st : Resolution) : (completeDeclaration d).run st = .ok ((), st) := by
  unfold ScopedNode.completedKey? at hd
  unfold completeDeclaration
  split at hd
  · next hkind =>
    rw [if_pos hkind]
    rfl
  · next hkind =>
    rw [if_neg hkind, hd]
    rfl

theorem run_completeDeclaration_of_some {d : ScopedNode} {key : String}
    (hd : d.completedKey? = some key) {st st₁ : Resolution} {l : BaseList}
    (hl : (resolveBaseList d).run st = .ok (l, st₁)) :
    (completeDeclaration d).run st = .ok ((), { st₁ with table := st.table.complete key l }) := by
  unfold ScopedNode.completedKey? at hd
  unfold completeDeclaration
  split at hd
  · cases hd
  · next hkind =>
    rw [if_neg hkind, hd, ← table_resolveBaseList hl]
    show ((resolveBaseList d).run st >>= _) = _
    rw [hl]
    rfl

/-- Base lists keep the outlines of all types. -/
theorem sameOutline_completeAll {ds : List ScopedNode} {st st' : Resolution} {u : Unit}
    (h : (ds.forM completeDeclaration).run st = .ok (u, st')) (key : String) :
    SameOutlines (st'.table.get? key) (st.table.get? key) := by
  induction ds generalizing st with
  | nil =>
    cases h
    exact .refl _
  | cons d ds ih =>
    obtain ⟨⟨_, st₁⟩, hd, hrest⟩ := ok_of_bind h
    refine (ih hrest).trans ?_
    rcases completeDeclaration_cases hd with ⟨-, rfl⟩ | ⟨k, l, st₂, -, -, rfl⟩
    · exact .refl _
    · show SameOutlines ((st.table.complete k l).get? key) _
      by_cases hkey : key = k
      · rw [hkey, SymbolTable.get?_complete_self]
        cases st.table.get? k with
        | none => exact .none
        | some s => exact .some rfl
      · rw [SymbolTable.get?_complete_of_ne _ hkey]
        exact .refl _

/-! ## Environments -/

/-- The symbols that scoped nodes declare, before any base list is resolved. -/
def declaredSymbols (origin : String) (nodes : List ScopedNode) : List TypeSymbol :=
  (typeDeclarations nodes).filterMap (·.declaredSymbol? origin)

theorem special_of_mem_declaredSymbols {origin : String} {nodes : List ScopedNode} {s : TypeSymbol}
    (h : s ∈ declaredSymbols origin nodes) : s.special = none := by
  obtain ⟨d, -, hd⟩ := List.mem_filterMap.mp h
  obtain ⟨kind, -, hd⟩ := Option.bind_eq_some_iff.mp hd
  obtain ⟨typeKind, -, hd⟩ := Option.bind_eq_some_iff.mp hd
  obtain ⟨outer, -, hd⟩ := Option.bind_eq_some_iff.mp hd
  cases hd
  rfl

theorem map_key_declaredSymbols (origin : String) (nodes : List ScopedNode) :
    (declaredSymbols origin nodes).map (·.key) = declaredKeys nodes := by
  unfold declaredSymbols declaredKeys
  rw [List.map_filterMap]
  exact congrArg (List.filterMap · _) (funext fun d => d.key_declaredSymbol? origin)

namespace Environment

variable {references : SymbolTable} {origin : String} {root : Tree} {env : Environment}

theorem run_of_ofTree (henv : ofTree references origin root = .ok env) :
    env.root = root ∧ env.nodes = root.scoped []
      ∧ ((typeDeclarations (root.scoped [])).forM completeDeclaration).run
          { table := references.addAll (declaredSymbols origin (root.scoped [])) }
        = .ok ((), env.resolution) := by
  obtain ⟨⟨u, resolution⟩, hrun, heq⟩ := ok_of_bind henv
  cases heq
  exact ⟨rfl, rfl, hrun⟩

/-- Up to what types derive from, the table of an environment holds the references and the first
declaration of every other type. -/
theorem sameOutline_ofTree (hreferences : references.Keyed)
    (henv : ofTree references origin root = .ok env) (key : String) :
    SameOutlines (env.table.get? key)
      ((references.get? key).or
        ((declaredSymbols origin (root.scoped [])).find? (·.key == key))) := by
  obtain ⟨-, -, hrun⟩ := run_of_ofTree henv
  refine (sameOutline_completeAll hrun key).trans ?_
  exact SymbolTable.sameOutline_addAll hreferences
    (fun s hs => special_of_mem_declaredSymbols hs) key

end Environment

end NullableMarker
