import NullableMarker.Proofs.CurrentSymbols
import NullableMarker.Symbol.Defaults

/-!
# References that can be looked up

A type may derive from what is no key, and a list, a set or a mapping cannot even be looked up. Such
references come from outside: what a unit declares derives from keys. In a table without them the
base classes, the interfaces and the members of every type are found.

* `SymbolTable.Proper` — all that the types of a table derive from can be looked up
* `SymbolTable.Proper.nested`, `SymbolTable.Proper.implements` — walks over such a table
* `Defaults.table_proper` — the default references
-/

namespace NullableMarker

/-! ## Tables -/

/-- The reference can be looked up. -/
def TypeRef.isProper : TypeRef → Bool
  | key _ => true
  | other v => v.isHashable

/-- All that the type derives from can be looked up. -/
def TypeSymbol.isProper (s : TypeSymbol) : Bool :=
  s.base.all (·.isProper) && s.interfaces.all (·.isProper)

theorem TypeSymbol.isProper_iff (s : TypeSymbol) : s.isProper = true
    ↔ (∀ r ∈ s.base, r.isProper = true) ∧ ∀ r ∈ s.interfaces, r.isProper = true := by
  rw [isProper, Bool.and_eq_true, Option.all_eq_true, List.all_eq_true]
  rfl

theorem TypeRef.exists_key {r : TypeRef} (h : r.isProper = true) : ∃ o, r.key? = .ok o := by
  cases r with
  | key k => exact ⟨some k, rfl⟩
  | other v => exact ⟨none, if_pos h⟩

/-- What the base list says beside what was declared. -/
theorem TypeSymbol.isProper_complete {s : TypeSymbol} (hs : s.isProper = true)
    {base : Option TypeRef} {interfaces : List TypeRef} (hbase : ∀ r ∈ base, r.isProper = true)
    (hinterfaces : ∀ r ∈ interfaces, r.isProper = true) {special : Option Special} :
    ({ s with
      base := s.baseOr base
      interfaces := s.interfaces ++ interfaces.filter (!s.interfaces.contains ·)
      special := special } : TypeSymbol).isProper = true := by
  rw [isProper_iff] at hs ⊢
  constructor
  · intro r hr
    have hr : s.baseOr base = some r := hr
    unfold baseOr at hr
    split at hr
    · exact hs.1 r hr
    · exact hbase r hr
  · intro r hr
    rcases List.mem_append.mp hr with hr | hr
    · exact hs.2 r hr
    · exact hinterfaces r (List.mem_of_mem_filter hr)

/-- A base list of references that can be looked up. -/
structure BaseList.Proper (l : BaseList) : Prop where
  base : ∀ r ∈ l.base, r.isProper = true
  interfaces : ∀ r ∈ l.interfaces, r.isProper = true

/-- What a base list is made of are keys. -/
theorem BaseList.Proper.add {l : BaseList} (h : l.Proper) (isClass : Bool)
    (entry : Option TypeSymbol) : (l.add isClass entry).Proper := by
  unfold BaseList.add
  split
  · exact h
  · next s =>
    split
    · refine ⟨h.base, ?_⟩
      intro r hr
      rcases List.mem_append.mp hr with hr | hr
      · exact h.interfaces r hr
      · rw [List.mem_singleton.mp hr]
        rfl
    · split
      · refine ⟨?_, h.interfaces⟩
        rintro _ ⟨rfl⟩
        rfl
      · exact h

namespace SymbolTable

/-- All that the types of the table derive from can be looked up. -/
structure Proper (T : SymbolTable) : Prop where
  types : ∀ key s, T.get? key = some s → s.isProper = true
  specials : ∀ word s, T.special? word = some s → s.isProper = true

theorem proper_empty : empty.Proper where
  types _ _ h := by cases h
  specials _ _ h := by cases h

theorem Proper.add {T : SymbolTable} (h : T.Proper) {s : TypeSymbol} (hs : s.isProper = true) :
    (T.add s).1.Proper := by
  obtain ⟨merged, hmerged, htypes, hspecials⟩ := add_fst T s
  have hproper : merged.isProper = true := by
    rcases hmerged with ⟨-, rfl⟩ | ⟨first, hfirst, rfl⟩
    · exact hs
    · obtain ⟨hbase, hinterfaces⟩ := s.isProper_iff.mp hs
      exact TypeSymbol.isProper_complete (h.types _ _ hfirst) hbase hinterfaces
  constructor
  · intro key t ht
    rw [get?, htypes] at ht
    by_cases hkey : key = merged.key
    · rw [hkey, lookup_upsert_self] at ht
      cases ht
      exact hproper
    · rw [lookup_upsert_of_ne hkey] at ht
      exact h.types key t ht
  · intro word t ht
    rw [special?, hspecials] at ht
    cases hspecial : merged.special with
    | none =>
      rw [hspecial] at ht
      exact h.specials word t ht
    | some word' =>
      rw [hspecial, Option.elim_some] at ht
      by_cases hword : word = word'
      · rw [hword, lookup_upsert_self] at ht
        cases ht
        exact hproper
      · rw [lookup_upsert_of_ne hword] at ht
        exact h.specials word t ht

/-- A type is known once it is added, and those known before still are. -/
theorem isSome_get?_add (T : SymbolTable) (s : TypeSymbol) {key : String}
    (h : (T.get? key).isSome = true ∨ key = s.key) : ((T.add s).1.get? key).isSome = true := by
  obtain ⟨merged, hmerged, htypes, -⟩ := add_fst T s
  rw [get?, htypes]
  by_cases hkey : key = merged.key
  · rw [hkey, lookup_upsert_self]
    rfl
  · rw [lookup_upsert_of_ne hkey]
    rcases h with h | rfl
    · exact h
    · -- a declaration that completes another has the key of a type in the table
      rcases hmerged with ⟨-, rfl⟩ | ⟨first, hfirst, -⟩
      · exact absurd rfl hkey
      · exact Option.isSome_of_eq_some hfirst

theorem isSome_get?_addAll {T : SymbolTable} {symbols : List TypeSymbol} {key : String}
    (h : (T.get? key).isSome = true ∨ ∃ s ∈ symbols, key = s.key) :
    ((T.addAll symbols).get? key).isSome = true := by
  induction symbols generalizing T with
  | nil =>
    rcases h with h | ⟨s, hs, -⟩
    · exact h
    · cases hs
  | cons s symbols ih =>
    refine ih ?_
    rcases h with h | ⟨t, ht, hkey⟩
    · exact .inl (T.isSome_get?_add s (.inl h))
    · rcases List.mem_cons.mp ht with rfl | ht
      · exact .inl (T.isSome_get?_add t (.inr hkey))
      · exact .inr ⟨t, ht, hkey⟩

theorem Proper.addAll {T : SymbolTable} (h : T.Proper) {symbols : List TypeSymbol}
    (hsymbols : ∀ s ∈ symbols, s.isProper = true) : (T.addAll symbols).Proper := by
  induction symbols generalizing T with
  | nil => exact h
  | cons s symbols ih =>
    refine ih (h.add (hsymbols s List.mem_cons_self)) fun t ht => ?_
    exact hsymbols t (List.mem_cons_of_mem s ht)

theorem Proper.complete {T : SymbolTable} (h : T.Proper) (key : String) {l : BaseList}
    (hl : l.Proper) : (T.complete key l).Proper := by
  constructor
  · intro k t ht
    unfold SymbolTable.complete at ht
    split at ht
    · exact h.types k t ht
    · next s hs =>
      by_cases hk : k = key
      · rw [hk, get?, lookup_upsert_self] at ht
        cases ht
        exact TypeSymbol.isProper_complete (h.types key s hs) hl.base hl.interfaces
      · rw [get?, lookup_upsert_of_ne hk] at ht
        exact h.types k t ht
  · intro word t ht
    rw [special?_complete] at ht
    exact h.specials word t ht

/-! ### Bases and interfaces -/

section Bases

variable {T : SymbolTable}

theorem Proper.find (hT : T.Proper) {r : TypeRef} (hr : r.isProper = true) :
    ∃ o, T.find r = .ok o ∧ ∀ s ∈ o, s.isProper = true := by
  obtain ⟨o, ho⟩ := TypeRef.exists_key hr
  refine ⟨o.bind T.get?, by rw [SymbolTable.find, ho]; rfl, ?_⟩
  intro s hs
  obtain ⟨key, -, hs⟩ := Option.bind_eq_some_iff.mp hs
  exact hT.types key s hs

/-- The way to the base classes comes to its end, and all types on it are proper. -/
structure Ancestry.Proper (a : Ancestry) : Prop where
  ends : a.fault = none
  types : ∀ s ∈ a.types, s.isProper = true

theorem Ancestry.proper_empty : Ancestry.Proper {} := ⟨rfl, by simp⟩

theorem Ancestry.Proper.after {a : Ancestry} (h : a.Proper) {s : TypeSymbol}
    (hs : s.isProper = true) : (a.after s).Proper := by
  refine ⟨h.ends, ?_⟩
  intro t ht
  rcases List.mem_cons.mp ht with rfl | ht
  · exact hs
  · exact h.types t ht

theorem Proper.basesFrom (hT : T.Proper) {seen : List String} {base : Option TypeRef}
    (hbase : ∀ r ∈ base, r.isProper = true) : (T.basesFrom seen base).Proper := by
  fun_induction SymbolTable.basesFrom T seen base with
  | case1 => exact Ancestry.proper_empty
  | case2 seen r fault hfind =>
    obtain ⟨o, ho, -⟩ := hT.find (hbase r rfl)
    rw [hfind] at ho
    cases ho
  | case3 => exact Ancestry.proper_empty
  | case4 => exact Ancestry.proper_empty
  | case5 seen r s hfind hseen ih =>
    obtain ⟨o, ho, hproper⟩ := hT.find (hbase r rfl)
    rw [hfind] at ho
    cases ho
    have hs := hproper s rfl
    exact (ih (s.isProper_iff.mp hs).1).after hs

theorem Proper.ancestry (hT : T.Proper) {s : TypeSymbol} (hs : s.isProper = true) :
    (T.ancestry s).Proper := (hT.basesFrom (s.isProper_iff.mp hs).1).after hs

theorem Proper.nested (hT : T.Proper) {container : TypeSymbol} (hc : container.isProper = true)
    (name : String) (arity : Int) :
    ∃ o, T.nested container name arity = .ok o ∧ ∀ s ∈ o, s.isProper = true := by
  unfold SymbolTable.nested Ancestry.findSome?
  rw [(hT.ancestry hc).ends]
  split
  · next _ found hfound =>
    refine ⟨some found, rfl, ?_⟩
    rintro _ ⟨rfl⟩
    obtain ⟨c, -, hc⟩ := List.exists_of_findSome?_eq_some hfound
    exact hT.types _ found hc
  · next hfault => cases hfault
  · exact ⟨none, rfl, by simp⟩

theorem Proper.interfacesFrom (hT : T.Proper) {reached : List (String × TypeSymbol)}
    {pending : List TypeRef} (hpending : ∀ r ∈ pending, r.isProper = true) :
    ∃ found, T.interfacesFrom reached pending = .ok found := by
  fun_induction SymbolTable.interfacesFrom T reached pending with
  | case1 reached => exact ⟨reached, rfl⟩
  | case2 reached r pending fault hkey =>
    obtain ⟨o, ho⟩ := TypeRef.exists_key (hpending r List.mem_cons_self)
    rw [hkey] at ho
    cases ho
  | case3 reached r pending _ ih => exact ih fun t ht => hpending t (List.mem_cons_of_mem r ht)
  | case4 reached r pending key _ _ ih =>
    exact ih fun t ht => hpending t (List.mem_cons_of_mem r ht)
  | case5 reached r pending key _ _ _ ih =>
    exact ih fun t ht => hpending t (List.mem_cons_of_mem r ht)
  | case6 reached r pending key _ _ s hs ih =>
    -- what a type of the table extends is proper, as all that the table holds
    refine ih fun t ht => ?_
    rcases List.mem_append.mp ht with ht | ht
    · exact (s.isProper_iff.mp (hT.types key s hs)).2 t (List.mem_reverse.mp ht)
    · exact hpending t (List.mem_cons_of_mem r ht)

theorem Proper.baseChain (hT : T.Proper) {s : TypeSymbol} (hs : s.isProper = true) :
    ∃ chain, T.baseChain s = .ok chain ∧ ∀ t ∈ chain, t.isProper = true := by
  obtain ⟨hfault, htypes⟩ := hT.ancestry hs
  exact ⟨(T.ancestry s).types, by rw [SymbolTable.baseChain, Ancestry.all, hfault], htypes⟩

theorem Proper.allInterfaces (hT : T.Proper) {s : TypeSymbol} (hs : s.isProper = true) :
    ∃ found, T.allInterfaces s = .ok found := by
  obtain ⟨chain, hchain, htypes⟩ := hT.baseChain hs
  have hdeclared : ∀ r ∈ (chain.flatMap (·.interfaces)).reverse, r.isProper = true := by
    intro r hr
    obtain ⟨t, ht, hr⟩ := List.mem_flatMap.mp (List.mem_reverse.mp hr)
    exact (t.isProper_iff.mp (htypes t ht)).2 r hr
  obtain ⟨found, hfound⟩ : ∃ found, T.interfacesFrom [] _ = .ok found :=
    hT.interfacesFrom hdeclared
  refine ⟨found.map (·.2), ?_⟩
  unfold SymbolTable.allInterfaces
  rw [hchain]
  show (T.interfacesFrom [] _ >>= fun found => pure (found.map (·.2))) = _
  rw [hfound]
  rfl

theorem Proper.implements (hT : T.Proper) {s : TypeSymbol} (hs : s.isProper = true)
    (space name : String) : ∃ b, T.implements s space name = .ok b := by
  obtain ⟨found, hfound⟩ := hT.allInterfaces hs
  refine ⟨found.any fun i => i.namespaceName == space && i.name == name && i.containing.isNone, ?_⟩
  rw [SymbolTable.implements, hfound]
  rfl

end Bases

end SymbolTable

/-! ## Members -/

/-- All that a target derives from can be looked up. -/
def Target.Proper : Target → Prop
  | type s => s.isProper = true
  | space _ => True

/-- What was found, if anything, is proper. -/
def FoundProper (o : Option Target) : Prop := ∀ t ∈ o, t.Proper

theorem foundProper_none : FoundProper none := by simp [FoundProper]

namespace SymbolTable

variable {T : SymbolTable}

theorem Proper.inNamespace (hT : T.Proper) (space name : String) (arity : Nat) :
    FoundProper (T.inNamespace? space name arity) := by
  intro t ht
  unfold inNamespace? at ht
  split at ht
  · next s hs =>
    cases ht
    exact hT.types _ s hs
  · split at ht
    · cases ht
      trivial
    · cases ht

theorem Proper.member (hT : T.Proper) {target : Target} (htarget : target.Proper) (name : String)
    (arity : Nat) : ∃ o, T.member target name arity = .ok o ∧ FoundProper o := by
  cases target with
  | space space => exact ⟨_, rfl, hT.inNamespace space name arity⟩
  | type s =>
    obtain ⟨o, ho, hproper⟩ := hT.nested htarget name arity
    refine ⟨o.map .type, by rw [SymbolTable.member, ho]; rfl, ?_⟩
    intro t ht
    obtain ⟨s, hs, rfl⟩ := Option.map_eq_some_iff.mp ht
    exact hproper s hs

theorem Proper.follow (hT : T.Proper) {target : Option Target} (htarget : FoundProper target)
    (segments : List (String × Nat)) :
    ∃ o, T.follow target segments = .ok o ∧ FoundProper o := by
  induction segments generalizing target with
  | nil => exact ⟨target, rfl, htarget⟩
  | cons segment segments ih =>
    obtain ⟨name, arity⟩ := segment
    cases target with
    | none => exact ⟨none, rfl, foundProper_none⟩
    | some target =>
      obtain ⟨next, hnext, hproper⟩ := hT.member (htarget target rfl) name arity
      obtain ⟨o, ho, hfound⟩ := ih hproper
      refine ⟨o, ?_, hfound⟩
      rw [SymbolTable.follow, hnext]
      exact ho

end SymbolTable

/-! ## The default references -/

theorem Defaults.table_proper : table.Proper := by
  refine SymbolTable.proper_empty.addAll (List.all_eq_true.mp ?_)
  decide +kernel

end NullableMarker
