import NullableMarker.Proofs.BoundDirectives
import NullableMarker.Proofs.DeclaredTables

/-!
# Tables with some base lists filled in

While base lists are resolved one after the other, the table holds some types as they were declared
and others as they will be in the end. A lookup that walks the base classes of a type may come to
one that has none yet. If in the end no type of the unit inherits a nested type, such a lookup finds
the same in all these tables.

* `SymbolTable.basesFrom_congr`, `SymbolTable.implements_congr` — walks over tables that agree
* `Completion` — a table of declared types, and what it is completed to
* `Completion.Between.alike` — what is found in the tables between them
-/

namespace NullableMarker

/-! ## Walks -/

namespace SymbolTable

variable {T U : SymbolTable}

theorem basesFrom_none (T : SymbolTable) (seen : List String) : T.basesFrom seen none = {} := by
  rw [basesFrom]

theorem basesFrom_some (T : SymbolTable) (seen : List String) (r : TypeRef) :
    T.basesFrom seen (some r)
      = match T.find r with
        | .error fault => { fault := some fault }
        | .ok none => {}
        | .ok (some s) =>
          if seen.contains s.key then {} else (T.basesFrom (s.key :: seen) s.base).after s := by
  rw [basesFrom]
  split
  · next hfind => rw [hfind]
  · next hfind => rw [hfind]
  · next s hfind =>
    rw [hfind]
    rfl

theorem exists_key_of_find {r : TypeRef} {s : TypeSymbol} (h : T.find r = .ok (some s)) :
    ∃ key, r = .key key ∧ T.get? key = some s := by
  cases r with
  | key key => exact ⟨key, rfl, Except.ok.inj h⟩
  | other v =>
    unfold SymbolTable.find TypeRef.key? at h
    dsimp only at h
    split at h <;> cases h

theorem find_congr {r : TypeRef} (h : ∀ key, r = .key key → T.get? key = U.get? key) :
    T.find r = U.find r := by
  cases r with
  | key key => exact congrArg Except.ok (h key rfl)
  | other v =>
    unfold SymbolTable.find TypeRef.key?
    dsimp only
    split <;> rfl

/-- Tables in which the same is found on the way have the same way to base classes. -/
theorem basesFrom_congr {P : TypeRef → Prop} (hfind : ∀ r, P r → T.find r = U.find r)
    (hbase : ∀ r s, P r → U.find r = .ok (some s) → ∀ r' ∈ s.base, P r') {seen : List String}
    {base : Option TypeRef} (h : ∀ r ∈ base, P r) :
    T.basesFrom seen base = U.basesFrom seen base := by
  fun_induction SymbolTable.basesFrom U seen base with
  | case1 seen => exact basesFrom_none T seen
  | case2 seen r fault hU => rw [basesFrom_some, hfind r (h r rfl), hU]
  | case3 seen r hU => rw [basesFrom_some, hfind r (h r rfl), hU]
  | case4 seen r s hU hseen =>
    rw [basesFrom_some, hfind r (h r rfl), hU]
    exact if_pos hseen
  | case5 seen r s hU hseen ih =>
    rw [basesFrom_some, hfind r (h r rfl), hU, ← ih (hbase r s (h r rfl) hU)]
    exact if_neg hseen

theorem interfacesFrom_congr (h : ∀ key, T.get? key = U.get? key)
    (reached : List (String × TypeSymbol)) (pending : List TypeRef) :
    T.interfacesFrom reached pending = U.interfacesFrom reached pending := by
  fun_induction SymbolTable.interfacesFrom U reached pending with
  | case1 reached => rw [interfacesFrom]
  | case2 reached r pending fault hkey => rw [interfacesFrom, hkey]
  | case3 reached r pending hkey ih =>
    rw [interfacesFrom, hkey]
    exact ih
  | case4 reached r pending key hkey hreached ih =>
    rw [interfacesFrom, hkey]
    exact (dif_pos hreached).trans ih
  | case5 reached r pending key hkey hreached hnone ih =>
    rw [interfacesFrom, hkey]
    dsimp only
    rw [dif_neg hreached]
    split
    · exact ih
    · next s hs =>
      rw [h, hnone] at hs
      cases hs
  | case6 reached r pending key hkey hreached s hs ih =>
    rw [interfacesFrom, hkey]
    dsimp only
    rw [dif_neg hreached]
    split
    · next hnone =>
      rw [h, hs] at hnone
      cases hnone
    · next t ht =>
      rw [h, hs] at ht
      cases ht
      exact ih

theorem baseChain_congr (h : ∀ key, T.get? key = U.get? key) (s : TypeSymbol) :
    T.baseChain s = U.baseChain s := by
  have hfind : ∀ r, T.find r = U.find r := fun r => find_congr fun key _ => h key
  rw [baseChain, baseChain, ancestry, ancestry,
    basesFrom_congr (P := fun _ => True) (fun r _ => hfind r) (fun _ _ _ _ _ _ => trivial)
      fun _ _ => trivial]

theorem allInterfaces_congr (h : ∀ key, T.get? key = U.get? key) (s : TypeSymbol) :
    T.allInterfaces s = U.allInterfaces s := by
  rw [allInterfaces, allInterfaces, baseChain_congr h]
  simp only [interfacesFrom_congr h]

theorem implements_congr (h : ∀ key, T.get? key = U.get? key) (s : TypeSymbol)
    (space name : String) : T.implements s space name = U.implements s space name := by
  rw [SymbolTable.implements, SymbolTable.implements, allInterfaces_congr h]

namespace Ancestry

theorem findSome?_after {α : Type} (a : Ancestry) (s : TypeSymbol) (f : TypeSymbol → Option α) :
    (a.after s).findSome? f
      = match f s with
        | some found => .ok (some found)
        | none => a.findSome? f := by
  unfold findSome? after
  rw [List.findSome?_cons]
  cases f s with
  | some found => rfl
  | none => rfl

/-- What is found on one way, among types that are alike. -/
theorem agrees_findSome? {like : TypeSymbol → TypeSymbol → Prop} (a : Ancestry)
    {f g : TypeSymbol → Option TypeSymbol} (hfg : ∀ c, Option.Rel like (f c) (g c)) :
    Agrees (Option.Rel like) (a.findSome? f) (a.findSome? g) := by
  have hrel : Option.Rel like (a.types.findSome? f) (a.types.findSome? g) := by
    induction a.types with
    | nil => exact .none
    | cons c cs ih =>
      rw [List.findSome?_cons, List.findSome?_cons]
      have hc := hfg c
      generalize f c = o at hc
      generalize g c = o' at hc
      cases hc with
      | some h => exact .some h
      | none => exact ih
  unfold findSome?
  generalize a.types.findSome? f = o at hrel
  generalize a.types.findSome? g = o' at hrel
  cases hrel with
  | some h => exact .ok (.some h)
  | none =>
    cases a.fault with
    | some fault => exact .error fault
    | none => exact .ok .none

end Ancestry

/-- A type without a base class has only the nested types of its own. -/
theorem nested_of_base_none {s : TypeSymbol} (hs : s.base = none) (T : SymbolTable) (name : String)
    (arity : Int) :
    T.nested s name arity = .ok (T.get? (s.key ++ "." ++ metadataName name arity)) := by
  unfold nested ancestry
  rw [hs, basesFrom_none, Ancestry.findSome?_after]
  split
  · next hfound => rw [hfound]
  · next hnone => rw [hnone]; rfl

end SymbolTable

/-! ## Declared types and their completion -/

/-- `D` holds types as they are declared and `F` holds them as they are in the end, those with keys
in `keys` with their bases filled in. No other type derives from one of these, and none of these
inherits a nested type. -/
structure Completion (keys : List String) (D F : SymbolTable) : Prop where
  base : ∀ s, (∃ key, D.get? key = some s) ∨ (∃ word, D.special? word = some s) →
    ∀ key, s.base = some (.key key) → key ∉ keys
  declared : ∀ key ∈ keys, ∃ s t, D.get? key = some s ∧ s.base = none ∧ F.get? key = some t
    ∧ s.SameOutline t
  others : ∀ key, key ∉ keys → F.get? key = D.get? key
  nested : ∀ key ∈ keys, ∀ t, F.get? key = some t → ∀ name arity,
    F.nested t name arity = .ok (F.get? (t.key ++ "." ++ metadataName name arity))

namespace Completion

variable {keys : List String} {D F T : SymbolTable}

/-- The first type is the second, or what it is completed to. -/
inductive Like (keys : List String) (D F : SymbolTable) : TypeSymbol → TypeSymbol → Prop
  | same {s : TypeSymbol} (hbase : ∀ key, s.base = some (.key key) → key ∉ keys) : Like keys D F s s
  | completed {key : String} {s t : TypeSymbol} (hkey : key ∈ keys) (hs : F.get? key = some s)
      (ht : D.get? key = some t) : Like keys D F s t

/-- A table in which the bases of some types are filled in. -/
structure Between (keys : List String) (D F T : SymbolTable) : Prop where
  get? : ∀ key, T.get? key = D.get? key ∨ key ∈ keys ∧ T.get? key = F.get? key
  special? : ∀ word, T.special? word = D.special? word
  hasNamespace : ∀ name, T.hasNamespace name = D.hasNamespace name

theorem Like.sameOutline (h : Completion keys D F) {s t : TypeSymbol} (hs : Like keys D F s t) :
    t.SameOutline s := by
  cases hs with
  | same _ => exact .refl s
  | completed hkey hs ht =>
    obtain ⟨s', t', hs', -, ht', houtline⟩ := h.declared _ hkey
    obtain rfl := Option.some.inj (ht.symm.trans hs')
    obtain rfl := Option.some.inj (hs.symm.trans ht')
    exact houtline

namespace Between

theorem rel_get? (h : Completion keys D F) (hT : Between keys D F T) (key : String) :
    Option.Rel (Like keys D F) (T.get? key) (D.get? key) := by
  rcases hT.get? key with heq | ⟨hkey, heq⟩
  · rw [heq]
    cases hs : D.get? key with
    | none => exact .none
    | some s => exact .some (.same (h.base s (.inl ⟨key, hs⟩)))
  · obtain ⟨s, t, hs, -, ht, -⟩ := h.declared key hkey
    rw [heq, hs, ht]
    exact .some (.completed hkey ht hs)

/-- The way from a type that derives from none of the types to complete is the same in all
tables. -/
theorem basesFrom_eq (h : Completion keys D F) (hT : Between keys D F T) {seen : List String}
    {base : Option TypeRef} (hbase : ∀ key, base = some (.key key) → key ∉ keys) :
    T.basesFrom seen base = D.basesFrom seen base := by
  refine SymbolTable.basesFrom_congr (P := fun r => ∀ key, r = .key key → key ∉ keys) ?_ ?_ ?_
  · intro r hr
    refine SymbolTable.find_congr fun key heq => ?_
    rcases hT.get? key with hget | ⟨hkey, -⟩
    · exact hget
    · exact absurd hkey (hr key heq)
  · rintro r s - hs r' hr' key rfl
    obtain ⟨k, -, hk⟩ := SymbolTable.exists_key_of_find hs
    exact h.base s (.inl ⟨k, hk⟩) key hr'
  · rintro r hr key rfl
    exact hbase key hr

/-- A type that is found is the one found in the end, or has no base yet. -/
theorem find_final (h : Completion keys D F) (hT : Between keys D F T) {r : TypeRef}
    {t : TypeSymbol} (ht : T.find r = .ok (some t)) :
    ∃ f, F.find r = .ok (some f) ∧ f.key = t.key ∧ (f = t ∨ t.base = none) := by
  obtain ⟨key, rfl, hget⟩ := SymbolTable.exists_key_of_find ht
  by_cases hkey : key ∈ keys
  · obtain ⟨s, f, hs, hbase, hf, houtline⟩ := h.declared key hkey
    refine ⟨f, congrArg Except.ok hf, ?_⟩
    rcases hT.get? key with heq | ⟨-, heq⟩
    · obtain rfl : s = t := Option.some.inj (hs.symm.trans (heq.symm.trans hget))
      exact ⟨houtline.key_eq, .inr hbase⟩
    · obtain rfl : f = t := Option.some.inj (hf.symm.trans (heq.symm.trans hget))
      exact ⟨rfl, .inl rfl⟩
  · have hfinal : F.get? key = some t := by
      rw [h.others key hkey, ← hget]
      rcases hT.get? key with heq | ⟨hmem, -⟩
      · exact heq.symm
      · exact absurd hmem hkey
    exact ⟨t, congrArg Except.ok hfinal, rfl, .inl rfl⟩

theorem get?_eq_none_iff (h : Completion keys D F) (hT : Between keys D F T) {key : String} :
    T.get? key = none ↔ F.get? key = none := by
  have hD : D.get? key = none ↔ F.get? key = none := by
    by_cases hkey : key ∈ keys
    · obtain ⟨_, _, hs, -, ht, -⟩ := h.declared key hkey
      rw [hs, ht]
      simp
    · rw [h.others key hkey]
  rcases hT.get? key with heq | ⟨-, heq⟩
  · rw [heq]
    exact hD
  · rw [heq]

/-- What is not found on the whole way is not found on a part of it. -/
theorem findSome?_none (h : Completion keys D F) (hT : Between keys D F T) {name : String}
    {arity : Int} {seen : List String} {base : Option TypeRef}
    (hF : (F.basesFrom seen base).findSome? (fun c =>
      F.get? (c.key ++ "." ++ metadataName name arity)) = .ok none) :
    (T.basesFrom seen base).findSome? (fun c =>
      T.get? (c.key ++ "." ++ metadataName name arity)) = .ok none := by
  fun_induction SymbolTable.basesFrom T seen base with
  | case1 seen => rfl
  | case2 seen r fault hfind =>
    have hfinal : F.find r = .error fault := by
      rw [← hfind]
      refine SymbolTable.find_congr ?_
      rintro key rfl
      cases hfind
    rw [SymbolTable.basesFrom_some, hfinal] at hF
    cases hF
  | case3 seen r hfind => rfl
  | case4 seen r t hfind hseen => rfl
  | case5 seen r t hfind hseen ih =>
    obtain ⟨f, hf, hkey, hbase⟩ := hT.find_final h hfind
    rw [SymbolTable.basesFrom_some, hf] at hF
    dsimp only at hF
    rw [hkey, if_neg hseen, SymbolTable.Ancestry.findSome?_after] at hF
    split at hF
    · cases hF
    · next hnone =>
      rw [hkey] at hnone
      rw [SymbolTable.Ancestry.findSome?_after, (hT.get?_eq_none_iff h).mpr hnone]
      dsimp only
      rcases hbase with rfl | hbase
      · exact ih hF
      · rw [hbase, SymbolTable.basesFrom_none]
        rfl

/-- A completed type inherits no nested type in a table between. -/
theorem nested_completed (h : Completion keys D F) (hT : Between keys D F T) {key : String}
    (hkey : key ∈ keys) {t : TypeSymbol} (ht : F.get? key = some t) (name : String) (arity : Int) :
    T.nested t name arity = .ok (T.get? (t.key ++ "." ++ metadataName name arity)) := by
  have hF := h.nested key hkey t ht name arity
  unfold SymbolTable.nested SymbolTable.ancestry at hF ⊢
  rw [SymbolTable.Ancestry.findSome?_after] at hF ⊢
  split
  · next hfound => rw [hfound]
  · next hnone =>
    have hnone' := (hT.get?_eq_none_iff h).mp hnone
    rw [hnone'] at hF
    rw [hnone]
    exact hT.findSome?_none h hF

/-- The types of a table between are the declared ones, up to bases that are filled in. -/
theorem alike (h : Completion keys D F) (hT : Between keys D F T) :
    T.Alike (Like keys D F) D where
  get? := hT.rel_get? h
  special? word := by
    rw [hT.special? word]
    cases hs : D.special? word with
    | none => exact .none
    | some s => exact .some (.same (h.base s (.inr ⟨word, hs⟩)))
  hasNamespace := hT.hasNamespace
  nested := by
    intro s t hs name arity
    have hsame := hs.sameOutline h
    cases hs with
    | same hbase =>
      unfold SymbolTable.nested SymbolTable.ancestry
      rw [hT.basesFrom_eq h hbase]
      exact SymbolTable.Ancestry.agrees_findSome? _ fun c => hT.rel_get? h _
    | completed hkey hs ht =>
      obtain ⟨t', -, ht', hbase, -⟩ := h.declared _ hkey
      obtain rfl := Option.some.inj (ht.symm.trans ht')
      rw [hT.nested_completed h hkey hs, SymbolTable.nested_of_base_none hbase, hsame.key_eq]
      exact .ok (hT.rel_get? h _)

end Between

end Completion

end NullableMarker
