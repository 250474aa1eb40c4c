import NullableMarker.Proofs.PartialTables

/-!
# Base classes and interfaces as relations

Types may derive from one another in a circle, or from a type that no table has. The walk to the base
classes stops at the first that is missing or was met before, and the walk over the interfaces passes
over what it has reached. So both come to an end, and what they find can be said without them: the way
to the base classes is the only list of types with certain links and a certain end, and the interfaces
are the types with keys that can be reached.

* `SymbolTable.IsBaseChain` — a type followed by its base classes
* `SymbolTable.Reaches` — the keys that can be reached through interfaces
* `SymbolTable.Explored` — what is done, what is pending and what cannot be reached
* `SymbolTable.closure_exact` — what is found in a table without references that cannot be looked up
-/

namespace NullableMarker

/-- Only keys are looked up. -/
theorem TypeRef.eq_key {r : TypeRef} {key : String} (h : r.key? = .ok (some key)) :
    r = .key key := by
  cases r with
  | key k => exact congrArg TypeRef.key (Option.some.inj (Except.ok.inj h))
  | other v =>
    unfold key? at h
    dsimp only at h
    split at h <;> cases h

namespace SymbolTable

variable {T : SymbolTable}

/-! ## Base classes -/

/-- The base class of a type, if it has one and the table knows it. -/
def baseOf (T : SymbolTable) (s : TypeSymbol) : Except BadReference (Option TypeSymbol) :=
  match s.base with
  | none => .ok none
  | some r => T.find r

/-- A type followed by its base class, the base class of that, and so on, up to the first that is
missing or has a key that came before. -/
structure IsBaseChain (T : SymbolTable) (s : TypeSymbol) (chain : List TypeSymbol) : Prop where
  head : chain.head? = some s
  distinct : (chain.map (·.key)).Nodup
  linked : chain.IsChain fun a b => T.baseOf a = .ok (some b)
  ends : ∀ last ∈ chain.getLast?,
    ∃ o, T.baseOf last = .ok o ∧ ∀ b ∈ o, b.key ∈ chain.map (·.key)

/-- Base classes that go on from a type, none of them with a key that was seen. -/
structure GoesOn (T : SymbolTable) (seen : List String) (s : TypeSymbol) (l : List TypeSymbol) :
    Prop where
  distinct : (l.map (·.key)).Nodup
  fresh : ∀ c ∈ l, c.key ∉ seen
  linked : (s :: l).IsChain fun a b => T.baseOf a = .ok (some b)
  ends : ∀ last ∈ (s :: l).getLast?,
    ∃ o, T.baseOf last = .ok o ∧ ∀ b ∈ o, b.key ∈ seen ∨ b.key ∈ l.map (·.key)

theorem basesFrom_base (seen : List String) (s : TypeSymbol) :
    T.basesFrom seen s.base
      = match T.baseOf s with
        | .error fault => { fault := some fault }
        | .ok none => {}
        | .ok (some b) =>
          if seen.contains b.key then {} else (T.basesFrom (b.key :: seen) b.base).after b := by
  unfold baseOf
  cases s.base with
  | none => exact basesFrom_none T seen
  | some r => exact basesFrom_some T seen r

theorem goesOn_nil_iff {seen : List String} {s : TypeSymbol} :
    T.GoesOn seen s [] ↔ ∃ o, T.baseOf s = .ok o ∧ ∀ b ∈ o, b.key ∈ seen := by
  constructor
  · intro h
    obtain ⟨o, ho, hseen⟩ := h.ends s rfl
    exact ⟨o, ho, fun b hb => (hseen b hb).resolve_right List.not_mem_nil⟩
  · rintro ⟨o, ho, hseen⟩
    refine ⟨List.nodup_nil, fun _ hc => absurd hc List.not_mem_nil, .singleton s, ?_⟩
    rintro _ ⟨rfl⟩
    exact ⟨o, ho, fun b hb => .inl (hseen b hb)⟩

theorem goesOn_cons_iff {seen : List String} {s c : TypeSymbol} {l : List TypeSymbol} :
    T.GoesOn seen s (c :: l)
      ↔ T.baseOf s = .ok (some c) ∧ c.key ∉ seen ∧ T.GoesOn (c.key :: seen) c l := by
  have hlast : (s :: c :: l).getLast? = (c :: l).getLast? := List.getLast?_cons_cons
  constructor
  · intro h
    obtain ⟨hfirst, hlinked⟩ := List.isChain_cons_cons.mp h.linked
    obtain ⟨hnew, hdistinct⟩ := List.nodup_cons.mp h.distinct
    refine ⟨hfirst, h.fresh c List.mem_cons_self, hdistinct, fun d hd hseen => ?_, hlinked, ?_⟩
    · rcases List.mem_cons.mp hseen with hkey | hseen
      · exact hnew (List.mem_map.mpr ⟨d, hd, hkey⟩)
      · exact h.fresh d (List.mem_cons_of_mem c hd) hseen
    · intro last hmem
      obtain ⟨o, ho, hend⟩ := h.ends last (hlast ▸ hmem)
      refine ⟨o, ho, fun b hb => ?_⟩
      rcases hend b hb with hseen | hkey
      · exact .inl (List.mem_cons_of_mem _ hseen)
      · rcases List.mem_cons.mp hkey with hkey | hkey
        · exact .inl (hkey ▸ List.mem_cons_self)
        · exact .inr hkey
  · rintro ⟨hfirst, hfresh, h⟩
    refine ⟨List.nodup_cons.mpr ⟨?_, h.distinct⟩, ?_, List.isChain_cons_cons.mpr ⟨hfirst, h.linked⟩, ?_⟩
    · intro hmem
      obtain ⟨d, hd, hkey⟩ := List.mem_map.mp hmem
      exact h.fresh d hd (hkey ▸ List.mem_cons_self)
    · intro d hd hseen
      rcases List.mem_cons.mp hd with rfl | hd
      · exact hfresh hseen
      · exact h.fresh d hd (List.mem_cons_of_mem _ hseen)
    · intro last hmem
      obtain ⟨o, ho, hend⟩ := h.ends last (hlast ▸ hmem)
      refine ⟨o, ho, fun b hb => ?_⟩
      rcases hend b hb with hseen | hkey
      · rcases List.mem_cons.mp hseen with hkey | hseen
        · exact .inr (hkey ▸ List.mem_cons_self)
        · exact .inl hseen
      · exact .inr (List.mem_cons_of_mem _ hkey)

/-- The walk to the base classes finds the types that go on from the first, and no others. -/
theorem basesFrom_eq_iff {seen : List String} {s : TypeSymbol} {l : List TypeSymbol} :
    T.basesFrom seen s.base = ⟨l, none⟩ ↔ T.GoesOn seen s l := by
  induction l generalizing seen s with
  | nil =>
    rw [basesFrom_base, goesOn_nil_iff]
    cases T.baseOf s with
    | error fault => simp
    | ok o =>
      cases o with
      | none => simp
      | some b => by_cases hseen : b.key ∈ seen <;> simp [hseen, Ancestry.after]
  | cons c l ih =>
    rw [basesFrom_base, goesOn_cons_iff]
    cases T.baseOf s with
    | error fault => simp
    | ok o =>
      cases o with
      | none => simp
      | some b =>
        by_cases hseen : b.key ∈ seen
        · simp only [List.contains_eq_mem, hseen, decide_true, if_true]
          refine iff_of_false (by simp) ?_
          rintro ⟨heq, hfresh, -⟩
          cases heq
          exact hfresh hseen
        · have hafter : ∀ a : Ancestry, a.after b = ⟨c :: l, none⟩ ↔ b = c ∧ a = ⟨l, none⟩ := by
            rintro ⟨types, fault⟩
            simp [Ancestry.after, and_assoc]
          simp only [List.contains_eq_mem, hseen, decide_false, Bool.false_eq_true, if_false, hafter]
          constructor
          · rintro ⟨rfl, h⟩
            exact ⟨rfl, hseen, ih.mp h⟩
          · rintro ⟨heq, -, h⟩
            cases heq
            exact ⟨rfl, ih.mpr h⟩

theorem isBaseChain_cons_iff {s c : TypeSymbol} {l : List TypeSymbol} :
    T.IsBaseChain s (c :: l) ↔ c = s ∧ T.GoesOn [s.key] s l := by
  constructor
  · intro h
    obtain rfl := Option.some.inj h.head
    obtain ⟨hnew, hdistinct⟩ := List.nodup_cons.mp h.distinct
    refine ⟨rfl, hdistinct, fun d hd hkey => ?_, h.linked, fun last hlast => ?_⟩
    · exact hnew (List.mem_map.mpr ⟨d, hd, List.mem_singleton.mp hkey⟩)
    · obtain ⟨o, ho, hend⟩ := h.ends last hlast
      refine ⟨o, ho, fun b hb => ?_⟩
      rcases List.mem_cons.mp (hend b hb) with hkey | hkey
      · exact .inl (List.mem_singleton.mpr hkey)
      · exact .inr hkey
  · rintro ⟨rfl, h⟩
    refine ⟨rfl, List.nodup_cons.mpr ⟨fun hmem => ?_, h.distinct⟩, h.linked, fun last hlast => ?_⟩
    · obtain ⟨d, hd, hkey⟩ := List.mem_map.mp hmem
      exact h.fresh d hd (List.mem_singleton.mpr hkey)
    · obtain ⟨o, ho, hend⟩ := h.ends last hlast
      refine ⟨o, ho, fun b hb => ?_⟩
      rcases hend b hb with hkey | hkey
      · exact List.mem_cons.mpr (.inl (List.mem_singleton.mp hkey))
      · exact List.mem_cons_of_mem _ hkey

/-- A list is the way from a type to its base classes exactly if it has the links and the end of
one. -/
theorem baseChain_eq_ok_iff {s : TypeSymbol} {chain : List TypeSymbol} :
    T.baseChain s = .ok chain ↔ T.IsBaseChain s chain := by
  have hall : T.baseChain s = .ok chain ↔ T.ancestry s = ⟨chain, none⟩ := by
    unfold baseChain Ancestry.all
    generalize T.ancestry s = a
    obtain ⟨types, fault⟩ := a
    cases fault <;> simp
  rw [hall, ancestry]
  cases chain with
  | nil => exact iff_of_false (by simp [Ancestry.after]) fun h => by cases h.head
  | cons c l =>
    rw [isBaseChain_cons_iff, ← basesFrom_eq_iff]
    generalize T.basesFrom [s.key] s.base = a
    obtain ⟨types, fault⟩ := a
    simp only [Ancestry.after, Ancestry.mk.injEq, List.cons.injEq]
    rw [and_assoc, eq_comm]

/-- A nested type is looked for in one type of the way after the other. -/
theorem nested_of_baseChain {s : TypeSymbol} {chain : List TypeSymbol}
    (h : T.baseChain s = .ok chain) (name : String) (arity : Int) :
    T.nested s name arity
      = .ok (chain.findSome? fun c => T.get? (c.key ++ "." ++ metadataName name arity)) := by
  unfold baseChain Ancestry.all at h
  unfold nested Ancestry.findSome?
  split at h
  · cases h
  · next hfault =>
    cases h
    rw [hfault]
    cases (T.ancestry s).types.findSome? _ <;> rfl

/-! ## Interfaces -/

/-- The keys that can be reached from some references through the interfaces of types that the table
knows. A key that is reached need not be known itself. -/
inductive Reaches (T : SymbolTable) (start : List TypeRef) : String → Prop
  | start {key : String} (h : .key key ∈ start) : Reaches T start key
  | step {key next : String} {s : TypeSymbol} (h : Reaches T start key)
      (hs : T.get? key = some s) (hnext : .key next ∈ s.interfaces) : Reaches T start next

/-- How far the walk over the interfaces has come. What was reached is known and can be reached, and
so can what is pending; what is known and can be reached next was reached or is pending. -/
structure Explored (T : SymbolTable) (start : List TypeRef) (reached : List (String × TypeSymbol))
    (pending : List TypeRef) : Prop where
  distinct : (reached.map (·.1)).Nodup
  known : ∀ e ∈ reached, T.get? e.1 = some e.2
  reached_reaches : ∀ e ∈ reached, T.Reaches start e.1
  pending_reaches : ∀ key, .key key ∈ pending → T.Reaches start key
  start_done : ∀ key, .key key ∈ start → (T.get? key).isSome = true →
    key ∈ reached.map (·.1) ∨ .key key ∈ pending
  next_done : ∀ e ∈ reached, ∀ key, .key key ∈ e.2.interfaces → (T.get? key).isSome = true →
    key ∈ reached.map (·.1) ∨ .key key ∈ pending

namespace Explored

variable {start : List TypeRef} {reached : List (String × TypeSymbol)} {pending : List TypeRef}
  {r : TypeRef} {key : String} {s : TypeSymbol}

theorem initial (h : ∀ r, r ∈ pending ↔ r ∈ start) : T.Explored start [] pending where
  distinct := List.nodup_nil
  known _ he := absurd he List.not_mem_nil
  reached_reaches _ he := absurd he List.not_mem_nil
  pending_reaches _ hkey := .start ((h _).mp hkey)
  start_done _ hkey _ := .inr ((h _).mpr hkey)
  next_done _ he := absurd he List.not_mem_nil

/-- A pending reference is passed over if it is no key, or if its key is missing or was reached. -/
theorem pass (h : T.Explored start reached (r :: pending))
    (hr : ∀ key, r = .key key → (T.get? key).isSome = true → key ∈ reached.map (·.1)) :
    T.Explored start reached pending where
  distinct := h.distinct
  known := h.known
  reached_reaches := h.reached_reaches
  pending_reaches key hkey := h.pending_reaches key (List.mem_cons_of_mem r hkey)
  start_done key hkey hknown := by
    rcases h.start_done key hkey hknown with hdone | hpending
    · exact .inl hdone
    · rcases List.mem_cons.mp hpending with heq | hpending
      · exact .inl (hr key heq.symm hknown)
      · exact .inr hpending
  next_done e he key hkey hknown := by
    rcases h.next_done e he key hkey hknown with hdone | hpending
    · exact .inl hdone
    · rcases List.mem_cons.mp hpending with heq | hpending
      · exact .inl (hr key heq.symm hknown)
      · exact .inr hpending

/-- A type is reached, and what it extends is pending from then on. -/
theorem visit (h : T.Explored start reached (.key key :: pending)) (hnew : key ∉ reached.map (·.1))
    (hs : T.get? key = some s) :
    T.Explored start (reached ++ [(key, s)]) (s.interfaces.reverse ++ pending) := by
  have hreaches := h.pending_reaches key List.mem_cons_self
  -- what was done or pending before still is, the key itself being done now
  have hdone : ∀ k, k ∈ reached.map (·.1) ∨ .key k ∈ TypeRef.key key :: pending →
      k ∈ (reached ++ [(key, s)]).map (·.1) ∨ .key k ∈ s.interfaces.reverse ++ pending := by
    rintro k (hk | hk)
    · exact .inl (by simp [hk])
    · rcases List.mem_cons.mp hk with heq | hk
      · cases heq
        exact .inl (by simp)
      · exact .inr (List.mem_append_right _ hk)
  constructor
  · rw [List.map_append, List.map_singleton, List.nodup_append]
    refine ⟨h.distinct, List.nodup_singleton _, ?_⟩
    rintro k hk _ hkey rfl
    obtain rfl := List.mem_singleton.mp hkey
    exact hnew hk
  · intro e he
    rcases List.mem_append.mp he with he | he
    · exact h.known e he
    · rw [List.mem_singleton.mp he]
      exact hs
  · intro e he
    rcases List.mem_append.mp he with he | he
    · exact h.reached_reaches e he
    · rw [List.mem_singleton.mp he]
      exact hreaches
  · intro k hk
    rcases List.mem_append.mp hk with hk | hk
    · exact hreaches.step hs (List.mem_reverse.mp hk)
    · exact h.pending_reaches k (List.mem_cons_of_mem _ hk)
  · exact fun k hk hknown => hdone k (h.start_done k hk hknown)
  · intro e he k hk hknown
    rcases List.mem_append.mp he with he | he
    · exact hdone k (h.next_done e he k hk hknown)
    · rw [List.mem_singleton.mp he] at hk
      exact .inr (List.mem_append_left _ (List.mem_reverse.mpr hk))

/-- Once nothing is pending, the types reached are those that can be. -/
theorem mem_reached_iff (h : T.Explored start reached []) {key : String} :
    key ∈ reached.map (·.1) ↔ T.Reaches start key ∧ (T.get? key).isSome = true := by
  constructor
  · intro hkey
    obtain ⟨e, he, rfl⟩ := List.mem_map.mp hkey
    exact ⟨h.reached_reaches e he, Option.isSome_of_eq_some (h.known e he)⟩
  · rintro ⟨hreaches, hknown⟩
    induction hreaches with
    | start hstart => exact (h.start_done _ hstart hknown).resolve_right List.not_mem_nil
    | step _ hs hnext ih =>
      obtain ⟨e, he, rfl⟩ := List.mem_map.mp (ih (Option.isSome_of_eq_some hs))
      obtain rfl := Option.some.inj (hs.symm.trans (h.known e he))
      exact (h.next_done e he _ hnext hknown).resolve_right List.not_mem_nil

end Explored

theorem isSome_lookup_of_mem {α β : Type} [BEq α] [LawfulBEq α] {l : List (α × β)} {e : α × β}
    (h : e ∈ l) : (l.lookup e.1).isSome = true := by
  rw [Option.isSome_iff_ne_none]
  exact fun hnone => by simpa using List.lookup_eq_none_iff.mp hnone e h

/-- Whatever the walk over the interfaces has come to, it goes on until nothing is pending. -/
theorem explored_interfacesFrom {start : List TypeRef} {reached found : List (String × TypeSymbol)}
    {pending : List TypeRef} (h : T.Explored start reached pending)
    (hfound : T.interfacesFrom reached pending = .ok found) : T.Explored start found [] := by
  fun_induction SymbolTable.interfacesFrom T reached pending with
  | case1 reached =>
    cases hfound
    exact h
  | case2 => cases hfound
  | case3 reached r pending hkey ih =>
    refine ih (h.pass ?_) hfound
    rintro key rfl -
    cases hkey
  | case4 reached r pending key hkey hreached ih =>
    obtain rfl := TypeRef.eq_key hkey
    refine ih (h.pass ?_) hfound
    rintro _ ⟨rfl⟩ -
    obtain ⟨s, hs⟩ := Option.isSome_iff_exists.mp hreached
    exact List.mem_map.mpr ⟨_, mem_types_of_lookup hs, rfl⟩
  | case5 reached r pending key hkey _ hnone ih =>
    obtain rfl := TypeRef.eq_key hkey
    refine ih (h.pass ?_) hfound
    rintro _ ⟨rfl⟩ hknown
    rw [hnone] at hknown
    cases hknown
  | case6 reached r pending key hkey hreached s hs ih =>
    obtain rfl := TypeRef.eq_key hkey
    refine ih (h.visit (fun hmem => hreached ?_) hs) hfound
    obtain ⟨e, he, rfl⟩ := List.mem_map.mp hmem
    exact isSome_lookup_of_mem he

/-! ## Both together -/

/-- A table can be walked over whether the types behind its keywords can or not. -/
theorem exists_walks (hT : ∀ key s, T.get? key = some s → s.isProper = true) {key : String}
    {x : TypeSymbol} (hx : T.get? key = some x) :
    ∃ chain found, T.baseChain x = .ok chain ∧ T.allInterfaces x = .ok found := by
  let U : SymbolTable := { T with specials := [] }
  have hsame : ∀ key, T.get? key = U.get? key := fun _ => rfl
  have hproper : U.Proper := ⟨hT, fun _ _ h => by cases h⟩
  obtain ⟨chain, hchain, -⟩ := hproper.baseChain (hT key x hx)
  obtain ⟨found, hfound⟩ := hproper.allInterfaces (hT key x hx)
  exact ⟨chain, found, by rw [baseChain_congr hsame, hchain],
    by rw [allInterfaces_congr hsame, hfound]⟩

/-- The interfaces that are found are the types with the keys that can be reached, each key once. -/
theorem keys_of_allInterfaces {x : TypeSymbol} {chain found : List TypeSymbol}
    (hchain : T.baseChain x = .ok chain) (hfound : T.allInterfaces x = .ok found) :
    ∃ keys : List String, keys.Nodup ∧ keys.map T.get? = found.map some
      ∧ ∀ key, key ∈ keys
        ↔ T.Reaches (chain.flatMap (·.interfaces)) key ∧ (T.get? key).isSome = true := by
  obtain ⟨types, htypes, hfound⟩ := ok_of_bind hfound
  obtain rfl := Except.ok.inj (hchain.symm.trans htypes)
  obtain ⟨entries, hentries, hfound⟩ := ok_of_bind hfound
  obtain rfl := Except.ok.inj hfound
  have hexplored : T.Explored (chain.flatMap (·.interfaces)) entries [] :=
    explored_interfacesFrom (.initial fun r => List.mem_reverse) hentries
  refine ⟨entries.map (·.1), hexplored.distinct, ?_, fun key => hexplored.mem_reached_iff⟩
  rw [List.map_map, List.map_map]
  exact List.map_congr_left hexplored.known

/-- In a table of types under their keys, the types that are found have the keys that were reached. -/
theorem Keyed.map_key (hT : T.Keyed) {keys : List String} {found : List TypeSymbol}
    (h : keys.map T.get? = found.map some) : found.map (·.key) = keys := by
  induction keys generalizing found with
  | nil => rw [List.map_eq_nil_iff.mp h.symm]; rfl
  | cons key keys ih =>
    obtain ⟨s, rest, rfl, hs, hrest⟩ := List.map_eq_cons_iff.mp h.symm
    rw [List.map_cons, hT key s hs.symm, ih hrest.symm]

/-- A type implements the interfaces that can be reached from it, whatever their arity. -/
theorem implements_eq_true_iff {x : TypeSymbol} {chain : List TypeSymbol} {space name : String}
    (hchain : T.baseChain x = .ok chain) {b : Bool} (h : T.implements x space name = .ok b) :
    b = true ↔ ∃ key s, T.Reaches (chain.flatMap (·.interfaces)) key ∧ T.get? key = some s
      ∧ s.namespaceName = space ∧ s.name = name ∧ s.containing = none := by
  obtain ⟨found, hfound, heq⟩ := ok_of_bind h
  obtain rfl := Except.ok.inj heq
  obtain ⟨keys, -, hkeys, hmem⟩ := keys_of_allInterfaces hchain hfound
  simp only [List.any_eq_true, Bool.and_eq_true, beq_iff_eq, Option.isNone_iff_eq_none]
  constructor
  · rintro ⟨s, hs, ⟨hspace, hname⟩, houter⟩
    obtain ⟨key, hkey, hget⟩ := List.mem_map.mp (hkeys ▸ List.mem_map_of_mem (f := some) hs)
    exact ⟨key, s, ((hmem key).mp hkey).1, hget, hspace, hname, houter⟩
  · rintro ⟨key, s, hreaches, hget, hspace, hname, houter⟩
    have hkey := (hmem key).mpr ⟨hreaches, Option.isSome_of_eq_some hget⟩
    obtain ⟨t, ht, heq⟩ := List.mem_map.mp (hkeys ▸ List.mem_map_of_mem (f := T.get?) hkey)
    obtain rfl := Option.some.inj (heq.trans hget)
    exact ⟨t, ht, ⟨hspace, hname⟩, houter⟩

/-- In every table of types that derive from what can be looked up, the way from a type to its base
classes and the interfaces of a type are found. The way is the one list that starts with the type,
has different keys, is linked by bases, and ends where a base is missing or came before; a nested type
is the first one found along it. The interfaces are the types of the table with the keys that can be
reached from the interfaces along the way, each key once. -/
theorem closure_exact (hT : ∀ key s, T.get? key = some s → s.isProper = true) {key : String}
    {x : TypeSymbol} (hx : T.get? key = some x) :
    ∃ (chain found : List TypeSymbol) (keys : List String),
      T.baseChain x = .ok chain ∧ T.allInterfaces x = .ok found
      ∧ (∀ other, T.IsBaseChain x other ↔ other = chain)
      ∧ (∀ name arity, T.nested x name arity
        = .ok (chain.findSome? fun c => T.get? (c.key ++ "." ++ metadataName name arity)))
      ∧ keys.Nodup ∧ keys.map T.get? = found.map some ∧ (T.Keyed → found.map (·.key) = keys)
      ∧ ∀ k, k ∈ keys
        ↔ T.Reaches (chain.flatMap (·.interfaces)) k ∧ (T.get? k).isSome = true := by
  obtain ⟨chain, found, hchain, hfound⟩ := exists_walks hT hx
  obtain ⟨keys, hdistinct, hkeys, hmem⟩ := keys_of_allInterfaces hchain hfound
  refine ⟨chain, found, keys, hchain, hfound, fun other => ?_, nested_of_baseChain hchain,
    hdistinct, hkeys, fun hkeyed => hkeyed.map_key hkeys, hmem⟩
  rw [← baseChain_eq_ok_iff, hchain]
  exact ⟨fun h => (Except.ok.inj h).symm, fun h => congrArg Except.ok h.symm⟩

/-- Two classes that derive from each other, and two interfaces that extend each other and one that
is missing. -/
theorem closure_exact_circles :
    ∃ T x chain found keys, T = ofList [
        { name := "A", base := some (.key "B"), interfaces := [.key "I", .key "Lost"] },
        { name := "B", base := some (.key "A"), interfaces := [.key "I"] },
        { name := "I", kind := .interface, interfaces := [.key "J", .key "I"] },
        { name := "J", kind := .interface, interfaces := [.key "Lost", .key "I"] }]
      ∧ T.get? "A" = some x ∧ T.baseChain x = .ok chain ∧ chain.map (·.key) = ["A", "B"]
      ∧ T.allInterfaces x = .ok found ∧ found.map (·.key) = keys ∧ keys.Nodup
      ∧ ∀ k, k ∈ keys
        ↔ T.Reaches (chain.flatMap (·.interfaces)) k ∧ (T.get? k).isSome = true := by
  let symbols : List TypeSymbol := [
    { name := "A", base := some (.key "B"), interfaces := [.key "I", .key "Lost"] },
    { name := "B", base := some (.key "A"), interfaces := [.key "I"] },
    { name := "I", kind := .interface, interfaces := [.key "J", .key "I"] },
    { name := "J", kind := .interface, interfaces := [.key "Lost", .key "I"] }]
  have hproper : (ofList symbols).Proper := proper_empty.addAll (List.all_eq_true.mp (by decide))
  have hrun : ((ofList symbols).get? "A").bind (fun x =>
      ((ofList symbols).baseChain x).toOption.map fun chain => chain.map (·.key))
      = some ["A", "B"] := by decide +kernel
  obtain ⟨x, hx, hrun⟩ := Option.bind_eq_some_iff.mp hrun
  obtain ⟨chain', hchain', hkeys'⟩ := Option.map_eq_some_iff.mp hrun
  obtain ⟨chain, found, keys, hchain, hfound, -, -, hdistinct, -, hkeys, hmem⟩ :=
    closure_exact hproper.types hx
  obtain rfl := Except.ok.inj ((ok_of_toOption hchain').symm.trans hchain)
  exact ⟨ofList symbols, x, chain', found, keys, rfl, hx, hchain, hkeys', hfound,
    hkeys (keyed_ofList symbols), hdistinct, hmem⟩

end SymbolTable

end NullableMarker
