import NullableMarker.Symbol

/-!
# Symbol tables

All types known, by key, with the namespaces they lie in and the types behind keywords. Base classes
and interfaces may be missing or cyclic; walking them ends, because each step uses up a type of the
table. It also ends at a reference that cannot be looked up.
-/

namespace NullableMarker

/-- Replaces the entry under a key, or adds one at the end. -/
def upsert [BEq α] (key : α) (value : β) : List (α × β) → List (α × β)
  | [] => [(key, value)]
  | (k, v) :: rest => if k == key then (k, value) :: rest else (k, v) :: upsert key value rest

/-- The types known. -/
structure SymbolTable where
  types : List (String × TypeSymbol) := []
  namespaces : List String := [""]
  specials : List (Special × TypeSymbol) := []
  deriving Inhabited

namespace SymbolTable

/-- A table without types. -/
def empty : SymbolTable := {}

/-- The number of types. -/
def size (t : SymbolTable) : Nat := t.types.length

/-- The type with a key. -/
def get? (t : SymbolTable) (key : String) : Option TypeSymbol := t.types.lookup key

/-- A type has the key. -/
def contains (t : SymbolTable) (key : String) : Bool := (t.get? key).isSome

/-- The type that is referred to. -/
def find (t : SymbolTable) (r : TypeRef) : Except BadReference (Option TypeSymbol) :=
  r.key?.map (·.bind t.get?)

/-- The type behind a keyword. -/
def special? (t : SymbolTable) (s : Special) : Option TypeSymbol := t.specials.lookup s

/-- The namespace is known. -/
def hasNamespace (t : SymbolTable) (name : String) : Bool := t.namespaces.contains name

/-- A dotted name and the names it lies in, outermost first. -/
def enclosing (name : String) : List String :=
  if name.isEmpty then []
  else
    let parts := dottedParts name
    (List.range parts.length).map fun i => ".".intercalate (parts.take (i + 1))

/-- Adds a type; a second declaration of a key completes the first. -/
def add (t : SymbolTable) (s : TypeSymbol) : SymbolTable × TypeSymbol :=
  let s := match t.get? s.key with
    | some first => first.merge s
    | none => s
  ({ types := upsert s.key s t.types
     namespaces := (enclosing s.namespaceName).foldl
       (fun known name => if known.contains name then known else known ++ [name]) t.namespaces
     specials := match s.special with
       | some special => upsert special s t.specials
       | none => t.specials }, s)

/-- Adds types in order. -/
def addAll (t : SymbolTable) (symbols : List TypeSymbol) : SymbolTable :=
  symbols.foldl (fun t s => (t.add s).1) t

/-- The table of some types. -/
def ofList (symbols : List TypeSymbol) : SymbolTable := empty.addAll symbols

/-- The type of a namespace with a name and arity. -/
def lookup (t : SymbolTable) (space name : String) (arity : Int) : Option TypeSymbol :=
  t.get? ((if space.isEmpty then "" else space ++ ".") ++ metadataName name arity)

/-! ## Base classes -/

/-- The types whose key is none of those seen. -/
def unseen (t : SymbolTable) (seen : List String) : List (String × TypeSymbol) :=
  t.types.filter (!seen.contains ·.2.key)

theorem mem_types_of_lookup {types : List (String × TypeSymbol)} {key : String} {s : TypeSymbol}
    (h : types.lookup key = some s) : (key, s) ∈ types := by
  induction types with
  | nil => simp at h
  | cons e types ih =>
    obtain ⟨k, v⟩ := e
    by_cases hk : key == k
    · simp only [List.lookup_cons, hk, Option.some.injEq] at h
      simp [eq_of_beq hk, h]
    · simp only [List.lookup_cons, hk] at h
      exact List.mem_cons_of_mem _ (ih h)

/-- What is found is in the table. -/
theorem exists_mem_types_of_find {t : SymbolTable} {r : TypeRef} {s : TypeSymbol}
    (h : t.find r = .ok (some s)) : ∃ key, (key, s) ∈ t.types := by
  unfold find at h
  cases hr : r.key? with
  | error e => simp [hr, Except.map] at h
  | ok k =>
    simp only [hr, Except.map, Except.ok.injEq] at h
    obtain ⟨key, _, hk⟩ := Option.bind_eq_some_iff.1 h
    exact ⟨key, mem_types_of_lookup hk⟩

/-- Seeing a further type of the table leaves fewer unseen. -/
theorem length_unseen_lt {t : SymbolTable} {seen : List String} {key : String} {s : TypeSymbol}
    (hs : (key, s) ∈ t.types) (hk : seen.contains s.key = false) :
    (t.unseen (s.key :: seen)).length < (t.unseen seen).length := by
  unfold unseen
  have hsub : t.types.filter (!(s.key :: seen).contains ·.2.key)
      = (t.types.filter (!seen.contains ·.2.key)).filter (fun e => !(e.2.key == s.key)) := by
    rw [List.filter_filter]
    congr 1
    funext e
    simp [Bool.beq_eq_decide_eq]
  rw [hsub]
  refine List.length_filter_lt_length_iff_exists.2 ⟨(key, s), ?_, by simp⟩
  simp [List.mem_filter, hs]
  simpa using hk

/-- The types met on the way from a type to its base classes, and what ended the way if it was a
reference that cannot be looked up. -/
structure Ancestry where
  types : List TypeSymbol := []
  fault : Option BadReference := none

namespace Ancestry

/-- The way with one more type in front. -/
def after (s : TypeSymbol) (a : Ancestry) : Ancestry := { a with types := s :: a.types }

/-- All types, if the way came to its end. -/
def all (a : Ancestry) : Except BadReference (List TypeSymbol) :=
  match a.fault with
  | some fault => .error fault
  | none => .ok a.types

/-- The first thing found on the way. -/
def findSome? (a : Ancestry) (f : TypeSymbol → Option α) : Except BadReference (Option α) :=
  match a.types.findSome? f, a.fault with
  | some found, _ => .ok (some found)
  | none, some fault => .error fault
  | none, none => .ok none

end Ancestry

/-- The base classes from `base` on, up to the first that is missing or was seen. -/
def basesFrom (t : SymbolTable) (seen : List String) (base : Option TypeRef) : Ancestry :=
  match base with
  | none => {}
  | some r =>
    match _h : t.find r with
    | .error fault => { fault := some fault }
    | .ok none => {}
    | .ok (some s) =>
      if _hs : seen.contains s.key then {}
      else (basesFrom t (s.key :: seen) s.base).after s
termination_by (t.unseen seen).length
decreasing_by
  obtain ⟨key, hmem⟩ := exists_mem_types_of_find _h
  exact length_unseen_lt hmem (by simpa using _hs)

/-- The way from a type to its base classes, itself first. -/
def ancestry (t : SymbolTable) (s : TypeSymbol) : Ancestry := (t.basesFrom [s.key] s.base).after s

/-- The type followed by its base classes. -/
def baseChain (t : SymbolTable) (s : TypeSymbol) : Except BadReference (List TypeSymbol) :=
  (t.ancestry s).all

/-- The type nested in a type or, failing that, in one of its base classes. -/
def nested (t : SymbolTable) (container : TypeSymbol) (name : String) (arity : Int) :
    Except BadReference (Option TypeSymbol) :=
  (t.ancestry container).findSome? fun c => t.get? (c.key ++ "." ++ metadataName name arity)

/-! ## Interfaces -/

/-- The entries under keys that were not reached. -/
def unreached (t : SymbolTable) (reached : List (String × TypeSymbol)) :
    List (String × TypeSymbol) :=
  t.types.filter fun e => (reached.lookup e.1).isNone

/-- What it takes to go through entries and the interfaces that they tell. -/
def effort : List (String × TypeSymbol) → Nat
  | [] => 0
  | e :: entries => effort entries + e.2.interfaces.length + 1

theorem effort_filter_le (p : String × TypeSymbol → Bool) (entries : List (String × TypeSymbol)) :
    effort (entries.filter p) ≤ effort entries := by
  induction entries with
  | nil => exact Nat.le_refl 0
  | cons e entries ih =>
    rw [List.filter_cons]
    split <;> simp only [effort] <;> omega

theorem effort_filter_lt {p : String × TypeSymbol → Bool} {e : String × TypeSymbol}
    {entries : List (String × TypeSymbol)} (he : e ∈ entries) (hp : p e = false) :
    effort (entries.filter p) + e.2.interfaces.length < effort entries := by
  induction entries with
  | nil => cases he
  | cons first entries ih =>
    rcases List.mem_cons.mp he with rfl | he
    · have := effort_filter_le p entries
      rw [List.filter_cons_of_neg (by simp [hp]), effort]
      omega
    · have := ih he
      rw [List.filter_cons]
      split <;> simp only [effort] <;> omega

/-- The interfaces reached from those pending, the last pending first. What was reached is kept in
order. -/
def interfacesFrom (t : SymbolTable) (reached : List (String × TypeSymbol))
    (pending : List TypeRef) : Except BadReference (List (String × TypeSymbol)) :=
  match pending with
  | [] => .ok reached
  | r :: pending =>
    match r.key? with
    | .error fault => .error fault
    | .ok none => interfacesFrom t reached pending
    | .ok (some key) =>
      if _hk : (reached.lookup key).isSome then interfacesFrom t reached pending
      else
        match _hs : t.get? key with
        | none => interfacesFrom t reached pending
        | some s => interfacesFrom t (reached ++ [(key, s)]) (s.interfaces.reverse ++ pending)
termination_by effort (t.unreached reached) + pending.length
decreasing_by
  · simp only [List.length_cons]
    omega
  · simp only [List.length_cons]
    omega
  · simp only [List.length_cons]
    omega
  · have hnew : reached.lookup key = none := by
      cases hl : reached.lookup key with
      | none => rfl
      | some v => simp [hl] at _hk
    have hmem : (key, s) ∈ t.unreached reached :=
      List.mem_filter.mpr ⟨mem_types_of_lookup _hs, by simp [hnew]⟩
    have hless : t.unreached (reached ++ [(key, s)])
        = (t.unreached reached).filter fun e => !(e.1 == key) := by
      unfold unreached
      rw [List.filter_filter]
      congr 1
      funext e
      rw [List.lookup_append]
      cases hl : reached.lookup e.1 with
      | some v => simp
      | none => by_cases he : e.1 == key <;> simp [List.lookup_cons, he]
    have hfewer : effort ((t.unreached reached).filter fun e => !(e.1 == key))
        + s.interfaces.length < effort (t.unreached reached) := effort_filter_lt hmem (by simp)
    rw [hless, List.length_append, List.length_reverse, List.length_cons]
    omega

/-- All interfaces of a type: those it and its base classes declare, and those that these extend. -/
def allInterfaces (t : SymbolTable) (s : TypeSymbol) : Except BadReference (List TypeSymbol) := do
  let declared := (← t.baseChain s).flatMap (·.interfaces)
  return (← t.interfacesFrom [] declared.reverse).map (·.2)

end SymbolTable

end NullableMarker
