import Mathlib.Data.List.Induction
import NullableMarker.Proofs.UnnamedTypes
import NullableMarker.Workspace.References

/-!
# The types of sources

The sources among the references are read one after the other, each over the types of those before.
A base list is resolved when its source is read, so what the types derive from is a matter of the
order, and what they are otherwise is not. Where the base lists of a source name no type of another
one, it declares the same types over the default types as over those of the others too.

* `FileSystem.harvest`, `FileSystem.tableOver` — the types of a source, and of sources in order
* `FileSystem.Separate` — sources that name nothing of one another
* `SymbolTable.Gathers` — a table with the default types and those of sources
* `FileSystem.gathers_tableOver` — up to what the types derive from
* `FileSystem.Separate.tableOver_eq` — sources as if each were read alone
* `FileSystem.sameBut_tableOver` — sources that do without the default types
-/

namespace NullableMarker

/-! ## The types of a file -/

namespace FileSystem

/-- The types that a source file declares, before any base list is resolved. A file that cannot be
parsed declares none. -/
def typesIn (fs : FileSystem) (defined : List String) (f : FileStamp) : List TypeSymbol :=
  let path := Path.ofString f.path
  match fs.readSource path.text with
  | .error _ => []
  | .ok source =>
    match parseUnit source defined with
    | .error _ => []
    | .ok root => declaredSymbols s!"source:{path.name}" (root.scoped [])

/-- The unit that a file holds, if it can be read and parsed. -/
def unitIn? (fs : FileSystem) (defined : List String) (f : FileStamp) : Option Tree :=
  (fs.readSource (Path.ofString f.path).text).toOption.bind fun source =>
    (parseUnit source defined).toOption

theorem typesIn_eq (fs : FileSystem) (defined : List String) (f : FileStamp) :
    fs.typesIn defined f = (fs.unitIn? defined f).elim [] fun root =>
      declaredSymbols s!"source:{(Path.ofString f.path).name}" (root.scoped []) := by
  unfold typesIn unitIn?
  dsimp only
  cases fs.readSource (Path.ofString f.path).text with
  | error _ => rfl
  | ok source =>
    dsimp only [Except.toOption, Option.bind_some]
    cases parseUnit source defined <;> rfl

theorem typesIn_of_unitIn? {fs : FileSystem} {defined : List String} {f : FileStamp} {root : Tree}
    (hroot : fs.unitIn? defined f = some root) : fs.typesIn defined f
      = declaredSymbols s!"source:{(Path.ofString f.path).name}" (root.scoped []) := by
  rw [typesIn_eq, hroot]
  rfl

theorem special_of_mem_typesIn {fs : FileSystem} {defined : List String} {f : FileStamp}
    {s : TypeSymbol} (hs : s ∈ fs.typesIn defined f) : s.special = none := by
  rw [typesIn_eq] at hs
  cases hroot : fs.unitIn? defined f with
  | none =>
    rw [hroot] at hs
    cases hs
  | some root =>
    rw [hroot] at hs
    exact special_of_mem_declaredSymbols hs

/-- The types that a source declares over those of a table. -/
def harvest (fs : FileSystem) (defined : List String) (T : SymbolTable) (f : FileStamp) :
    List TypeSymbol :=
  ((fs.unitIn? defined f).bind fun root => (Environment.ofTree T
    s!"source:{(Path.ofString f.path).name}" root).toOption).elim [] (·.declaredTypes)

/-- The table with the types of sources that are read one after the other. -/
def tableOver (fs : FileSystem) (defined : List String) (T : SymbolTable)
    (files : List FileStamp) : SymbolTable :=
  files.foldl (fun T f => T.addAll (fs.harvest defined T f)) T

/-- The names that the base lists of a source are resolved by. -/
def namesIn (fs : FileSystem) (defined : List String) (f : FileStamp) : List String :=
  (fs.unitIn? defined f).elim [] fun root => baseNames (root.scoped [])

/-- The base lists of a source name no type of another one, nor a namespace that is there only for
the types of the other. -/
def NamesNothingOf (fs : FileSystem) (defined : List String) (f g : FileStamp) : Prop :=
  ∀ name ∈ fs.namesIn defined f, ∀ t ∈ fs.typesIn defined g,
    (∀ arity, ¬ EndsIn t.key (metadataName name arity))
      ∧ ∀ space ∈ SymbolTable.enclosing t.namespaceName, EndsIn space name →
        (Defaults.table.addAll (fs.typesIn defined f)).hasNamespace space = true

/-- Sources that are read once each, declare no default type and no type of another one, and name
nothing of one another. -/
structure Separate (fs : FileSystem) (defined : List String) (files : List FileStamp) : Prop where
  nodup : files.Nodup
  new : ∀ f ∈ files, ∀ s ∈ fs.typesIn defined f, Defaults.table.get? s.key = none
  once : ∀ f ∈ files, ∀ g ∈ files, ∀ s ∈ fs.typesIn defined f, ∀ t ∈ fs.typesIn defined g,
    s.key = t.key → f = g
  names : ∀ f ∈ files, ∀ g ∈ files, f ≠ g → fs.NamesNothingOf defined f g

section Harvest

variable {fs : FileSystem} {defined : List String} {f : FileStamp} {T : SymbolTable}

theorem tableOver_nil : fs.tableOver defined T [] = T := rfl

theorem tableOver_cons (files : List FileStamp) : fs.tableOver defined T (f :: files)
    = fs.tableOver defined (T.addAll (fs.harvest defined T f)) files := List.foldl_cons ..

theorem tableOver_append_singleton (files : List FileStamp) :
    fs.tableOver defined T (files ++ [f]) = (fs.tableOver defined T files).addAll
      (fs.harvest defined (fs.tableOver defined T files) f) := List.foldl_concat ..

theorem harvest_of_ofTree {root : Tree} {env : Environment}
    (hroot : fs.unitIn? defined f = some root)
    (henv : Environment.ofTree T s!"source:{(Path.ofString f.path).name}" root = .ok env) :
    fs.harvest defined T f = env.declaredTypes := by
  unfold harvest
  rw [hroot, Option.bind_some, henv]
  rfl

/-- A source cannot be parsed, or it is a unit that is read over the table. -/
theorem harvest_cases (hT : T.Proper) (fs : FileSystem) (defined : List String) (f : FileStamp) :
    (fs.unitIn? defined f = none ∧ fs.harvest defined T f = [])
      ∨ ∃ root env, fs.unitIn? defined f = some root
        ∧ Environment.ofTree T s!"source:{(Path.ofString f.path).name}" root = .ok env
        ∧ env.table.Proper ∧ fs.harvest defined T f = env.declaredTypes := by
  cases hroot : fs.unitIn? defined f with
  | none =>
    refine .inl ⟨rfl, ?_⟩
    unfold harvest
    rw [hroot]
    rfl
  | some root =>
    obtain ⟨env, henv, hproper⟩ := Environment.ofTree_total hT
      s!"source:{(Path.ofString f.path).name}" root
    exact .inr ⟨root, env, rfl, henv, hproper.table, harvest_of_ofTree hroot henv⟩

end Harvest

end FileSystem

namespace SymbolTable.Proper

variable {T : SymbolTable} {fs : FileSystem} {defined : List String}

theorem of_mem_harvest (hT : T.Proper) {f : FileStamp} {s : TypeSymbol}
    (hs : s ∈ fs.harvest defined T f) : s.isProper = true := by
  obtain ⟨-, hnil⟩ | ⟨root, env, -, -, hproper, hharvest⟩ := fs.harvest_cases hT defined f
  · rw [hnil] at hs
    cases hs
  · rw [hharvest] at hs
    obtain ⟨key, -, hs⟩ := List.mem_filterMap.mp hs
    exact hproper.types key s hs

theorem harvest (hT : T.Proper) (f : FileStamp) : (T.addAll (fs.harvest defined T f)).Proper :=
  hT.addAll fun _ => hT.of_mem_harvest

end SymbolTable.Proper

theorem nodup_eraseDups {α : Type} [BEq α] [LawfulBEq α] : (l : List α) → l.eraseDups.Nodup
  | [] => List.nodup_nil
  | a :: l => by
    rw [List.eraseDups_cons]
    refine List.nodup_cons.mpr ⟨fun ha => ?_, nodup_eraseDups _⟩
    have hne := (List.mem_filter.mp (List.mem_eraseDups.mp ha)).2
    rw [BEq.rfl, Bool.not_true] at hne
    cases hne
termination_by l => l.length
decreasing_by exact Nat.lt_succ_of_le (List.length_filter_le _ l)

namespace Environment

variable {references : SymbolTable} {origin : String} {root : Tree} {env : Environment}

theorem keyed_ofTree (hreferences : references.Keyed)
    (henv : ofTree references origin root = .ok env) : env.table.Keyed := by
  intro key s hs
  have houtline := sameOutline_ofTree hreferences henv key
  rw [hs] at houtline
  generalize ho : (references.get? key).or _ = o at houtline
  cases houtline with
  | some h =>
    rw [← h.key_eq]
    rcases Option.or_eq_some_iff.mp ho with hknown | ⟨-, hfound⟩
    · exact hreferences key _ hknown
    · simpa using List.find?_some hfound

/-- No two of the declared types have the same key. -/
theorem nodup_key_declaredTypes (hkeyed : env.table.Keyed) :
    (env.declaredTypes.map (·.key)).Nodup := by
  rw [declaredTypes, List.map_filterMap]
  refine (nodup_eraseDups _).filterMap fun k k' key hk hk' => ?_
  obtain ⟨s, hs, rfl⟩ := Option.map_eq_some_iff.mp hk
  obtain ⟨s', hs', heq⟩ := Option.map_eq_some_iff.mp hk'
  rw [← hkeyed k s hs, ← hkeyed k' s' hs', heq]

/-- A declared type is found under its key. -/
theorem find?_declaredTypes (henv : ofTree references origin root = .ok env)
    (hkeyed : env.table.Keyed) (key : String) :
    env.declaredTypes.find? (·.key == key)
      = if key ∈ declaredKeys (root.scoped []) then env.table.get? key else none := by
  obtain ⟨-, hnodes, -⟩ := run_of_ofTree henv
  have hfind : ∀ keys : List String, (keys.filterMap env.table.get?).find? (·.key == key)
      = if key ∈ keys then env.table.get? key else none := by
    intro keys
    induction keys with
    | nil => rfl
    | cons k keys ih =>
      rw [List.filterMap_cons]
      by_cases hk : key = k
      · subst hk
        rw [if_pos List.mem_cons_self]
        cases hs : env.table.get? key with
        | none =>
          refine ih.trans ?_
          rw [hs, ite_self]
        | some s => exact List.find?_cons_of_pos (by simpa using hkeyed key s hs)
      · have hmem : key ∈ k :: keys ↔ key ∈ keys := by simp [hk]
        rw [if_congr hmem rfl rfl, ← ih]
        cases hs : env.table.get? k with
        | none => rfl
        | some s =>
          refine List.find?_cons_of_neg ?_
          rw [hkeyed k s hs]
          simpa using Ne.symm hk
  rw [declaredTypes, hnodes, hfind]
  exact if_congr List.mem_eraseDups rfl rfl

end Environment

/-! ## Types up to what they derive from -/

theorem SameOutlines.or {o o' : Option TypeSymbol} (h : SameOutlines o o')
    (p : Option TypeSymbol) : SameOutlines (o.or p) (o'.or p) := by
  cases h with
  | none => exact .refl p
  | some h => exact .some h

namespace SymbolTable

theorem addAll_nil (T : SymbolTable) : T.addAll [] = T := rfl

theorem addAll_append (T : SymbolTable) (symbols symbols' : List TypeSymbol) :
    T.addAll (symbols ++ symbols') = (T.addAll symbols).addAll symbols' := List.foldl_append

end SymbolTable

/-- The table has the default types and the first declaration of every other type, up to what they
derive from. -/
structure SymbolTable.Gathers (symbols : List TypeSymbol) (T : SymbolTable) : Prop where
  keyed : T.Keyed
  proper : T.Proper
  outline : ∀ key, SameOutlines (T.get? key)
    ((Defaults.table.get? key).or (symbols.find? (·.key == key)))

namespace SymbolTable.Gathers

variable {symbols : List TypeSymbol} {T : SymbolTable} {origin : String} {root : Tree}
  {env : Environment}

theorem defaults : Defaults.table.Gathers [] where
  keyed := Defaults.sound.keyed
  proper := Defaults.table_proper
  outline key := by
    rw [List.find?_nil, Option.or_none]
    exact .refl _

/-- The types of a unit have no keyword, unless they are declared by default. -/
theorem special_of_mem_declaredTypes (hT : T.Gathers symbols)
    (hsymbols : ∀ s ∈ symbols, s.special = none)
    (henv : Environment.ofTree T origin root = .ok env)
    (hnew : ∀ s ∈ declaredSymbols origin (root.scoped []), Defaults.table.get? s.key = none)
    {t : TypeSymbol} (ht : t ∈ env.declaredTypes) : t.special = none := by
  obtain ⟨-, hnodes, -⟩ := Environment.run_of_ofTree henv
  rw [Environment.declaredTypes, hnodes] at ht
  obtain ⟨key, hkey, ht⟩ := List.mem_filterMap.mp ht
  have hdefault : Defaults.table.get? key = none := by
    have hmem : key ∈ declaredKeys (root.scoped []) := List.mem_eraseDups.mp hkey
    rw [← map_key_declaredSymbols origin] at hmem
    obtain ⟨s, hs, rfl⟩ := List.mem_map.mp hmem
    exact hnew s hs
  have houtline := (Environment.sameOutline_ofTree hT.keyed henv key).trans
    ((hT.outline key).or _)
  rw [ht, hdefault, Option.none_or] at houtline
  generalize ho : (symbols.find? _).or _ = o at houtline
  cases houtline with
  | some h =>
    rw [← h.special_eq]
    rcases Option.or_eq_some_iff.mp ho with hfound | ⟨-, hfound⟩
    · exact hsymbols _ (List.mem_of_find?_eq_some hfound)
    · exact special_of_mem_declaredSymbols (List.mem_of_find?_eq_some hfound)

/-- The types of one more unit. -/
theorem addAll_declaredTypes (hT : T.Gathers symbols) (hsymbols : ∀ s ∈ symbols, s.special = none)
    (henv : Environment.ofTree T origin root = .ok env) (hproper : env.table.Proper)
    (hnew : ∀ s ∈ declaredSymbols origin (root.scoped []), Defaults.table.get? s.key = none) :
    (T.addAll env.declaredTypes).Gathers (symbols ++ declaredSymbols origin (root.scoped [])) where
  keyed := hT.keyed.addAll _
  proper := by
    refine hT.proper.addAll fun s hs => ?_
    obtain ⟨key, -, hs⟩ := List.mem_filterMap.mp hs
    exact hproper.types key s hs
  outline key := by
    refine (sameOutline_addAll hT.keyed
      (fun t ht => hT.special_of_mem_declaredTypes hsymbols henv hnew ht) key).trans ?_
    rw [List.find?_append, ← Option.or_assoc]
    refine SameOutlines.trans ?_ ((hT.outline key).or _)
    -- what a unit says of a type that is known already does not count
    cases hknown : T.get? key with
    | some t => exact .refl _
    | none =>
      rw [Option.none_or, Option.none_or, Environment.find?_declaredTypes henv
        (Environment.keyed_ofTree hT.keyed henv)]
      have houtline := Environment.sameOutline_ofTree hT.keyed henv key
      rw [hknown, Option.none_or] at houtline
      split
      · exact houtline
      · next hkey =>
        rw [← map_key_declaredSymbols origin] at hkey
        rw [List.find?_eq_none.mpr fun s hs heq => hkey ?_]
        · exact .none
        · rw [← eq_of_beq heq]
          exact List.mem_map_of_mem hs

/-- The types of one more source. -/
theorem harvest {fs : FileSystem} {defined : List String} {f : FileStamp}
    (hT : T.Gathers symbols) (hsymbols : ∀ s ∈ symbols, s.special = none)
    (hnew : ∀ s ∈ fs.typesIn defined f, Defaults.table.get? s.key = none) :
    (T.addAll (fs.harvest defined T f)).Gathers (symbols ++ fs.typesIn defined f) := by
  obtain ⟨hnone, hnil⟩ | ⟨root, env, hroot, henv, hproper, hharvest⟩ :=
    fs.harvest_cases hT.proper defined f
  · rwa [hnil, addAll_nil, FileSystem.typesIn_eq, hnone, Option.elim_none, List.append_nil]
  · rw [FileSystem.typesIn_of_unitIn? hroot] at hnew ⊢
    rw [hharvest]
    exact hT.addAll_declaredTypes hsymbols henv hproper hnew

end SymbolTable.Gathers

namespace FileSystem

variable {fs : FileSystem} {defined : List String} {files : List FileStamp}

/-- Sources that are read one after the other add the types they declare. -/
theorem gathers_tableOver {symbols : List TypeSymbol} {T : SymbolTable} (hT : T.Gathers symbols)
    (hsymbols : ∀ s ∈ symbols, s.special = none)
    (hnew : ∀ f ∈ files, ∀ s ∈ fs.typesIn defined f, Defaults.table.get? s.key = none) :
    (fs.tableOver defined T files).Gathers (symbols ++ files.flatMap (fs.typesIn defined)) := by
  induction files generalizing symbols T with
  | nil =>
    rw [List.flatMap_nil, List.append_nil]
    exact hT
  | cons f files ih =>
    rw [tableOver_cons, List.flatMap_cons, ← List.append_assoc]
    refine ih (hT.harvest hsymbols (hnew f List.mem_cons_self)) (fun s hs => ?_)
      fun g hg => hnew g (List.mem_cons_of_mem f hg)
    exact (List.mem_append.mp hs).elim (hsymbols s) special_of_mem_typesIn

end FileSystem

/-! ## Sources that name nothing of one another -/

namespace FileSystem

section Strangers

variable {fs : FileSystem} {defined : List String} {X : Strangers} {T U : SymbolTable}

/-- Over tables that differ only in strangers, a source whose base lists name no stranger declares
the same types. -/
theorem harvest_of_sameBut (h : T.SameBut X U) (hT : T.Proper) {f : FileStamp}
    (hkeys : ∀ s ∈ fs.typesIn defined f, ¬ X.keys s.key)
    (hnames : ∀ name ∈ fs.namesIn defined f,
      (X.beyond (U.addAll (fs.typesIn defined f))).Unnamed name) :
    fs.harvest defined U f = fs.harvest defined T f ∧ ∀ t ∈ fs.harvest defined T f, X.Apart t := by
  obtain ⟨hnone, hnil⟩ | ⟨root, env, hroot, henv, -, hharvest⟩ := fs.harvest_cases hT defined f
  · refine ⟨?_, ?_⟩
    · rw [hnil]
      unfold harvest
      rw [hnone]
      rfl
    · rw [hnil]
      simp
  · unfold namesIn at hnames
    rw [typesIn_of_unitIn? hroot] at hkeys hnames
    rw [hroot] at hnames
    have hkeys : ∀ key ∈ declaredKeys (root.scoped []), ¬ X.keys key := by
      intro key hkey
      rw [← map_key_declaredSymbols s!"source:{(Path.ofString f.path).name}"] at hkey
      obtain ⟨s, hs, rfl⟩ := List.mem_map.mp hkey
      exact hkeys s hs
    obtain ⟨env', henv', hsame, hapart⟩ :=
      Environment.declaredTypes_of_sameBut h hkeys hnames henv
    rw [harvest_of_ofTree hroot henv', hharvest]
    exact ⟨hsame, hapart⟩

/-- Sources that declare no stranger and name none do as well without the strangers. -/
theorem sameBut_tableOver (h : T.SameBut X U) (hT : T.Proper) {files : List FileStamp}
    (hkeys : ∀ f ∈ files, ∀ s ∈ fs.typesIn defined f, ¬ X.keys s.key)
    (hnames : ∀ f ∈ files, ∀ name ∈ fs.namesIn defined f, X.Unnamed name) :
    (fs.tableOver defined T files).SameBut X (fs.tableOver defined U files) := by
  induction files generalizing T U with
  | nil => exact h
  | cons f files ih =>
    obtain ⟨hsame, hapart⟩ := harvest_of_sameBut h hT (hkeys f List.mem_cons_self)
      fun name hname => (hnames f List.mem_cons_self name hname).beyond _
    rw [tableOver_cons, tableOver_cons]
    refine ih ?_ (hT.harvest f) (fun g hg => hkeys g (List.mem_cons_of_mem f hg))
      fun g hg => hnames g (List.mem_cons_of_mem f hg)
    rw [hsame]
    exact h.addAll hapart

end Strangers

section Separate

variable {fs : FileSystem} {defined : List String} {files files' : List FileStamp} {f : FileStamp}

/-- What is harvested has the outline of what is declared. -/
theorem exists_of_mem_harvest
    (hnew : ∀ s ∈ fs.typesIn defined f, Defaults.table.get? s.key = none) {t : TypeSymbol}
    (ht : t ∈ fs.harvest defined Defaults.table f) :
    ∃ s ∈ fs.typesIn defined f, s.SameOutline t := by
  obtain ⟨-, hnil⟩ | ⟨root, env, hroot, henv, -, hharvest⟩ :=
    fs.harvest_cases Defaults.table_proper defined f
  · rw [hnil] at ht
    cases ht
  · obtain ⟨-, hnodes, -⟩ := Environment.run_of_ofTree henv
    rw [hharvest, Environment.declaredTypes, hnodes] at ht
    obtain ⟨key, hkey, ht⟩ := List.mem_filterMap.mp ht
    rw [typesIn_of_unitIn? hroot] at hnew ⊢
    have hkey : key ∈ declaredKeys (root.scoped []) := List.mem_eraseDups.mp hkey
    have houtline := Environment.sameOutline_ofTree Defaults.sound.keyed henv key
    rw [← map_key_declaredSymbols s!"source:{(Path.ofString f.path).name}"] at hkey
    obtain ⟨s, hs, rfl⟩ := List.mem_map.mp hkey
    rw [ht, hnew s hs, Option.none_or] at houtline
    generalize hfind : List.find? _ _ = o at houtline
    cases houtline with
    | some h => exact ⟨_, List.mem_of_find?_eq_some hfind, h.symm⟩

theorem nodup_key_harvest (fs : FileSystem) (defined : List String) (f : FileStamp) :
    ((fs.harvest defined Defaults.table f).map (·.key)).Nodup := by
  obtain ⟨-, hnil⟩ | ⟨root, env, -, henv, -, hharvest⟩ :=
    fs.harvest_cases Defaults.table_proper defined f
  · rw [hnil]
    exact List.nodup_nil
  · rw [hharvest]
    exact Environment.nodup_key_declaredTypes (Environment.keyed_ofTree Defaults.sound.keyed henv)

namespace Separate

theorem perm (h : fs.Separate defined files) (hperm : files'.Perm files) :
    fs.Separate defined files' where
  nodup := hperm.nodup_iff.mpr h.nodup
  new f hf := h.new f (hperm.mem_iff.mp hf)
  once f hf g hg := h.once f (hperm.mem_iff.mp hf) g (hperm.mem_iff.mp hg)
  names f hf g hg := h.names f (hperm.mem_iff.mp hf) g (hperm.mem_iff.mp hg)

theorem init (h : fs.Separate defined (files ++ [f])) : fs.Separate defined files where
  nodup := (List.nodup_append.mp h.nodup).1
  new g hg := h.new g (List.mem_append_left _ hg)
  once g hg g' hg' := h.once g (List.mem_append_left _ hg) g' (List.mem_append_left _ hg')
  names g hg g' hg' := h.names g (List.mem_append_left _ hg) g' (List.mem_append_left _ hg')

/-- Every type that is harvested is one of a source. -/
theorem exists_of_mem (h : fs.Separate defined files) {t : TypeSymbol}
    (ht : t ∈ files.flatMap (fs.harvest defined Defaults.table)) :
    ∃ f ∈ files, ∃ s ∈ fs.typesIn defined f, s.SameOutline t := by
  obtain ⟨f, hf, ht⟩ := List.mem_flatMap.mp ht
  exact ⟨f, hf, exists_of_mem_harvest (h.new f hf) ht⟩

/-- The types of such sources are new to the default table. -/
theorem fresh (h : fs.Separate defined files) :
    Defaults.table.Fresh (files.flatMap (fs.harvest defined Defaults.table)) where
  nodup := by
    rw [List.map_flatMap, List.nodup_flatMap]
    refine ⟨fun f _ => nodup_key_harvest fs defined f, h.nodup.imp_of_mem ?_⟩
    intro f g hf hg hne key hkey hkey'
    obtain ⟨s, hs, rfl⟩ := List.mem_map.mp hkey
    obtain ⟨t, ht, heq⟩ := List.mem_map.mp hkey'
    obtain ⟨s', hs', hsame⟩ := exists_of_mem_harvest (h.new f hf) hs
    obtain ⟨t', ht', hsame'⟩ := exists_of_mem_harvest (h.new g hg) ht
    refine hne (h.once f hf g hg s' hs' t' ht' ?_)
    rw [← hsame.key_eq, ← hsame'.key_eq, heq]
  unknown t ht := by
    obtain ⟨f, hf, s, hs, hsame⟩ := h.exists_of_mem ht
    rw [hsame.key_eq, h.new f hf s hs]
  special t ht := by
    obtain ⟨f, hf, s, hs, hsame⟩ := h.exists_of_mem ht
    rw [hsame.special_eq, special_of_mem_typesIn hs]

/-- Such a source declares the same types over the default types as over those of the others too. -/
theorem harvest_eq (h : fs.Separate defined (files ++ [f])) :
    fs.harvest defined
        (Defaults.table.addAll (files.flatMap (fs.harvest defined Defaults.table))) f
      = fs.harvest defined Defaults.table f := by
  have hf : f ∈ files ++ [f] := List.mem_append_right _ (List.mem_singleton_self f)
  have hmem : ∀ g ∈ files, g ∈ files ++ [f] := fun g hg => List.mem_append_left _ hg
  have hne : ∀ g ∈ files, f ≠ g := by
    rintro g hg rfl
    exact (List.nodup_append.mp h.nodup).2.2 f hg f (List.mem_singleton_self f) rfl
  have hfresh := h.init.fresh
  -- the strangers are the types of the other sources
  have hbut := SymbolTable.sameBut_addAll Defaults.sound hfresh (Defaults.foreign fun key hkey => by
    obtain ⟨t, ht, rfl⟩ := List.mem_map.mp hkey
    exact hfresh.unknown t ht)
  have hproper : (Defaults.table.addAll
      (files.flatMap (fs.harvest defined Defaults.table))).Proper := by
    refine Defaults.table_proper.addAll fun s hs => ?_
    obtain ⟨g, -, hs⟩ := List.mem_flatMap.mp hs
    exact Defaults.table_proper.of_mem_harvest hs
  refine (harvest_of_sameBut hbut hproper (fun s hs hkey => ?_)
    fun name hname => ⟨?_, ?_, ?_⟩).1.symm
  · obtain ⟨t, ht, heq⟩ := List.mem_map.mp hkey
    obtain ⟨g, hg, s', hs', hsame⟩ := h.init.exists_of_mem ht
    refine hne g hg (h.once f hf g (hmem g hg) s hs s' hs' ?_)
    rw [← heq, hsame.key_eq]
  · rintro key hkey
    obtain ⟨t, ht, rfl⟩ := List.mem_map.mp hkey
    obtain ⟨g, hg, s, hs, hsame⟩ := h.init.exists_of_mem ht
    rw [hsame.key_eq]
    exact (h.names f hf g (hmem g hg) (hne g hg) name hname s hs).1
  · rintro space ⟨⟨t, ht, hspace⟩, hunknown⟩ hends
    obtain ⟨g, hg, s, hs, hsame⟩ := h.init.exists_of_mem ht
    rw [hsame.namespaceName_eq] at hspace
    have hknown := (h.names f hf g (hmem g hg) (hne g hg) name hname s hs).2 space hspace hends
    rw [hunknown] at hknown
    cases hknown
  · exact fun _ _ => id

/-- Such sources add what each declares over the default types alone. -/
theorem tableOver_eq (h : fs.Separate defined files) : fs.tableOver defined Defaults.table files
    = Defaults.table.addAll (files.flatMap (fs.harvest defined Defaults.table)) := by
  -- the last source is read over the types of all others
  induction files using List.reverseRecOn with
  | nil => rw [List.flatMap_nil, SymbolTable.addAll_nil, tableOver_nil]
  | append_singleton files f ih =>
    rw [tableOver_append_singleton, ih h.init, h.harvest_eq, List.flatMap_append,
      List.flatMap_singleton, SymbolTable.addAll_append]

end Separate

end Separate

end FileSystem

end NullableMarker
