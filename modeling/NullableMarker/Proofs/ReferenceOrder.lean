import NullableMarker.Proofs.SourceTypes

/-!
# The order of references

The sources among the references are read one after the other, each over the types of those before.
In any order they give types of the same outlines, if no two of them declare the same type. What the
types derive from may differ: a base list is resolved when its file is read, and never again. It is
the same in any order where no base list names a type of another file.

* `Work.Gives` — work that ends with a result and leaves the files alone
* `Work.gives_addReferences` — sources that are read
* `Work.referenceTable_reordered` — references in another order
* `Work.referenceTable_order_matters` — references where the order matters
-/

namespace NullableMarker

/-! ## Work that gives a result -/

namespace Work

variable {fs : FileSystem} {α β : Type}

/-- In every workspace with the files, the work ends with a result with a property, and it leaves
the files and the tables that are kept as they are. -/
def Gives (fs : FileSystem) (post : α → Prop) (m : Work α) : Prop :=
  ∀ w : Workspace, w.files = fs →
    ∃ a w', m.run.run w = (.ok a, w') ∧ w'.files = fs ∧ w'.cache = w.cache ∧ post a

theorem Gives.pure {post : α → Prop} {a : α} (h : post a) : Gives fs post (Pure.pure a) :=
  fun w hw => ⟨a, w, rfl, hw, rfl, h⟩

theorem Gives.bind {P : α → Prop} {Q : β → Prop} {m : Work α} {f : α → Work β}
    (h : Gives fs P m) (hf : ∀ a, P a → Gives fs Q (f a)) : Gives fs Q (m >>= f) := by
  intro w hw
  obtain ⟨a, w₁, hm, hfiles, hcache, ha⟩ := h w hw
  obtain ⟨b, w₂, hfa, hfiles', hcache', hb⟩ := hf a ha w₁ hfiles
  refine ⟨b, w₂, ?_, hfiles', hcache'.trans hcache, hb⟩
  rw [ExceptT.run_bind, StateT.run_bind, hm]
  exact hfa

theorem gives_files : Gives fs (· = fs) files := fun w hw => ⟨w.files, w, rfl, hw, rfl, hw⟩

theorem gives_log (level : LogLevel) (text : String) : Gives fs (fun _ => True) (log level text) :=
  fun _ hw => ⟨(), _, rfl, hw, rfl, trivial⟩

theorem gives_logRemarks (remarks : Array String) : Gives fs (fun _ => True) (logRemarks remarks) :=
  fun _ hw => ⟨(), _, rfl, hw, rfl, trivial⟩

theorem gives_ofExcept {ε : Type} {wrap : ε → WorkError} {result : Except ε α} {post : α → Prop}
    (h : ∃ a, result = .ok a ∧ post a) : Gives fs post (ofExcept wrap result) := by
  obtain ⟨a, rfl, ha⟩ := h
  exact fun w hw => ⟨a, w, rfl, hw, rfl, ha⟩

theorem Gives.mapM {xs : List α} {f : α → Work β} {g : α → β}
    (hf : ∀ a ∈ xs, Gives fs (· = g a) (f a)) : Gives fs (· = xs.map g) (xs.mapM f) := by
  induction xs with
  | nil => exact Gives.pure rfl
  | cons a xs ih =>
    rw [List.mapM_cons]
    refine (hf a List.mem_cons_self).bind ?_
    rintro _ rfl
    refine (ih fun b hb => hf b (List.mem_cons_of_mem a hb)).bind ?_
    rintro _ rfl
    exact Gives.pure rfl

end Work

/-! ## Sources that are read -/

namespace FileSystem

/-- The reference files that a written path stands for; if nothing is there, there are none. -/
def stampsOf (fs : FileSystem) (raw : String) : Except FileError (List FileStamp) := do
  if ← fs.exists? (Path.ofString raw).text then
    return (← fs.referenceFiles (Path.ofString raw)).filterMap fs.fileStamp?
  else return []

/-- The file is a source that can be read. -/
structure IsSource (fs : FileSystem) (f : FileStamp) : Prop where
  kind : (Path.ofString f.path).referenceKind? = some .source
  readable : ∃ source, fs.readSource (Path.ofString f.path).text = .ok source

end FileSystem

namespace Work

variable {fs : FileSystem} {defined : List String} {files : List FileStamp}

theorem gives_readSource {path source : String} (h : fs.readSource path = .ok source) :
    Gives fs (· = source) (readSource path) := by
  refine gives_files.bind ?_
  rintro _ rfl
  exact gives_ofExcept ⟨source, h, rfl⟩

/-- A source is read over a table. -/
theorem gives_addReference {f : FileStamp} (hf : fs.IsSource f) {T : SymbolTable} (hT : T.Proper) :
    Gives fs (· = T.addAll (fs.harvest defined T f)) (addReference defined T f) := by
  obtain ⟨source, hsource⟩ := hf.readable
  have hunit : fs.unitIn? defined f = (parseUnit source defined).toOption := by
    unfold FileSystem.unitIn?
    rw [hsource]
    rfl
  unfold addReference
  dsimp only
  rw [hf.kind]
  refine (gives_readSource hsource).bind ?_
  rintro source rfl
  obtain ⟨hnone, hnil⟩ | ⟨root, env, hroot, henv, -, hharvest⟩ := fs.harvest_cases hT defined f
  · cases hroot : parseUnit source defined with
    | ok root =>
      rw [hroot, hnone] at hunit
      cases hunit
    | error e =>
      rw [hnil]
      exact (gives_log _ _).bind fun _ _ => Gives.pure rfl
  · rw [ok_of_toOption (hunit.symm.trans hroot), hharvest]
    have hmade : Gives fs (· = env) (ofExcept .reference
        (Environment.ofTree T s!"source:{(Path.ofString f.path).name}" root)) :=
      gives_ofExcept ⟨env, henv, rfl⟩
    refine hmade.bind ?_
    rintro env rfl
    exact (gives_logRemarks _).bind fun _ _ => Gives.pure rfl

/-- Sources are read one after the other. -/
theorem gives_addReferences (hfiles : ∀ f ∈ files, fs.IsSource f) {T : SymbolTable}
    (hT : T.Proper) :
    Gives fs (· = fs.tableOver defined T files) (files.foldlM (addReference defined) T) := by
  induction files generalizing T with
  | nil => exact Gives.pure rfl
  | cons f files ih =>
    rw [List.foldlM_cons, FileSystem.tableOver_cons]
    refine (gives_addReference (hfiles f List.mem_cons_self) hT).bind fun T' hT' => ?_
    rw [hT']
    exact ih (fun g hg => hfiles g (List.mem_cons_of_mem f hg)) (hT.harvest f)

theorem gives_buildTable (hfiles : ∀ f ∈ files, fs.IsSource f) :
    Gives fs (· = fs.tableOver defined Defaults.table files) (buildTable ⟨files, defined⟩) :=
  gives_addReferences hfiles Defaults.table_proper

end Work

/-! ## References in another order -/

namespace Work

variable {fs : FileSystem}

/-- A written path is looked at once. -/
theorem gives_stampsAt {raw : String} {files : List FileStamp} (h : fs.stampsOf raw = .ok files) :
    Gives fs (· = files) (stampsAt raw) := by
  obtain ⟨found, hfound, h⟩ := ok_of_bind h
  refine gives_files.bind ?_
  rintro fs rfl
  have hexists : Gives fs (· = found) (ofFile (fs.exists? (Path.ofString raw).text)) :=
    gives_ofExcept ⟨found, hfound, rfl⟩
  refine hexists.bind ?_
  rintro found rfl
  cases found with
  | false =>
    cases h
    exact (gives_log _ _).bind fun _ _ => Gives.pure rfl
  | true =>
    obtain ⟨paths, hpaths, h⟩ := ok_of_bind h
    cases h
    have hreferences : Gives fs (· = paths) (ofFile (fs.referenceFiles (Path.ofString raw))) :=
      gives_ofExcept ⟨paths, hpaths, rfl⟩
    refine hreferences.bind ?_
    rintro paths rfl
    exact Gives.pure rfl

end Work

/-- Every table that is kept is the one that would be built. -/
def Workspace.Honest (w : Workspace) : Prop :=
  ∀ key T, w.cache.find? key = some T → ((Work.buildTable key).run.run w).1 = .ok T

namespace Work

variable {w : Workspace} {defined : List String}

theorem run_cachedTable (key : ReferenceKey) (w : Workspace) :
    (cachedTable key).run.run w
      = match w.cache.find? key with
        | some T => (.ok T, { w with cache := w.cache.use key T })
        | none => (buildTable key >>= fun T => do
            modify fun w => { w with cache := w.cache.use key T }
            return T).run.run w := by
  have hget : (cachedTable key).run.run w
      = (match w.cache.find? key with
        | some T => do
          modify fun w => { w with cache := w.cache.use key T }
          return T
        | none => do
          let T ← buildTable key
          modify fun w => { w with cache := w.cache.use key T }
          return T : Work SymbolTable).run.run w := rfl
  rw [hget]
  cases w.cache.find? key with
  | some T => rfl
  | none => rfl

/-- A table from an honest cache is as good as one that is built. -/
theorem exists_cachedTable (hw : w.Honest) {key : ReferenceKey} {post : SymbolTable → Prop}
    (hbuild : Gives w.files post (buildTable key)) {w' : Workspace} (hfiles : w'.files = w.files)
    (hcache : w'.cache = w.cache) :
    ∃ T, ((cachedTable key).run.run w').1 = .ok T ∧ post T := by
  rw [run_cachedTable]
  cases hfind : w'.cache.find? key with
  | none =>
    obtain ⟨T, w₁, hrun, -, -, hT⟩ := hbuild w' hfiles
    refine ⟨T, ?_, hT⟩
    dsimp only
    rw [ExceptT.run_bind, StateT.run_bind, hrun]
    rfl
  | some T =>
    rw [hcache] at hfind
    obtain ⟨T', _, hrun, -, -, hT'⟩ := hbuild w rfl
    have hsame := hw key T hfind
    rw [hrun] at hsame
    cases hsame
    exact ⟨T, rfl, hT'⟩

section Paths

variable {paths : List String} {files : String → List FileStamp}

/-- The table of references that are sources. -/
theorem referenceTable_sources (hw : w.Honest)
    (hpaths : ∀ raw ∈ paths, w.files.stampsOf raw = .ok (files raw))
    (hsources : ∀ f ∈ paths.flatMap files, w.files.IsSource f) :
    ((referenceTable paths defined).run.run w).1
      = .ok (w.files.tableOver defined Defaults.table (paths.flatMap files)) := by
  unfold referenceTable
  cases paths with
  | nil =>
    rw [List.flatMap_nil, FileSystem.tableOver_nil]
    rfl
  | cons raw paths =>
    rw [if_neg (by simp)]
    have hstamps : Gives w.files (· = (raw :: paths).map files) ((raw :: paths).mapM stampsAt) :=
      Gives.mapM fun r hr => gives_stampsAt (hpaths r hr)
    obtain ⟨_, w₁, hrun, hfiles, hcache, rfl⟩ := hstamps w rfl
    rw [ExceptT.run_bind, StateT.run_bind, hrun]
    rw [List.flatMap_def] at hsources ⊢
    obtain ⟨T, hT, rfl⟩ := exists_cachedTable hw (gives_buildTable hsources) hfiles hcache
    exact hT

/-- The same references in another order, files or directories, give types of the same outlines, if
they are sources that declare no default type and no type that another of them declares. A type that
is declared in parts has its parts in one file. If each source is there once, and its base lists
name nothing of another one, the types are the same: they derive from the same, and implement the
same interfaces. -/
theorem referenceTable_reordered (hw : w.Honest) {paths' : List String}
    (hperm : paths'.Perm paths)
    (hpaths : ∀ raw ∈ paths, w.files.stampsOf raw = .ok (files raw))
    (hsources : ∀ f ∈ paths.flatMap files, w.files.IsSource f)
    (hnew : ∀ f ∈ paths.flatMap files, ∀ s ∈ w.files.typesIn defined f,
      Defaults.table.get? s.key = none)
    (honce : ∀ f ∈ paths.flatMap files, ∀ g ∈ paths.flatMap files,
      ∀ s ∈ w.files.typesIn defined f, ∀ t ∈ w.files.typesIn defined g, s.key = t.key → f = g) :
    ∃ T T', ((referenceTable paths defined).run.run w).1 = .ok T
      ∧ ((referenceTable paths' defined).run.run w).1 = .ok T'
      ∧ (∀ key, SameOutlines (T'.get? key) (T.get? key))
      ∧ ((paths.flatMap files).Nodup →
        (∀ f ∈ paths.flatMap files, ∀ g ∈ paths.flatMap files, f ≠ g →
          w.files.NamesNothingOf defined f g) →
        (∀ key, T'.get? key = T.get? key)
          ∧ ∀ s space name, T'.implements s space name = T.implements s space name) := by
  have hflat : (paths'.flatMap files).Perm (paths.flatMap files) := hperm.flatMap_right files
  have hgathers := FileSystem.gathers_tableOver .defaults (by simp) hnew
  have hgathers' := FileSystem.gathers_tableOver .defaults (by simp)
    fun f hf => hnew f (hflat.mem_iff.mp hf)
  have hfind : ∀ key,
      ((paths'.flatMap files).flatMap (w.files.typesIn defined)).find? (·.key == key)
      = ((paths.flatMap files).flatMap (w.files.typesIn defined)).find? (·.key == key) := by
    intro key
    rw [List.find?_flatMap, List.find?_flatMap]
    refine findSome?_eq_of_perm hflat fun f hf g hg x y hx hy => ?_
    have hxkey : x.key = key := by simpa using List.find?_some hx
    have hykey : y.key = key := by simpa using List.find?_some hy
    obtain rfl := honce f hf g hg x (List.mem_of_find?_eq_some hx) y
      (List.mem_of_find?_eq_some hy) (hxkey.trans hykey.symm)
    exact Option.some.inj (hx.symm.trans hy)
  refine ⟨_, _, referenceTable_sources hw hpaths hsources, referenceTable_sources hw
    (fun raw hraw => hpaths raw (hperm.mem_iff.mp hraw))
    (fun f hf => hsources f (hflat.mem_iff.mp hf)), fun key => ?_, fun hnodup hnames => ?_⟩
  · have houtline := hgathers'.outline key
    rw [List.nil_append, hfind key] at houtline
    exact houtline.trans (hgathers.outline key).symm
  · have hseparate : w.files.Separate defined (paths.flatMap files) :=
      ⟨hnodup, hnew, honce, hnames⟩
    rw [hseparate.tableOver_eq, (hseparate.perm hflat).tableOver_eq]
    have hget := SymbolTable.get?_addAll_perm Defaults.sound.keyed hseparate.fresh
      (hflat.flatMap_right (w.files.harvest defined Defaults.table))
    exact ⟨hget, SymbolTable.implements_congr hget⟩

end Paths

end Work

/-! ## Two sources -/

/-- A workspace with source files in its directory, all written at once. -/
def Workspace.ofSources (sources : List (String × String)) : Workspace where
  files.entries := sources.map fun (name, text) =>
    ([name], .file ⟨Encoding.encode text, .set 0⟩)

theorem Encoding.decode_encode {text : String} (hmark : hasOrderMark (encode text) = false)
    (hpartial : isPartialMark (encode text) = false) : decode (encode text) = text := by
  have hutf8 : String.fromUTF8? (encode text) = some text := dif_pos text.isValidUTF8
  unfold decode body
  rw [hmark, hpartial, if_neg Bool.false_ne_true, if_neg Bool.false_ne_true, hutf8]
  rfl

theorem FileSystem.readSource_of_locate {fs : FileSystem} {path text : String}
    (location : Location) {stamp : Stamp} (hlocation : fs.locate path = .ok location)
    (hentry : fs.entryAt? location = some (.file ⟨Encoding.encode text, stamp⟩))
    (hreading : fs.host.reading location = none)
    (htext : Encoding.decode (Encoding.encode text) = text) : fs.readSource path = .ok text := by
  unfold readSource readBytes fileAt refusal?
  rw [hlocation]
  dsimp only
  rw [hentry, hreading]
  exact congrArg Except.ok htext

/-- Two sources in the working directory. -/
theorem Workspace.ofSources_pair {a b : String} {n : Nat}
    (ha : Encoding.decode (Encoding.encode a) = a) (hb : Encoding.decode (Encoding.encode b) = b)
    (hstamps : ∀ raw ∈ ["A.cs", "B.cs"],
      (Workspace.ofSources [("A.cs", a), ("B.cs", b)]).files.stampsOf raw = .ok [⟨raw, .set 0, n⟩])
    {w : Workspace} (hw : w = .ofSources [("A.cs", a), ("B.cs", b)]) :
    w.Honest ∧ w.files.readSource (Path.ofString "A.cs").text = .ok a
      ∧ w.files.readSource (Path.ofString "B.cs").text = .ok b
      ∧ (∀ raw ∈ ["A.cs", "B.cs"], w.files.stampsOf raw = .ok [⟨raw, .set 0, n⟩])
      ∧ ∀ f ∈ ["A.cs", "B.cs"].flatMap fun raw => [(⟨raw, .set 0, n⟩ : FileStamp)],
        w.files.IsSource f := by
  subst hw
  have honest : (Workspace.ofSources [("A.cs", a), ("B.cs", b)]).Honest := by
    intro key T hT
    cases hT
  have hreadA : (Workspace.ofSources [("A.cs", a), ("B.cs", b)]).files.readSource
      (Path.ofString "A.cs").text = .ok a :=
    FileSystem.readSource_of_locate ["A.cs"] rfl rfl rfl ha
  have hreadB : (Workspace.ofSources [("A.cs", a), ("B.cs", b)]).files.readSource
      (Path.ofString "B.cs").text = .ok b :=
    FileSystem.readSource_of_locate ["B.cs"] rfl rfl rfl hb
  refine ⟨honest, hreadA, hreadB, hstamps, ?_⟩
  rw [List.flatMap_cons, List.flatMap_singleton, List.singleton_append, List.forall_mem_cons,
    List.forall_mem_singleton]
  have hkindA : (Path.ofString "A.cs").referenceKind? = some .source := by decide +kernel
  have hkindB : (Path.ofString "B.cs").referenceKind? = some .source := by decide +kernel
  exact ⟨⟨hkindA, a, hreadA⟩, ⟨hkindB, b, hreadB⟩⟩

namespace FileSystem

variable {fs : FileSystem} {defined : List String} {f g : FileStamp}

theorem unitIn?_of_readSource {text : String}
    (hread : fs.readSource (Path.ofString f.path).text = .ok text) :
    fs.unitIn? defined f = (parseUnit text defined).toOption := by
  unfold unitIn?
  rw [hread]
  rfl

theorem harvest_of_readSource {text : String} {T : SymbolTable}
    (hread : fs.readSource (Path.ofString f.path).text = .ok text) :
    fs.harvest defined T f = ((parseUnit text defined).toOption.bind fun root =>
      (Environment.ofTree T s!"source:{(Path.ofString f.path).name}" root).toOption).elim []
        (·.declaredTypes) := by
  unfold harvest
  rw [unitIn?_of_readSource hread]

/-- What a source declares and what its base lists name, by its text. -/
theorem outlines_of_readSource {text : String} {outlines : List (String × String)}
    {names : List String} (hread : fs.readSource (Path.ofString f.path).text = .ok text)
    (hunit : (parseUnit text defined).toOption.map (fun root =>
      ((declaredSymbols s!"source:{(Path.ofString f.path).name}" (root.scoped [])).map
        fun s => (s.key, s.namespaceName), baseNames (root.scoped []))) = some (outlines, names)) :
    (∀ s ∈ fs.typesIn defined f, (s.key, s.namespaceName) ∈ outlines)
      ∧ fs.namesIn defined f = names := by
  obtain ⟨root, hroot, hunit⟩ := Option.map_eq_some_iff.mp hunit
  obtain ⟨rfl, rfl⟩ := Prod.mk.inj hunit
  have hunit := (unitIn?_of_readSource hread).trans hroot
  constructor
  · rw [typesIn_of_unitIn? hunit]
    exact fun s hs => List.mem_map_of_mem hs
  · unfold namesIn
    rw [hunit]
    rfl

/-- A source names nothing of another one if none of its names is written in a key there. -/
theorem namesNothingOf_of_outlines {outlines : List (String × String)} {names : List String}
    (hf : fs.namesIn defined f = names)
    (hg : ∀ s ∈ fs.typesIn defined g, (s.key, s.namespaceName) ∈ outlines)
    (h : ∀ name ∈ names, ∀ o ∈ outlines, ¬ IsWritten name o.1 ∧ o.2 = "") :
    fs.NamesNothingOf defined f g := by
  intro name hname t ht
  rw [hf] at hname
  obtain ⟨hkey, hspace⟩ := h name hname _ (hg t ht)
  dsimp only at hkey hspace
  rw [hspace]
  exact ⟨fun arity hends => hkey hends.isWritten, by simp [SymbolTable.enclosing]⟩

end FileSystem

namespace Work

/-- Two classes, each in a file with its interface. -/
theorem referenceTable_reordered_classes :
    ∃ T T', ((referenceTable ["A.cs", "B.cs"] []).run.run (.ofSources
        [("A.cs", "class A:I{}interface I{}"), ("B.cs", "class B:J{}interface J{}")])).1 = .ok T
      ∧ ((referenceTable ["B.cs", "A.cs"] []).run.run (.ofSources
        [("A.cs", "class A:I{}interface I{}"), ("B.cs", "class B:J{}interface J{}")])).1 = .ok T'
      ∧ ∀ key, T'.get? key = T.get? key := by
  generalize hw : Workspace.ofSources
    [("A.cs", "class A:I{}interface I{}"), ("B.cs", "class B:J{}interface J{}")] = w
  obtain ⟨honest, hreadA, hreadB, hpaths, hsources⟩ := Workspace.ofSources_pair
    (a := "class A:I{}interface I{}") (b := "class B:J{}interface J{}") (n := 24)
    (Encoding.decode_encode (by decide +kernel) (by decide +kernel))
    (Encoding.decode_encode (by decide +kernel) (by decide +kernel)) (by decide +kernel) hw.symm
  obtain ⟨hA, hnamesA⟩ : (∀ s ∈ w.files.typesIn [] ⟨"A.cs", .set 0, 24⟩,
      (s.key, s.namespaceName) ∈ [("A", ""), ("I", "")])
      ∧ w.files.namesIn [] ⟨"A.cs", .set 0, 24⟩ = ["I"] :=
    FileSystem.outlines_of_readSource hreadA (by decide +kernel)
  obtain ⟨hB, hnamesB⟩ : (∀ s ∈ w.files.typesIn [] ⟨"B.cs", .set 0, 24⟩,
      (s.key, s.namespaceName) ∈ [("B", ""), ("J", "")])
      ∧ w.files.namesIn [] ⟨"B.cs", .set 0, 24⟩ = ["J"] :=
    FileSystem.outlines_of_readSource hreadB (by decide +kernel)
  have hfiles : ∀ f : FileStamp, f ∈ ["A.cs", "B.cs"].flatMap (fun raw => [⟨raw, .set 0, 24⟩]) →
      f = ⟨"A.cs", .set 0, 24⟩ ∨ f = ⟨"B.cs", .set 0, 24⟩ := by simp
  have hnewA : ∀ o ∈ [("A", ""), ("I", "")], o.1 ∉ Defaults.symbols.map (·.key) := by
    decide +kernel
  have hnewB : ∀ o ∈ [("B", ""), ("J", "")], o.1 ∉ Defaults.symbols.map (·.key) := by
    decide +kernel
  -- the sources declare no type of the same key
  have hapart : ∀ s ∈ w.files.typesIn [] ⟨"A.cs", .set 0, 24⟩,
      ∀ t ∈ w.files.typesIn [] ⟨"B.cs", .set 0, 24⟩, s.key ≠ t.key := by
    intro s hs t ht
    exact (by decide : ∀ o ∈ [("A", ""), ("I", "")], ∀ o' ∈ [("B", ""), ("J", "")], o.1 ≠ o'.1)
      _ (hA s hs) _ (hB t ht)
  obtain ⟨T, T', hT, hT', -, hsame⟩ := referenceTable_reordered honest (.swap _ _ []) hpaths
    hsources
    (fun f hf s hs => by
      rcases hfiles f hf with rfl | rfl
      · exact Defaults.get?_eq_none (hnewA _ (hA s hs))
      · exact Defaults.get?_eq_none (hnewB _ (hB s hs)))
    (fun f hf g hg s hs t ht hkey => by
      rcases hfiles f hf with rfl | rfl <;> rcases hfiles g hg with rfl | rfl
      · rfl
      · exact absurd hkey (hapart s hs t ht)
      · exact absurd hkey.symm (hapart t ht s hs)
      · rfl)
  refine ⟨T, T', hT, hT', (hsame (by simp) fun f hf g hg hne => ?_).1⟩
  rcases hfiles f hf with rfl | rfl <;> rcases hfiles g hg with rfl | rfl
  · exact absurd rfl hne
  · exact FileSystem.namesNothingOf_of_outlines hnamesA hB (by decide +kernel)
  · exact FileSystem.namesNothingOf_of_outlines hnamesB hA (by decide +kernel)
  · exact absurd rfl hne

/-- A class that is read before its base class has none. -/
theorem referenceTable_order_matters :
    ∃ T T', ((referenceTable ["A.cs", "B.cs"] []).run.run (.ofSources
        [("A.cs", "class A:Base{}"), ("B.cs", "class Base { }")])).1 = .ok T
      ∧ ((referenceTable ["B.cs", "A.cs"] []).run.run (.ofSources
        [("A.cs", "class A:Base{}"), ("B.cs", "class Base { }")])).1 = .ok T'
      ∧ (T.get? "A").map (·.base) = some none
      ∧ (T'.get? "A").map (·.base) = some (some (.key "Base")) := by
  generalize hw : Workspace.ofSources
    [("A.cs", "class A:Base{}"), ("B.cs", "class Base { }")] = w
  obtain ⟨honest, hreadA, hreadB, hpaths, hsources⟩ := Workspace.ofSources_pair
    (a := "class A:Base{}") (b := "class Base { }") (n := 14)
    (Encoding.decode_encode (by decide +kernel) (by decide +kernel))
    (Encoding.decode_encode (by decide +kernel) (by decide +kernel)) (by decide +kernel) hw.symm
  obtain ⟨hA, hnamesA⟩ : (∀ s ∈ w.files.typesIn [] ⟨"A.cs", .set 0, 14⟩,
      (s.key, s.namespaceName) ∈ [("A", "")])
      ∧ w.files.namesIn [] ⟨"A.cs", .set 0, 14⟩ = ["Base"] :=
    FileSystem.outlines_of_readSource hreadA (by decide +kernel)
  obtain ⟨hB, hnamesB⟩ : (∀ s ∈ w.files.typesIn [] ⟨"B.cs", .set 0, 14⟩,
      (s.key, s.namespaceName) ∈ [("Base", "")])
      ∧ w.files.namesIn [] ⟨"B.cs", .set 0, 14⟩ = [] :=
    FileSystem.outlines_of_readSource hreadB (by decide +kernel)
  have hnew : ∀ key ∈ ["A", "Base"], ¬ Defaults.strangers.keys key := by
    show ∀ key ∈ ["A", "Base"], key ∉ Defaults.symbols.map (·.key)
    decide +kernel
  have hbase : Defaults.strangers.Unnamed "Base" :=
    Defaults.unnamed rfl (by decide +kernel) (by decide +kernel)
  -- the default types do not matter
  have hget : ∀ files : List FileStamp,
      (∀ f ∈ files, f = ⟨"A.cs", .set 0, 14⟩ ∨ f = ⟨"B.cs", .set 0, 14⟩) →
      (w.files.tableOver [] Defaults.table files).get? "A"
        = (w.files.tableOver [] .empty files).get? "A" := by
    intro files hfiles
    have hbut : (w.files.tableOver [] Defaults.table files).SameBut Defaults.strangers
        (w.files.tableOver [] .empty files) := by
      refine FileSystem.sameBut_tableOver Defaults.sameBut_empty Defaults.table_proper ?_ ?_
      · intro f hf s hs
        rcases hfiles f hf with rfl | rfl
        · obtain ⟨hkey, -⟩ := Prod.mk.inj (List.mem_singleton.mp (hA s hs))
          exact hnew s.key (by simp [hkey])
        · obtain ⟨hkey, -⟩ := Prod.mk.inj (List.mem_singleton.mp (hB s hs))
          exact hnew s.key (by simp [hkey])
      · intro f hf name hname
        rcases hfiles f hf with rfl | rfl
        · rw [hnamesA, List.mem_singleton] at hname
          rwa [hname]
        · rw [hnamesB] at hname
          cases hname
    exact (hbut.get? "A" (hnew "A" List.mem_cons_self)).symm
  have hharvestA : ∀ T, w.files.harvest [] T ⟨"A.cs", .set 0, 14⟩ = _ :=
    fun T => FileSystem.harvest_of_readSource hreadA
  have hharvestB : ∀ T, w.files.harvest [] T ⟨"B.cs", .set 0, 14⟩ = _ :=
    fun T => FileSystem.harvest_of_readSource hreadB
  have hswap : ["B.cs", "A.cs"].Perm ["A.cs", "B.cs"] := .swap _ _ []
  refine ⟨_, _, referenceTable_sources honest hpaths hsources, referenceTable_sources honest
    (fun raw hraw => hpaths raw (hswap.mem_iff.mp hraw))
    fun f hf => hsources f ((hswap.flatMap_right _).mem_iff.mp hf), ?_, ?_⟩
  · rw [hget _ (by simp)]
    simp only [List.flatMap_cons, List.flatMap_nil, List.append_nil, List.singleton_append,
      FileSystem.tableOver_cons, FileSystem.tableOver_nil, hharvestA, hharvestB]
    exact TypeSymbol.map_base_of_isNone (by decide +kernel)
  · rw [hget _ (by simp)]
    simp only [List.flatMap_cons, List.flatMap_nil, List.append_nil, List.singleton_append,
      FileSystem.tableOver_cons, FileSystem.tableOver_nil, hharvestA, hharvestB]
    exact TypeSymbol.map_base_of_beq (by decide +kernel)

end Work

end NullableMarker
