import NullableMarker.Proofs.Locations
import NullableMarker.Proofs.ReferenceOrder

/-!
# Tables that are kept

Tables of references are kept under the paths, times and sizes of the files they were built from. As
long as these tell the contents of a path apart, nobody sees that tables are kept: after any history
of the files and of tables asked for, a table is the one that would be built afresh.

* `Work.answer` — what work answers to the files alone
* `Work.Looks` — work that only looks at the files
* `Workspace.Serves` — the table that is kept for references is the right one
* `Workspace.referenceTable_as_afresh` — tables after any history
-/

namespace NullableMarker

/-! ## Results -/

section Results

variable {ε ε' α β : Type}

@[simp] theorem ok_bind (a : α) (f : α → Except ε β) : (Except.ok a >>= f) = f a := rfl

@[simp] theorem error_bind (e : ε) (f : α → Except ε β) :
    (Except.error e >>= f) = Except.error e := rfl

@[simp] theorem mapError_ok (f : ε → ε') (a : α) : (Except.ok a).mapError f = .ok a := rfl

@[simp] theorem mapError_error (f : ε → ε') (e : ε) :
    (Except.error e : Except ε α).mapError f = .error (f e) := rfl

theorem error_of_mapError {x : Except ε α} {f : ε → ε'} {e : ε'} (h : x.mapError f = .error e) :
    ∃ e', x = .error e' ∧ f e' = e := by
  cases x with
  | error e' => exact ⟨e', rfl, Except.error.inj h⟩
  | ok a => cases h

theorem error_of_bind {x : Except ε α} {f : α → Except ε β} {e : ε} (h : (x >>= f) = .error e) :
    x = .error e ∨ ∃ a, x = .ok a ∧ f a = .error e := by
  cases x with
  | error e' => exact .inl (congrArg Except.error (Except.error.inj h))
  | ok a => exact .inr ⟨a, rfl, h⟩

end Results

/-! ## Types of sources -/

/-- The table with the types that a source declares; a source that cannot be read declares none. -/
def SymbolTable.withSource (T : SymbolTable) (defined : List String) (origin source : String) :
    Except BadReference SymbolTable :=
  match parseUnit source defined with
  | .error _ => .ok T
  | .ok root => (Environment.ofTree T origin root).map fun env => T.addAll env.declaredTypes

/-! ## Work that looks at files -/

namespace Work

variable {α β : Type}

/-- What the work answers to the files alone, with no table kept. -/
def answer (m : Work α) (fs : FileSystem) : Except WorkError α := (m.run.run { files := fs }).1

/-- The work only looks at the files and adds to the log. -/
def Looks (m : Work α) : Prop :=
  ∀ w : Workspace, ∃ log, m.run.run w = (m.answer w.files, { w with log := log })

theorem run_bind (m : Work α) (f : α → Work β) (w : Workspace) :
    (m >>= f).run.run w = match m.run.run w with
      | (.ok a, w') => (f a).run.run w'
      | (.error e, w') => (.error e, w') := by
  rw [ExceptT.run_bind, StateT.run_bind]
  generalize m.run.run w = result
  obtain ⟨result, w'⟩ := result
  cases result <;> rfl

theorem answer_bind {m : Work α} {f : α → Work β} (hm : m.Looks) (hf : ∀ a, (f a).Looks)
    (fs : FileSystem) : (m >>= f).answer fs = m.answer fs >>= fun a => (f a).answer fs := by
  obtain ⟨log, hrun⟩ := hm { files := fs }
  rw [answer, run_bind, hrun]
  cases m.answer fs with
  | error e => rfl
  | ok a =>
    obtain ⟨log', hrun'⟩ := hf a { files := fs, log := log }
    show ((f a).run.run { files := fs, log := log }).1 = (f a).answer fs
    rw [hrun']

theorem Looks.bind {m : Work α} {f : α → Work β} (hm : m.Looks) (hf : ∀ a, (f a).Looks) :
    (m >>= f).Looks := by
  intro w
  obtain ⟨log, hrun⟩ := hm w
  rw [answer_bind hm hf, run_bind, hrun]
  cases m.answer w.files with
  | error e => exact ⟨log, rfl⟩
  | ok a =>
    obtain ⟨log', hrun'⟩ := hf a { w with log := log }
    exact ⟨log', hrun'⟩

theorem looks_pure (a : α) : (pure a : Work α).Looks := fun w => ⟨w.log, rfl⟩

theorem looks_throw (e : WorkError) : (throw e : Work α).Looks := fun w => ⟨w.log, rfl⟩

theorem looks_files : files.Looks := fun w => ⟨w.log, rfl⟩

theorem looks_log (level : LogLevel) (text : String) : (log level text).Looks := fun _ => ⟨_, rfl⟩

theorem looks_logRemarks (remarks : Array String) : (logRemarks remarks).Looks := fun _ => ⟨_, rfl⟩

theorem looks_ofExcept {ε : Type} (wrap : ε → WorkError) (result : Except ε α) :
    (ofExcept wrap result).Looks := fun w => ⟨w.log, rfl⟩

theorem answer_bind_pure {m : Work α} (hm : m.Looks) (g : α → β) (fs : FileSystem) :
    (m >>= fun a => pure (g a)).answer fs = (m.answer fs).map g := by
  rw [answer_bind hm fun a => looks_pure (g a)]
  cases m.answer fs <;> rfl

theorem answer_files_bind (f : FileSystem → Work α) (fs : FileSystem) :
    (files >>= f).answer fs = (f fs).answer fs := rfl

theorem answer_ofExcept {ε : Type} (wrap : ε → WorkError) (result : Except ε α) (fs : FileSystem) :
    (ofExcept wrap result).answer fs = result.mapError wrap := rfl

theorem answer_ofExcept_bind {ε : Type} (wrap : ε → WorkError) (result : Except ε α)
    (f : α → Work β) (fs : FileSystem) : (ofExcept wrap result >>= f).answer fs
      = result.mapError wrap >>= fun a => (f a).answer fs := by
  cases result <;> rfl

theorem Looks.mapM {f : α → Work β} (hf : ∀ a, (f a).Looks) (xs : List α) : (xs.mapM f).Looks := by
  induction xs with
  | nil => exact looks_pure []
  | cons a xs ih =>
    rw [List.mapM_cons]
    exact (hf a).bind fun b => ih.bind fun bs => looks_pure (b :: bs)

theorem answer_mapM {f : α → Work β} (hf : ∀ a, (f a).Looks) (xs : List α) (fs : FileSystem) :
    (xs.mapM f).answer fs = xs.mapM fun a => (f a).answer fs := by
  induction xs with
  | nil => rfl
  | cons a xs ih =>
    rw [List.mapM_cons, List.mapM_cons, answer_bind (hf a) fun b =>
      (Looks.mapM hf xs).bind fun bs => looks_pure (b :: bs)]
    refine bind_congr fun b => ?_
    rw [answer_bind (Looks.mapM hf xs) fun bs => looks_pure (b :: bs), ih]
    rfl

theorem Looks.foldlM {f : β → α → Work β} (hf : ∀ b a, (f b a).Looks) (xs : List α) (b : β) :
    (xs.foldlM f b).Looks := by
  induction xs generalizing b with
  | nil => exact looks_pure b
  | cons a xs ih =>
    rw [List.foldlM_cons]
    exact (hf b a).bind fun c => ih c

theorem answer_foldlM {f : β → α → Work β} (hf : ∀ b a, (f b a).Looks) (xs : List α) (b : β)
    (fs : FileSystem) : (xs.foldlM f b).answer fs = xs.foldlM (fun b a => (f b a).answer fs) b := by
  induction xs generalizing b with
  | nil => rfl
  | cons a xs ih =>
    rw [List.foldlM_cons, List.foldlM_cons, answer_bind (hf b a) fun c => Looks.foldlM hf xs c]
    exact bind_congr fun c => ih c

/-! ## What is looked at for a table -/

section Tables

variable (fs : FileSystem) (path : Path) (defined : List String) (T : SymbolTable)

theorem looks_loadManifest : (loadManifest path).Looks := by
  unfold loadManifest
  refine looks_files.bind fun fs => (looks_ofExcept _ _).bind fun file => ?_
  split
  · exact looks_throw _
  · exact (looks_log _ _).bind fun _ => looks_pure _

theorem looks_harvest : (harvest path defined T).Looks := by
  unfold harvest
  refine (looks_files.bind fun fs => looks_ofExcept _ _).bind fun source => ?_
  split
  · exact (looks_log _ _).bind fun _ => looks_pure _
  · exact (looks_ofExcept _ _).bind fun env => (looks_logRemarks _).bind fun _ => looks_pure _

theorem looks_addReference (file : FileStamp) : (addReference defined T file).Looks := by
  unfold addReference
  dsimp only
  split
  · exact (looks_loadManifest _).bind fun listed => looks_ofExcept _ _
  · exact looks_harvest _ _ _
  · exact (looks_log _ _).bind fun _ => looks_pure _

theorem looks_buildTable (key : ReferenceKey) : (buildTable key).Looks :=
  Looks.foldlM (looks_addReference key.defined) key.files Defaults.table

theorem looks_stampsAt (raw : String) : (stampsAt raw).Looks := by
  unfold stampsAt
  refine looks_files.bind fun fs => (looks_ofExcept _ _).bind fun found => ?_
  split
  · exact (looks_ofExcept _ _).bind fun paths => looks_pure _
  · exact (looks_log _ _).bind fun _ => looks_pure _

theorem answer_stampsAt (raw : String) :
    (stampsAt raw).answer fs = (fs.stampsOf raw).mapError .file := by
  unfold stampsAt FileSystem.stampsOf
  dsimp only
  rw [answer_files_bind, ofFile, answer_ofExcept_bind]
  cases fs.exists? (Path.ofString raw).text with
  | error e => rfl
  | ok found =>
    rw [mapError_ok, ok_bind, ok_bind]
    cases found with
    | false => rfl
    | true =>
      rw [if_pos rfl, if_pos rfl, ofFile, answer_ofExcept_bind]
      cases fs.referenceFiles (Path.ofString raw) <;> rfl

theorem answer_loadManifest : (loadManifest path).answer fs
    = (fs.readBytes path.text).mapError .file >>= fun bytes =>
      (Manifest.symbolsIn fs.host path.name bytes).mapError fun fault =>
        .manifest ⟨path.text, fault⟩ := by
  unfold loadManifest
  rw [answer_files_bind, ofFile, answer_ofExcept_bind]
  refine bind_congr fun bytes => ?_
  cases Manifest.symbolsIn fs.host path.name bytes <;> rfl

theorem answer_harvest : (harvest path defined T).answer fs
    = (fs.readSource path.text).mapError .file >>= fun source =>
      (T.withSource defined s!"source:{path.name}" source).mapError .reference := by
  unfold harvest readSource
  rw [bind_assoc, answer_files_bind, ofFile, answer_ofExcept_bind]
  refine bind_congr fun source => ?_
  unfold SymbolTable.withSource
  cases parseUnit source defined with
  | error e => rfl
  | ok root =>
    dsimp only
    rw [answer_ofExcept_bind]
    cases Environment.ofTree T s!"source:{path.name}" root <;> rfl

theorem answer_addReference (file : FileStamp) : (addReference defined T file).answer fs
    = match (Path.ofString file.path).referenceKind? with
      | some .manifest => (loadManifest (Path.ofString file.path)).answer fs >>= fun listed =>
          (T.addAllListed listed).mapError .space
      | some .source => (harvest (Path.ofString file.path) defined T).answer fs
      | none => .ok T := by
  unfold addReference
  dsimp only
  cases (Path.ofString file.path).referenceKind? with
  | none => rfl
  | some kind =>
    cases kind with
    | manifest => exact answer_bind (looks_loadManifest _) (fun _ => looks_ofExcept _ _) fs
    | source => rfl

/-- The table that is built depends on what is read only. -/
theorem answer_addReference_congr {fs fs' : FileSystem} {file : FileStamp}
    (hbytes : fs'.readBytes (Path.ofString file.path).text
      = fs.readBytes (Path.ofString file.path).text) (hhost : fs'.host = fs.host) :
    (addReference defined T file).answer fs' = (addReference defined T file).answer fs := by
  have hmanifest : (loadManifest (Path.ofString file.path)).answer fs'
      = (loadManifest (Path.ofString file.path)).answer fs := by
    rw [answer_loadManifest, answer_loadManifest, hbytes, hhost]
  have hharvest : (harvest (Path.ofString file.path) defined T).answer fs'
      = (harvest (Path.ofString file.path) defined T).answer fs := by
    rw [answer_harvest, answer_harvest, FileSystem.readSource, FileSystem.readSource, hbytes]
  rw [answer_addReference, answer_addReference, hmanifest, hharvest]

end Tables

end Work

/-! ## The cache -/

namespace ReferenceCache

theorem lookup_of_take {α β : Type} [BEq α] {n : Nat} {k : α} {v : β} {l : List (α × β)}
    (h : (l.take n).lookup k = some v) : l.lookup k = some v := by
  induction l generalizing n with
  | nil => rwa [List.take_nil] at h
  | cons e l ih =>
    cases n with
    | zero => cases h
    | succ n =>
      rw [List.take_succ_cons, List.lookup_cons] at h
      rw [List.lookup_cons]
      split at h
      · exact h
      · exact ih h

theorem lookup_filter_of_ne {α β : Type} [BEq α] [LawfulBEq α] {k key : α} (h : k ≠ key)
    (l : List (α × β)) : (l.filter fun e => !(e.1 == key)).lookup k = l.lookup k := by
  induction l with
  | nil => rfl
  | cons e l ih =>
    by_cases he : e.1 = key
    · rw [List.filter_cons_of_neg (by simp [he]), ih, List.lookup_cons, he, beq_false_of_ne h]
    · rw [List.filter_cons_of_pos (by simp [he]), List.lookup_cons, List.lookup_cons, ih]

/-- What is found after a table was used: this table, or what was found before. -/
theorem find?_use {cache : ReferenceCache} {key k : ReferenceKey} {T T' : SymbolTable}
    (h : (cache.use key T).find? k = some T') : k = key ∧ T' = T ∨ cache.find? k = some T' := by
  have hfound := lookup_of_take h
  rw [List.lookup_cons] at hfound
  by_cases hk : k = key
  · rw [hk, beq_self_eq_true] at hfound
    cases hfound
    exact .inl ⟨hk, rfl⟩
  · rw [beq_false_of_ne hk] at hfound
    dsimp only at hfound
    rw [lookup_filter_of_ne hk] at hfound
    exact .inr hfound

end ReferenceCache

namespace FileSystem

/-- The file at the path of the stamp has the time and the size of the stamp. -/
def Bears (fs : FileSystem) (s : FileStamp) : Prop :=
  ∃ f, fs.fileAt s.path = .ok f ∧ s.stamp = f.stamp ∧ s.size = f.content.size

/-- The key of the table for references. -/
def referenceKey (fs : FileSystem) (paths defined : List String) : Except FileError ReferenceKey :=
  (paths.mapM fs.stampsOf).map fun stamps => ⟨stamps.flatten, defined⟩

variable {fs : FileSystem}

theorem bears_of_fileStamp? {path : Path} {s : FileStamp} (h : fs.fileStamp? path = some s) :
    fs.Bears s := by
  unfold fileStamp? at h
  split at h
  · next f hf =>
    cases h
    exact ⟨f, hf, rfl, rfl⟩
  · cases h

theorem bears_of_stampsOf {raw : String} {stamps : List FileStamp}
    (h : fs.stampsOf raw = .ok stamps) : ∀ s ∈ stamps, fs.Bears s := by
  obtain ⟨found, -, h⟩ := ok_of_bind h
  intro s hs
  split at h
  · obtain ⟨paths, -, h⟩ := ok_of_bind h
    cases h
    obtain ⟨path, -, hpath⟩ := List.mem_filterMap.mp hs
    exact bears_of_fileStamp? hpath
  · cases h
    cases hs

theorem of_referenceKey {paths defined : List String} {key : ReferenceKey}
    (h : fs.referenceKey paths defined = .ok key) : key.defined = defined
      ∧ ∀ s ∈ key.files, ∃ raw ∈ paths, ∃ stamps, fs.stampsOf raw = .ok stamps ∧ s ∈ stamps := by
  obtain ⟨stamps, hstamps, rfl⟩ := ok_of_map h
  refine ⟨rfl, fun s hs => ?_⟩
  obtain ⟨found, hfound, hs⟩ := List.mem_flatten.mp hs
  obtain ⟨raw, hraw, hof⟩ := exists_of_mem_mapM hstamps hfound
  exact ⟨raw, hraw, found, hof, hs⟩

/-- The stamps of a key are those of the files. -/
theorem bears_of_referenceKey {paths defined : List String} {key : ReferenceKey}
    (h : fs.referenceKey paths defined = .ok key) : ∀ s ∈ key.files, fs.Bears s := by
  intro s hs
  obtain ⟨raw, -, stamps, hstamps, hs⟩ := (of_referenceKey h).2 s hs
  exact bears_of_stampsOf hstamps s hs

end FileSystem

/-- A file is read alike in two file systems on one host if it holds the same in both. -/
theorem FileSystem.readBytes_congr {fs fs' : FileSystem} {path : String} {f f' : File}
    (hf : fs.fileAt path = .ok f) (hf' : fs'.fileAt path = .ok f')
    (hcontent : f'.content = f.content) (hhost : fs'.host = fs.host) :
    fs'.readBytes path = fs.readBytes path := by
  have hrefusal : fs'.refusal? path = fs.refusal? path := by
    obtain ⟨location, hlocate, -⟩ := fileAt_eq_ok_iff.mp hf
    obtain ⟨location', hlocate', -⟩ := fileAt_eq_ok_iff.mp hf'
    rw [refusal?, refusal?, hlocate, hlocate', locate_inj hlocate hlocate', hhost]
  rw [readBytes, readBytes, hf, hf', hrefusal]
  dsimp only [bind, Except.bind]
  rw [hcontent]

namespace Work

section Contents

variable {fs fs' : FileSystem} {files : List FileStamp}
  (h : ∀ s ∈ files, ∃ f f', fs.fileAt s.path = .ok f ∧ fs'.fileAt s.path = .ok f'
    ∧ f'.content = f.content) (hhost : fs'.host = fs.host)

include h hhost

theorem answer_foldlM_congr (defined : List String) (T : SymbolTable) :
    (files.foldlM (addReference defined) T).answer fs'
      = (files.foldlM (addReference defined) T).answer fs := by
  rw [answer_foldlM (looks_addReference defined), answer_foldlM (looks_addReference defined)]
  induction files generalizing T with
  | nil => rw [List.foldlM_nil, List.foldlM_nil]
  | cons s files ih =>
    obtain ⟨f, f', hf, hf', hcontent⟩ := h s List.mem_cons_self
    rw [List.foldlM_cons, List.foldlM_cons, answer_addReference_congr _ _
      (FileSystem.readBytes_congr (FileSystem.fileAt_text hf) (FileSystem.fileAt_text hf') hcontent
        hhost) hhost]
    exact bind_congr fun T' => ih (fun s' hs' => h s' (List.mem_cons_of_mem s hs')) T'

/-- A table is built from the contents of the files under its key. -/
theorem answer_buildTable_congr (defined : List String) :
    (buildTable ⟨files, defined⟩).answer fs' = (buildTable ⟨files, defined⟩).answer fs :=
  answer_foldlM_congr h hhost defined Defaults.table

end Contents

theorem answer_mapM_stampsAt (paths : List String) (fs : FileSystem) :
    (paths.mapM stampsAt).answer fs = (paths.mapM fs.stampsOf).mapError .file := by
  rw [answer_mapM looks_stampsAt]
  induction paths with
  | nil => rfl
  | cons raw paths ih =>
    rw [List.mapM_cons, List.mapM_cons, ih, answer_stampsAt]
    cases fs.stampsOf raw with
    | error e => rfl
    | ok stamps => cases paths.mapM fs.stampsOf <;> rfl

end Work

/-- The table that is kept for references, if there is one, is the one that would be built. -/
def Workspace.Serves (w : Workspace) (paths defined : List String) : Prop :=
  ∀ key T, w.files.referenceKey paths defined = .ok key → w.cache.find? key = some T →
    (Work.buildTable key).answer w.files = .ok T

theorem Workspace.serves_empty (paths defined : List String) (fs : FileSystem) :
    Serves { files := fs } paths defined := by
  intro key T _ hfind
  cases hfind

namespace Work

variable {paths defined : List String}

/-- A table that is not kept is built, and is kept if it can be built. -/
theorem run_cachedTable_of_right {w : Workspace} {key : ReferenceKey}
    (h : ∀ T, w.cache.find? key = some T → (buildTable key).answer w.files = .ok T) :
    ∃ w', (cachedTable key).run.run w = ((buildTable key).answer w.files, w')
      ∧ w'.files = w.files ∧ (w'.cache = w.cache
        ∨ ∃ T, (buildTable key).answer w.files = .ok T ∧ w'.cache = w.cache.use key T) := by
  rw [run_cachedTable]
  cases hfind : w.cache.find? key with
  | some T =>
    rw [h T hfind]
    exact ⟨_, rfl, rfl, .inr ⟨T, rfl, rfl⟩⟩
  | none =>
    obtain ⟨log, hrun⟩ := looks_buildTable key w
    dsimp only
    rw [run_bind, hrun]
    cases (buildTable key).answer w.files with
    | error e => exact ⟨_, rfl, rfl, .inl rfl⟩
    | ok T => exact ⟨_, rfl, rfl, .inr ⟨T, rfl, rfl⟩⟩

/-- The table for references is built from the files as they are, or was built so before. It is kept
then. -/
theorem run_referenceTable {w : Workspace} (hw : w.Serves paths defined) :
    ∃ w', (referenceTable paths defined).run.run w
        = (if paths.isEmpty then .ok Defaults.table
            else (w.files.referenceKey paths defined).mapError .file >>= fun key =>
              (buildTable key).answer w.files, w')
      ∧ w'.files = w.files ∧ (w'.cache = w.cache
        ∨ ∃ key T, w.files.referenceKey paths defined = .ok key
          ∧ (buildTable key).answer w.files = .ok T ∧ w'.cache = w.cache.use key T) := by
  unfold referenceTable
  split
  · exact ⟨w, rfl, rfl, .inl rfl⟩
  · obtain ⟨log, hrun⟩ := Looks.mapM looks_stampsAt paths w
    rw [run_bind, hrun, answer_mapM_stampsAt]
    unfold Workspace.Serves FileSystem.referenceKey at hw
    unfold FileSystem.referenceKey
    cases hstamps : paths.mapM w.files.stampsOf with
    | error e => exact ⟨_, rfl, rfl, .inl rfl⟩
    | ok stamps =>
      rw [hstamps] at hw
      obtain ⟨w', hrun', hfiles, hcache⟩ := run_cachedTable_of_right (w := { w with log := log })
        fun T => hw ⟨stamps.flatten, defined⟩ T rfl
      exact ⟨w', hrun', hfiles, hcache.imp_right fun ⟨T, hT, huse⟩ => ⟨_, T, rfl, hT, huse⟩⟩

/-- Asking for a table leaves the files as they are, whatever is kept. -/
theorem files_referenceTable (paths defined : List String) (w : Workspace) :
    ((referenceTable paths defined).run.run w).2.files = w.files := by
  unfold referenceTable
  split
  · rfl
  · obtain ⟨log, hrun⟩ := Looks.mapM looks_stampsAt paths w
    rw [run_bind, hrun]
    cases (paths.mapM stampsAt).answer w.files with
    | error e => rfl
    | ok stamps =>
      dsimp only
      rw [run_cachedTable]
      split
      · rfl
      · obtain ⟨log', hrun'⟩ := looks_buildTable ⟨stamps.flatten, defined⟩ { w with log := log }
        rw [run_bind, hrun']
        cases (buildTable ⟨stamps.flatten, defined⟩).answer w.files <;> rfl

/-- The table for references as it is built afresh. -/
theorem answer_referenceTable (paths defined : List String) (fs : FileSystem) :
    (referenceTable paths defined).answer fs
      = if paths.isEmpty then .ok Defaults.table
        else (fs.referenceKey paths defined).mapError .file >>= fun key =>
          (buildTable key).answer fs := by
  obtain ⟨w', hrun, -⟩ := run_referenceTable (Workspace.serves_empty paths defined fs)
  rw [answer, hrun]

end Work

/-! ## Changes on one host -/

namespace FileSystem.Change

variable {α β : Type}

/-- The change leaves the system as it is that the files are on. -/
def KeepsHost (c : Change α) : Prop := ∀ fs : FileSystem, (c.run.run fs).2.host = fs.host

theorem keepsHost_fail (path : String) (fault : FileFault) :
    (fail path fault : Change α).KeepsHost := fun _ => rfl

theorem keepsHost_modify {f : FileSystem → FileSystem} (h : ∀ fs, (f fs).host = fs.host) :
    (modify f : Change Unit).KeepsHost := h

theorem KeepsHost.bind {c : Change α} {f : α → Change β} (hc : c.KeepsHost)
    (hf : ∀ a, (f a).KeepsHost) : (c >>= f).KeepsHost := by
  intro fs
  rw [ExceptT.run_bind, StateT.run_bind, ← hc fs]
  generalize c.run.run fs = ended
  obtain ⟨result, fs'⟩ := ended
  cases result with
  | error e => rfl
  | ok a => exact hf a fs'

theorem keepsHost_get_bind {f : FileSystem → Change α} (hf : ∀ fs, (f fs).KeepsHost) :
    (get >>= f).KeepsHost := fun fs => hf fs fs

theorem keepsHost_makeSteps (path : String) (made : Bool) (here : Location) (steps : List String) :
    (makeSteps path made here steps).KeepsHost := by
  induction steps generalizing made here with
  | nil => exact fun _ => rfl
  | cons step steps ih =>
    rw [makeSteps]
    refine keepsHost_get_bind fun fs => ?_
    split
    · exact keepsHost_fail _ _
    split
    · exact ih made _
    split
    · exact keepsHost_fail _ _
    refine keepsHost_get_bind fun fs => ?_
    split
    · exact ih made _
    · exact keepsHost_fail _ _
    · refine KeepsHost.bind ?_ fun _ => ih true _
      exact keepsHost_modify fun _ => rfl

theorem keepsHost_makeDirectory (path : Path) : (makeDirectory path).KeepsHost := by
  unfold makeDirectory
  split
  · exact keepsHost_fail _ _
  · exact keepsHost_makeSteps _ _ _ _

theorem keepsHost_write (path : Path) (content : ByteArray) (stamp : Option Stamp) :
    (write path content stamp).KeepsHost := by
  unfold write
  refine (keepsHost_makeDirectory path.parent).bind fun here => ?_
  split
  · exact keepsHost_fail _ _
  refine keepsHost_get_bind fun fs => ?_
  split
  · refine keepsHost_get_bind fun fs => ?_
    split
    · exact keepsHost_modify fun _ => rfl
    · exact keepsHost_fail _ _
  · exact keepsHost_modify fun _ => rfl
  · exact keepsHost_fail _ _

theorem keepsHost_delete (path : Path) : (delete path).KeepsHost := by
  unfold delete
  refine keepsHost_get_bind fun fs => ?_
  split
  · exact keepsHost_fail _ _
  refine keepsHost_get_bind fun fs => ?_
  split
  · exact keepsHost_modify fun _ => rfl
  · exact keepsHost_fail _ _

end FileSystem.Change

/-! ## Histories -/

namespace Workspace

/-- What may happen to a workspace: its files change, or a table is asked for. -/
inductive Event where
  | write (path : Path) (content : ByteArray) (stamp : Option Stamp)
  | delete (path : Path)
  | makeDirectory (path : Path)
  | ask (references defined : List String)

/-- The workspace after an event. A change that fails may have made directories. -/
def after (w : Workspace) : Event → Workspace
  | .write path content stamp =>
    { w with files := ((FileSystem.Change.write path content stamp).run.run w.files).2 }
  | .delete path => { w with files := ((FileSystem.Change.delete path).run.run w.files).2 }
  | .makeDirectory path =>
    { w with files := ((FileSystem.Change.makeDirectory path).run.run w.files).2 }
  | .ask references defined => ((Work.referenceTable references defined).run.run w).2

/-- The files as they are at the start, between the events and at the end. -/
def filesDuring (w : Workspace) : List Event → List FileSystem
  | [] => [w.files]
  | event :: events => w.files :: filesDuring (w.after event) events

/-- Time and size tell the contents of a path apart, whenever they are looked at. -/
def StampsTell (history : List FileSystem) : Prop :=
  ∀ fs ∈ history, ∀ fs' ∈ history, ∀ path f f', fs.fileAt path = .ok f →
    fs'.fileAt path = .ok f' → f'.stamp = f.stamp → f'.content.size = f.content.size →
    f'.content = f.content

/-- Every table that is kept was built from files of the past with the stamps of its key. -/
def Remembers (w : Workspace) (past : List FileSystem) : Prop :=
  ∀ key T, w.cache.find? key = some T → ∃ fs ∈ past, (∀ s ∈ key.files, fs.Bears s)
    ∧ (Work.buildTable key).answer fs = .ok T

variable {w : Workspace} {past : List FileSystem}

theorem host_after (w : Workspace) (event : Event) :
    (w.after event).files.host = w.files.host := by
  cases event with
  | write path content stamp => exact FileSystem.Change.keepsHost_write path content stamp w.files
  | delete path => exact FileSystem.Change.keepsHost_delete path w.files
  | makeDirectory path => exact FileSystem.Change.keepsHost_makeDirectory path w.files
  | ask references defined =>
    exact congrArg FileSystem.host (Work.files_referenceTable references defined w)

/-- All that happens is on one host. -/
theorem host_of_mem_filesDuring {events : List Event} {fs : FileSystem}
    (h : fs ∈ w.filesDuring events) : fs.host = w.files.host := by
  induction events generalizing w with
  | nil => rw [List.mem_singleton.mp h]
  | cons event events ih =>
    rcases List.mem_cons.mp h with rfl | h
    · rfl
    · exact (ih h).trans (host_after w event)

/-- What is remembered is right, as long as stamps tell contents apart. -/
theorem Remembers.serves (h : w.Remembers past) (hstamps : StampsTell past)
    (hhost : ∀ fs ∈ past, ∀ fs' ∈ past, fs'.host = fs.host) (hnow : w.files ∈ past)
    (references defined : List String) : w.Serves references defined := by
  intro key T hkey hfind
  obtain ⟨fs, hfs, hbears, hbuilt⟩ := h key T hfind
  rw [← hbuilt]
  refine Work.answer_buildTable_congr (fun s hs => ?_) (hhost fs hfs _ hnow) key.defined
  obtain ⟨f, hf, hstamp, hsize⟩ := hbears s hs
  obtain ⟨f', hf', hstamp', hsize'⟩ := FileSystem.bears_of_referenceKey hkey s hs
  exact ⟨f, f', hf, hf', hstamps fs hfs _ hnow s.path f f' hf hf' (hstamp'.symm.trans hstamp)
    (hsize'.symm.trans hsize)⟩

/-- An event adds a table of the present to what is remembered, if any. -/
theorem Remembers.after (h : w.Remembers past) (hstamps : StampsTell past)
    (hhost : ∀ fs ∈ past, ∀ fs' ∈ past, fs'.host = fs.host) (hnow : w.files ∈ past)
    (event : Event) : (w.after event).Remembers past := by
  cases event with
  | write path content stamp => exact h
  | delete path => exact h
  | makeDirectory path => exact h
  | ask references defined =>
    obtain ⟨w', hrun, -, hcache⟩ :=
      Work.run_referenceTable (h.serves hstamps hhost hnow references defined)
    intro key T hfind
    rw [Workspace.after, hrun] at hfind
    rcases hcache with hcache | ⟨key', T', hkey', hbuilt, hcache⟩
    · rw [hcache] at hfind
      exact h key T hfind
    · rw [hcache] at hfind
      rcases ReferenceCache.find?_use hfind with ⟨rfl, rfl⟩ | hfind
      · exact ⟨w.files, hnow, FileSystem.bears_of_referenceKey hkey', hbuilt⟩
      · exact h key T hfind

theorem mem_filesDuring (w : Workspace) (events : List Event) :
    w.files ∈ w.filesDuring events ∧ (events.foldl after w).files ∈ w.filesDuring events := by
  induction events generalizing w with
  | nil => exact ⟨List.mem_singleton_self _, List.mem_singleton_self _⟩
  | cons event events ih =>
    exact ⟨List.mem_cons_self, List.mem_cons_of_mem _ (ih (w.after event)).2⟩

/-- Through a whole history, what is remembered was built during it. -/
theorem Remembers.foldl {events : List Event} (h : w.Remembers past) (hstamps : StampsTell past)
    (hhost : ∀ fs ∈ past, ∀ fs' ∈ past, fs'.host = fs.host)
    (hduring : w.filesDuring events ⊆ past) : (events.foldl Workspace.after w).Remembers past := by
  induction events generalizing w with
  | nil => exact h
  | cons event events ih =>
    have hnow : w.files ∈ past := hduring List.mem_cons_self
    refine ih (h.after hstamps hhost hnow event) fun fs hfs => hduring (List.mem_cons_of_mem _ hfs)

/-- After any history of files written and deleted and of tables asked for, a table that is asked
for is the one that is built afresh from the files as they are, or the error is the same, if time
and size told the contents of each path apart. -/
theorem referenceTable_as_afresh {fs : FileSystem} {events : List Event}
    (hstamps : StampsTell (filesDuring { files := fs } events)) (references defined : List String) :
    ((Work.referenceTable references defined).run.run
        (events.foldl Workspace.after { files := fs })).1
      = (Work.referenceTable references defined).answer
        (events.foldl Workspace.after { files := fs }).files := by
  have hstart : Workspace.Remembers { files := fs } (filesDuring { files := fs } events) :=
    fun key T hfind => by cases hfind
  have hhost : ∀ fs₁ ∈ filesDuring { files := fs } events,
      ∀ fs₂ ∈ filesDuring { files := fs } events, fs₂.host = fs₁.host := fun _ h₁ _ h₂ =>
    (host_of_mem_filesDuring h₂).trans (host_of_mem_filesDuring h₁).symm
  have hserves := (hstart.foldl hstamps hhost fun _ h => h).serves hstamps hhost
    (mem_filesDuring _ events).2 references defined
  obtain ⟨w', hrun, -⟩ := Work.run_referenceTable hserves
  rw [hrun, Work.answer_referenceTable]

/-- A file that is found is one of the entries. -/
theorem mem_entries_of_fileAt {fs : FileSystem} {path : String} {f : File}
    (h : fs.fileAt path = .ok f) : Entry.file f ∈ fs.entries.map (·.2) := by
  obtain ⟨location, -, hentry⟩ := FileSystem.fileAt_eq_ok_iff.mp h
  unfold FileSystem.entryAt? at hentry
  split at hentry
  · cases hentry
  · exact List.mem_map_of_mem (mem_of_lookup_eq_some hentry)

/-- A source that is edited, to the same size, after its table was asked for. -/
theorem referenceTable_as_afresh_edited :
    let events : List Event :=
      [.write { parts := ["A.cs"] } (Encoding.encode "class A{}") (some (.set 0)),
        .ask ["A.cs"] [],
        .write { parts := ["A.cs"] } (Encoding.encode "class B{}") (some (.set 1))]
    StampsTell (filesDuring { files := {} } events)
      ∧ ((Work.referenceTable ["A.cs"] []).run.run
          (events.foldl Workspace.after { files := {} })).1
        = (Work.referenceTable ["A.cs"] []).answer
          (events.foldl Workspace.after { files := {} }).files := by
  intro events
  have hstamps : StampsTell (filesDuring { files := {} } events) := by
    subst events
    generalize Encoding.encode "class A{}" = before
    generalize Encoding.encode "class B{}" = after
    -- asking for the table does not touch the file
    have hwritten : Workspace.after { files := {} }
        (.write { parts := ["A.cs"] } before (some (.set 0)))
        = { files := ⟨[(["A.cs"], .file ⟨before, .set 0⟩)], 1, {}⟩ } := rfl
    obtain ⟨w, hrun, hfiles, -⟩ := Work.run_referenceTable
      (serves_empty ["A.cs"] [] ⟨[(["A.cs"], .file ⟨before, .set 0⟩)], 1, {}⟩)
    have hedited : ((FileSystem.Change.write { parts := ["A.cs"] } after (some (.set 1))).run.run
        ⟨[(["A.cs"], .file ⟨before, .set 0⟩)], 1, {}⟩).2
        = ⟨[(["A.cs"], .file ⟨after, .set 1⟩)], 2, {}⟩ := rfl
    have hduring : filesDuring { files := {} }
        [.write { parts := ["A.cs"] } before (some (.set 0)), .ask ["A.cs"] [],
          .write { parts := ["A.cs"] } after (some (.set 1))]
        = [{}, ⟨[(["A.cs"], .file ⟨before, .set 0⟩)], 1, {}⟩,
          ⟨[(["A.cs"], .file ⟨before, .set 0⟩)], 1, {}⟩,
          ⟨[(["A.cs"], .file ⟨after, .set 1⟩)], 2, {}⟩] := by
      simp only [filesDuring, hwritten]
      simp only [Workspace.after, hrun, hfiles, hedited]
    have hfound : ∀ fs ∈ filesDuring { files := {} }
        [.write { parts := ["A.cs"] } before (some (.set 0)), .ask ["A.cs"] [],
          .write { parts := ["A.cs"] } after (some (.set 1))], ∀ path f,
        fs.fileAt path = .ok f → f = ⟨before, .set 0⟩ ∨ f = ⟨after, .set 1⟩ := by
      intro fs hfs path f hf
      have hmem := mem_entries_of_fileAt hf
      rw [hduring] at hfs
      simp only [List.mem_cons, List.not_mem_nil, or_false] at hfs
      rcases hfs with rfl | rfl | rfl | rfl
      · cases hmem
      all_goals simp_all
    intro fs hfs fs' hfs' path f f' hf hf' hstamp _
    rcases hfound fs hfs path f hf with rfl | rfl <;>
      rcases hfound fs' hfs' path f' hf' with rfl | rfl
    · rfl
    · cases hstamp
    · cases hstamp
    · rfl
  exact ⟨hstamps, referenceTable_as_afresh hstamps ["A.cs"] []⟩

end Workspace

end NullableMarker
