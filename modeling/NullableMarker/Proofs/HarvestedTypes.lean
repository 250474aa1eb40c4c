import NullableMarker.Proofs.CachedTables
import NullableMarker.Proofs.DisabledText
import NullableMarker.Proofs.Formatting

/-!
# Types of annotated references

A source that is annotated may be a reference of others. It declares the same types before and
after: marks and the header do not change its declarations, and a mark of byte order that is lost
was a blank. So the table of references stays the same while sources are annotated, unless one of
them is read as a manifest, or is cut off when it is written.

* `SymbolTable.withSource_annotated` — the types that an annotated source adds
* `IsAnnotated.decode_encode` — annotated text is read back from its bytes
* `Work.answer_referenceTable_put` — the table after a file was annotated
* `Work.error_of_referenceTable` — what can go wrong with references that were loaded before
-/

namespace NullableMarker

/-! ## A mark of byte order -/

theorem fresh_of_blanks {s : List Char} (h : ∀ c ∈ s, isBlank c = true) :
    s.foldl ScanState.freshAfter true = true := by
  induction s with
  | nil => rfl
  | cons c s ih =>
    rw [List.foldl_cons, ScanState.freshAfter, h c List.mem_cons_self, Bool.and_self, Bool.or_true]
    exact ih fun d hd => h d (List.mem_cons_of_mem c hd)

/-- Blanks at the start of a line are a lexeme, and the line is as blank after them. -/
theorem cut_dropWhile_blank (st : ScanState) (hactive : st.region.isActive = true)
    (hfresh : st.fresh = true) (s : List Char) :
    ∃ ls st', (∀ l ∈ ls, ∃ kind, l.kind = .trivia kind) ∧ st'.region = st.region
      ∧ st'.fresh = st.fresh
      ∧ cut st s = (cut st' (s.dropWhile isBlank)).map (Cut.prepend ls) := by
  have hnone : cut st s = (cut st s).map (Cut.prepend []) := by cases cut st s <;> rfl
  cases s with
  | nil => exact ⟨[], st, by simp, rfl, rfl, hnone⟩
  | cons c r =>
  cases hc : isBlank c with
  | false =>
    rw [List.dropWhile_cons_of_neg (by simp [hc])]
    exact ⟨[], st, by simp, rfl, rfl, hnone⟩
  | true =>
    have hahead : lexemeAhead st.fresh st.region.isActive c r
        = .ok (.trivia .whitespace, (r.takeWhile isBlank).length) :=
      LexemeStarts.ok (.whitespace (by rw [hactive]; rfl) hc rfl)
    have hstep : ∃ step, st.step c r = .ok (step, r.drop (r.takeWhile isBlank).length)
        ∧ step.lexeme.kind = .trivia .whitespace ∧ step.after.region = st.region
        ∧ step.after.fresh = ((c :: r).take ((r.takeWhile isBlank).length + 1)).foldl
          ScanState.freshAfter st.fresh := by
      unfold ScanState.step
      rw [hahead]
      exact ⟨_, rfl, rfl, rfl, rfl⟩
    obtain ⟨step, hstep, hkind, hregion, hline⟩ := hstep
    have hsplit : r.takeWhile isBlank ++ r.dropWhile isBlank = r :=
      List.takeWhile_append_dropWhile
    have hdrop : r.drop (r.takeWhile isBlank).length = r.dropWhile isBlank :=
      (congrArg (List.drop _) hsplit.symm).trans List.drop_left
    have htake : r.take (r.takeWhile isBlank).length = r.takeWhile isBlank :=
      (congrArg (List.take _) hsplit.symm).trans List.take_left
    refine ⟨[step.lexeme], step.after, ?_, hregion, ?_, ?_⟩
    · intro l hl
      rw [List.mem_singleton.mp hl]
      exact ⟨_, hkind⟩
    · rw [hline, hfresh, List.take_succ_cons, htake]
      refine fresh_of_blanks fun d hd => ?_
      rcases List.mem_cons.mp hd with rfl | hd
      · exact hc
      · exact List.mem_takeWhile_imp hd
    · rw [cut_step, hstep, ok_bind, List.dropWhile_cons_of_pos hc, ← hdrop]

/-- A mark of byte order that is not taken away is a blank: the tokens are the same. -/
theorem ofSource_orderMark {source : String} {defined : List String} {stream : TokenStream}
    (h : TokenStream.ofSource (withoutOrderMark source) defined = .ok stream) :
    ∃ stream', TokenStream.ofSource source defined = .ok stream'
      ∧ stream'.all.map Token.spelling = stream.all.map Token.spelling := by
  have hrest : (withoutOrderMark source).toList.dropWhile isBlank
      = source.toList.dropWhile isBlank := by
    unfold withoutOrderMark
    split
    · next rest hsource =>
      rw [hsource, String.toList_ofList, List.dropWhile_cons_of_pos (by decide)]
    · rfl
  obtain ⟨ls, st, hls, hregion, hfresh, hcut⟩ :=
    cut_dropWhile_blank { region := Region.start defined } rfl rfl (withoutOrderMark source).toList
  obtain ⟨ls', st', hls', hregion', hfresh', hcut'⟩ :=
    cut_dropWhile_blank { region := Region.start defined } rfl rfl source.toList
  obtain ⟨pieces, hpieces, rfl⟩ := ok_of_map h
  rw [hcut, hrest] at hpieces
  obtain ⟨after, hafter, rfl⟩ := ok_of_map hpieces
  obtain ⟨after', hafter', hfaces, -⟩ := cut_congr hafter (hregion'.trans hregion.symm)
    (hfresh'.trans hfresh.symm)
  refine ⟨TokenStream.ofCut (Cut.prepend ls' after'), ?_, ?_⟩
  · rw [TokenStream.ofSource, hcut', hafter']
    rfl
  · rw [map_spelling_ofCut, map_spelling_ofCut, Cut.prepend, Cut.prepend, List.filterMap_append,
      List.filterMap_append, Lexeme.filterMap_spelling?_trivia hls,
      Lexeme.filterMap_spelling?_trivia hls', Lexeme.filterMap_spelling?_congr hfaces]

/-! ## Declared types -/

/-- A woven tree declares the same types. -/
theorem Weaving.Retells.declaredTypes_eq {w : Weaving} {root : Tree} (hw : w.Retells root)
    {references : SymbolTable} {origin : String} {env : Environment}
    (h : Environment.ofTree references origin root = .ok env) :
    ∃ env', Environment.ofTree references origin (w.tree root) = .ok env'
      ∧ env'.declaredTypes = env.declaredTypes := by
  obtain ⟨env', henv', hstates⟩ := hw.exists_ofTree h
  have hkeys : (typeDeclarations ((w.tree root).scoped [])).filterMap (·.declaredKey?)
      = (typeDeclarations (root.scoped [])).filterMap (·.declaredKey?) :=
    filterMap_eq_of_forall₂ hw.forall₂_typeDeclarations fun s s' hs => hs.declaredKey?_eq
  refine ⟨env', henv', ?_⟩
  rw [Environment.declaredTypes, Environment.declaredTypes, (Environment.root_of_ofTree h).2,
    (Environment.root_of_ofTree henv').2, hkeys, Environment.table, Environment.table,
    hstates.1]

/-- The text is that of the source with the header and with marks, for some verdicts. -/
def IsAnnotated (defined : List String) (source text : String) : Prop :=
  ∃ root v, loadUnit source defined = .ok root ∧ text = (root.mark v).addHeader.fullText

namespace SymbolTable

variable {T T' : SymbolTable} {defined : List String} {origin source source' : String} {root : Tree}

/-- A source that is read as a woven tree adds the same types. -/
theorem withSource_woven {w : Weaving} (hw : w.Retells root)
    (hroot : parseUnit source defined = .ok root)
    (hroot' : parseUnit source' defined = .ok (w.tree root))
    (h : T.withSource defined origin source = .ok T') :
    T.withSource defined origin source' = .ok T' := by
  rw [withSource, hroot] at h
  obtain ⟨env, henv, rfl⟩ := ok_of_map h
  obtain ⟨env', henv', htypes⟩ := hw.declaredTypes_eq henv
  rw [withSource, hroot']
  dsimp only
  rw [henv', ← htypes]
  rfl

/-- A source that can be annotated adds the same types before and after. -/
theorem withSource_annotated {text : String} (htext : IsAnnotated defined source text)
    (h : T.withSource defined origin source = .ok T') :
    T.withSource defined origin text = .ok T' := by
  obtain ⟨root, v, hload, rfl⟩ := htext
  obtain ⟨stream, hstream, -⟩ := stream_of_readSource hload
  obtain ⟨stream', hstream', hsame⟩ := ofSource_orderMark hstream
  -- the source with its mark of byte order is read like the one without
  obtain ⟨w, -, -, hroot'⟩ := parseUnit_respelled hstream hstream' hsame hload
  obtain ⟨w', -, hw', hback⟩ := parseUnit_respelled hstream' hstream hsame.symm hroot'
  have hbare := withSource_woven hw' hroot' hback h
  obtain ⟨w'', hannotated, hw'', -⟩ := parseUnit_annotated v hload
  exact withSource_woven (hw''.retells (Tree.isUnitOf_of_parseUnit hload).toIsTreeOf) hload
    hannotated hbare

end SymbolTable

/-! ## Annotated text is read back -/

/-- The bytes of a text start with its first character. -/
theorem Encoding.utf8DecodeChar?_encode {text : String} {c : Char} {cs : List Char}
    (h : text.toList = c :: cs) : (encode text).utf8DecodeChar? 0 = some c := by
  have hbytes : encode text = (String.utf8EncodeChar c).toByteArray ++ cs.utf8Encode := by
    rw [encode, ← String.ofList_toList (s := text), h, String.toUTF8_eq_toByteArray,
      String.toByteArray_ofList, List.utf8Encode_cons, List.utf8Encode_singleton]
  rw [hbytes, ByteArray.utf8DecodeChar?_utf8EncodeChar_append]

/-- A text is read back from its bytes, unless it starts with a mark of byte order. -/
theorem Encoding.decode_encode_of_head {text : String} (h : text.toList.head? ≠ some '\ufeff') :
    decode (encode text) = text := by
  cases htext : text.toList with
  | nil =>
    rw [← String.ofList_toList (s := text), htext]
    decide +kernel
  | cons c cs =>
    have hfirst := utf8DecodeChar?_encode htext
    refine decode_encode ?_ ?_
    · rw [← Bool.not_eq_true]
      intro hmark
      obtain ⟨rest, hrest⟩ := List.isPrefixOf_iff_prefix.mp hmark
      have hbytes : encode text
          = (String.utf8EncodeChar '\ufeff').toByteArray ++ rest.toByteArray := by
        refine ByteArray.ext (Array.ext' ?_)
        rw [← hrest, ByteArray.data_append, List.data_toByteArray, List.data_toByteArray,
          List.append_toArray]
        rfl
      rw [hbytes, ByteArray.utf8DecodeChar?_utf8EncodeChar_append] at hfirst
      rw [htext, List.head?_cons, ← hfirst] at h
      exact h rfl
    · rw [← Bool.not_eq_true]
      intro hpartial
      obtain ⟨hsize, hprefix⟩ := Bool.and_eq_true_iff.mp hpartial
      have hsize : (encode text).data.toList.length < 3 := of_decide_eq_true hsize
      have htake := List.prefix_iff_eq_take.mp (List.isPrefixOf_iff_prefix.mp hprefix)
      have hbytes : encode text = (orderMark.take (encode text).data.toList.length).toByteArray :=
        ByteArray.ext (Array.ext' (by rw [List.data_toByteArray, ← htake]))
      have hnone : ∀ n < 3, (orderMark.take n).toByteArray.utf8DecodeChar? 0 = none := by
        decide +kernel
      rw [hbytes, hnone _ hsize] at hfirst
      cases hfirst

theorem head?_of_withoutOrderMark {s : String} (h : withoutOrderMark s = s) :
    s.toList.head? ≠ some '\ufeff' := by
  intro hhead
  obtain ⟨rest, hs⟩ := List.head?_eq_some_iff.mp hhead
  have hrest : withoutOrderMark s = String.ofList rest := by
    rw [withoutOrderMark, hs]
    rfl
  rw [h] at hrest
  rw [hrest, String.toList_ofList] at hs
  exact List.cons_ne_self _ _ hs.symm

/-- Annotated text is read back from its bytes. -/
theorem IsAnnotated.decode_encode {defined : List String} {source text : String}
    (h : IsAnnotated defined source text) : Encoding.decode (Encoding.encode text) = text := by
  obtain ⟨root, v, hload, rfl⟩ := h
  have hroot : root.IsUnitOf (withoutOrderMark source) := Tree.isUnitOf_of_parseUnit hload
  exact Encoding.decode_encode_of_head
    (head?_of_withoutOrderMark (hroot.withoutOrderMark_annotated v))

/-! ## References in file systems of one shape -/

theorem map_mapM {ε α β γ : Type} (f : α → Except ε β) (g : β → γ) (as : List α) :
    (as.mapM f).map (List.map g) = as.mapM fun a => (f a).map g := by
  induction as with
  | nil => rfl
  | cons a as ih =>
    rw [List.mapM_cons, List.mapM_cons, ← ih]
    cases f a with
    | error e => rfl
    | ok b => cases as.mapM f <;> rfl

namespace FileSystem

variable {fs fs' : FileSystem}

/-- A reference in the list is of the kind, and the path leads to it. -/
def IsReference (fs : FileSystem) (kind : ReferenceKind) (references : List String)
    (path : String) : Prop :=
  ∃ raw ∈ references, ∃ stamps, fs.stampsOf raw = .ok stamps ∧ ∃ s ∈ stamps,
    (Path.ofString s.path).referenceKind? = some kind ∧ fs.locate s.path = fs.locate path

theorem not_isReference_singleton {kind : ReferenceKind} {raw path : String} {s : FileStamp}
    (hstamps : fs.stampsOf raw = .ok [s])
    (hs : (Path.ofString s.path).referenceKind? = some kind →
      fs.locate s.path ≠ fs.locate path) : ¬ fs.IsReference kind [raw] path := by
  rintro ⟨raw', hraw', stamps, hstamps', s', hs', hkind, hlocate⟩
  rw [List.mem_singleton.mp hraw', hstamps] at hstamps'
  cases hstamps'
  rw [List.mem_singleton.mp hs'] at hkind hlocate
  exact hs hkind hlocate

namespace SameShape

theorem fileStamp? (h : SameShape fs fs') (path : Path) :
    (fs'.fileStamp? path).map (·.path) = (fs.fileStamp? path).map (·.path) := by
  unfold FileSystem.fileStamp?
  rcases h.fileAt path.text with ⟨f, f', hf, hf'⟩ | heq
  · rw [hf, hf']
    rfl
  · rw [heq]

/-- The same references are found, whatever their times and sizes. -/
theorem stampsOf (h : SameShape fs fs') (raw : String) :
    (fs'.stampsOf raw).map (List.map (·.path)) = (fs.stampsOf raw).map (List.map (·.path)) := by
  unfold FileSystem.stampsOf
  rw [h.exists?, h.referenceFiles]
  cases fs.exists? (Path.ofString raw).text with
  | error e => rw [error_bind, error_bind]
  | ok found =>
  rw [ok_bind, ok_bind]
  cases found with
  | false => rw [if_neg Bool.false_ne_true, if_neg Bool.false_ne_true]
  | true =>
  rw [if_pos rfl, if_pos rfl]
  cases fs.referenceFiles (Path.ofString raw) with
  | error e => rw [error_bind, error_bind]
  | ok paths =>
    refine congrArg Except.ok ?_
    rw [List.map_filterMap, List.map_filterMap]
    exact List.filterMap_congr fun path _ => h.fileStamp? path

theorem referenceKey (h : SameShape fs fs') (paths defined : List String) :
    (fs'.referenceKey paths defined).map (fun key => key.files.map (·.path))
      = (fs.referenceKey paths defined).map fun key => key.files.map (·.path) := by
  have hpaths : ∀ fs : FileSystem,
      (fs.referenceKey paths defined).map (fun key => key.files.map (·.path))
        = (paths.mapM fun raw => (fs.stampsOf raw).map (List.map (·.path))).map List.flatten := by
    intro fs
    rw [← map_mapM, FileSystem.referenceKey]
    cases paths.mapM fs.stampsOf with
    | error e => rfl
    | ok stamps => exact congrArg Except.ok List.map_flatten
  rw [hpaths, hpaths]
  simp only [h.stampsOf]

theorem isReference (h : SameShape fs fs') {kind : ReferenceKind} {references : List String}
    {path : String} (hreference : fs'.IsReference kind references path) :
    fs.IsReference kind references path := by
  obtain ⟨raw, hraw, stamps', hstamps', s', hs', hkind, hlocate⟩ := hreference
  have hpaths := h.stampsOf raw
  rw [hstamps'] at hpaths
  obtain ⟨stamps, hstamps, hmap⟩ := ok_of_map hpaths.symm
  have hpath : s'.path ∈ stamps.map (·.path) := by
    rw [hmap]
    exact List.mem_map_of_mem hs'
  obtain ⟨s, hs, hpath⟩ := List.mem_map.mp hpath
  rw [h.locate, h.locate] at hlocate
  refine ⟨raw, hraw, stamps, hstamps, s, hs, ?_, ?_⟩
  · rw [hpath, hkind]
  · rw [hpath, hlocate]

end SameShape

end FileSystem

/-! ## Tables after a reference was annotated -/

namespace FileSystem

variable {fs : FileSystem}

/-- A source that is read stands at a location that can be read. -/
theorem readSource_eq_ok_iff {path source : String} : fs.readSource path = .ok source
    ↔ ∃ location f, fs.locate path = .ok location ∧ fs.entryAt? location = some (.file f)
      ∧ fs.host.reading location = none ∧ Encoding.decode f.content = source := by
  constructor
  · intro h
    obtain ⟨bytes, hbytes, hdecode⟩ := ok_of_map h
    obtain ⟨f, hf, hbytes⟩ := ok_of_bind hbytes
    obtain ⟨location, hlocate, hentry⟩ := fileAt_eq_ok_iff.mp hf
    rw [refusal?, hlocate] at hbytes
    dsimp only at hbytes
    cases hreading : fs.host.reading location with
    | some r => rw [hreading] at hbytes; cases hbytes
    | none =>
      rw [hreading] at hbytes
      cases hbytes
      exact ⟨location, f, hlocate, hentry, hreading, hdecode⟩
  · rintro ⟨location, f, hlocate, hentry, hreading, hdecode⟩
    rw [readSource, readBytes, fileAt_eq_ok_iff.mpr ⟨location, hlocate, hentry⟩, refusal?, hlocate]
    dsimp only [bind, Except.bind]
    rw [hreading]
    exact congrArg Except.ok hdecode

end FileSystem

namespace Work

variable {fs : FileSystem} {location : Location} {f : File} {content : ByteArray}
  {source text : String} {defined : List String}

section Put

variable (hentry : fs.entryAt? location = some (.file f))
  (hsource : Encoding.decode f.content = source) (hreading : fs.host.reading location = none)
  (htext : IsAnnotated defined source text)

include hentry hsource hreading htext

/-- A reference adds the same types after a file was written, if it is another file, or a source that
was annotated. -/
theorem answer_addReference_put {T T' : SymbolTable} {s s' : FileStamp} (hpath : s'.path = s.path)
    (hs : ∃ f, fs.fileAt s.path = .ok f)
    (hsafe : fs.locate s.path = .ok location →
      (Path.ofString s.path).referenceKind? ≠ some .manifest
      ∧ ((Path.ofString s.path).referenceKind? = some .source → content = Encoding.encode text))
    (h : (addReference defined T s).answer fs = .ok T') :
    (addReference defined T s').answer (fs.put location content none) = .ok T' := by
  obtain ⟨g, hg⟩ := hs
  have hsame : addReference defined T s' = addReference defined T s := by
    unfold addReference
    rw [hpath]
  rw [hsame]
  obtain ⟨there, hlocate, -⟩ := FileSystem.fileAt_eq_ok_iff.mp hg
  have htext' := FileSystem.locate_text hlocate
  have hshape := FileSystem.sameShape_put hentry content none
  by_cases hhere : there = location
  · -- the reference is the file that was written
    subst hhere
    obtain ⟨hmanifest, hcontent⟩ := hsafe hlocate
    rw [answer_addReference] at h ⊢
    generalize (Path.ofString s.path).referenceKind? = kind at h hmanifest hcontent
    cases kind with
    | none => exact h
    | some kind =>
    cases kind with
    | manifest => exact absurd rfl hmanifest
    | source =>
      have hbefore : fs.readSource (Path.ofString s.path).text = .ok source :=
        FileSystem.readSource_eq_ok_iff.mpr ⟨there, f, htext', hentry, hreading, hsource⟩
      have hafter : (fs.put there content none).readSource (Path.ofString s.path).text
          = .ok text := by
        refine FileSystem.readSource_eq_ok_iff.mpr ⟨there, ⟨content, .write fs.writes⟩, ?_, ?_, ?_,
          ?_⟩
        · rw [hshape.locate, htext']
        · rw [FileSystem.entryAt?_put hentry, if_pos rfl, Option.getD_none]
        · rw [hshape.host, hreading]
        · rw [hcontent rfl, htext.decode_encode]
      dsimp only at h ⊢
      rw [answer_harvest, hbefore, mapError_ok, ok_bind] at h
      rw [answer_harvest, hafter, mapError_ok, ok_bind,
        SymbolTable.withSource_annotated htext (ok_of_mapError h)]
      exact mapError_ok _ _
  · have hg := FileSystem.fileAt_text hg
    have hother : fs.locate (Path.ofString s.path).text ≠ .ok location := by
      rw [htext']
      exact fun heq => hhere (Except.ok.inj heq)
    have hg' := FileSystem.fileAt_put hentry content none (Path.ofString s.path).text
    rw [if_neg hother, hg] at hg'
    exact (answer_addReference_congr defined T
      (FileSystem.readBytes_congr hg hg' rfl hshape.host) hshape.host).trans h

theorem answer_foldlM_put {T T' : SymbolTable} {files files' : List FileStamp}
    (hpaths : files'.map (·.path) = files.map (·.path))
    (hfiles : ∀ s ∈ files, (∃ f, fs.fileAt s.path = .ok f) ∧ (fs.locate s.path = .ok location →
      (Path.ofString s.path).referenceKind? ≠ some .manifest
      ∧ ((Path.ofString s.path).referenceKind? = some .source → content = Encoding.encode text)))
    (h : (files.foldlM (addReference defined) T).answer fs = .ok T') :
    (files'.foldlM (addReference defined) T).answer (fs.put location content none) = .ok T' := by
  rw [answer_foldlM (looks_addReference defined)] at h ⊢
  induction files generalizing files' T with
  | nil =>
    rw [List.map_nil, List.map_eq_nil_iff] at hpaths
    rw [hpaths]
    rwa [List.foldlM_nil] at h ⊢
  | cons s files ih =>
    obtain ⟨s', files', rfl, hpath, hrest⟩ := List.map_eq_cons_iff.mp hpaths
    rw [List.foldlM_cons] at h ⊢
    obtain ⟨T₁, hfirst, h⟩ := ok_of_bind h
    obtain ⟨hs, hsafe⟩ := hfiles s List.mem_cons_self
    rw [answer_addReference_put hentry hsource hreading htext hpath hs hsafe hfirst, ok_bind]
    exact ih hrest (fun t ht => hfiles t (List.mem_cons_of_mem s ht)) h

/-- The table for references is the same after a file was written that is none of them, or is a
source that was annotated. -/
theorem answer_referenceTable_put {references : List String} {name : String} {T : SymbolTable}
    (hlocate : fs.locate name = .ok location)
    (hmanifest : ¬ fs.IsReference .manifest references name)
    (hwhole : fs.IsReference .source references name → content = Encoding.encode text)
    (h : (referenceTable references defined).answer fs = .ok T) :
    (referenceTable references defined).answer (fs.put location content none) = .ok T := by
  have hshape := FileSystem.sameShape_put hentry content none
  rw [answer_referenceTable] at h ⊢
  split at h
  · next hempty => rwa [if_pos hempty]
  next hempty =>
  rw [if_neg hempty]
  obtain ⟨key, hkey, hbuilt⟩ := ok_of_bind h
  have hkey := ok_of_mapError hkey
  have hpaths := hshape.referenceKey references defined
  rw [hkey] at hpaths
  obtain ⟨key', hkey', hpaths⟩ := ok_of_map hpaths
  rw [hkey', mapError_ok, ok_bind]
  obtain ⟨hdefined, hfiles⟩ := FileSystem.of_referenceKey hkey
  rw [buildTable, hdefined] at hbuilt
  rw [buildTable, (FileSystem.of_referenceKey hkey').1]
  refine answer_foldlM_put hentry hsource hreading htext hpaths (fun s hs => ?_) hbuilt
  obtain ⟨f, hf, -⟩ := FileSystem.bears_of_referenceKey hkey s hs
  obtain ⟨raw, hraw, stamps, hstamps, hs⟩ := hfiles s hs
  have hreference : ∀ kind, (Path.ofString s.path).referenceKind? = some kind →
      fs.locate s.path = .ok location → fs.IsReference kind references name :=
    fun kind hkind hhere =>
      ⟨raw, hraw, stamps, hstamps, s, hs, hkind, hhere.trans hlocate.symm⟩
  exact ⟨⟨f, hf⟩, fun hhere => ⟨fun hkind => hmanifest (hreference _ hkind hhere),
    fun hkind => hwhole (hreference _ hkind hhere)⟩⟩

end Put

end Work

/-! ## References that were loaded before -/

/-- The error is one of finding references or of reading them, and not of what they say. -/
def WorkError.isOfLoading : WorkError → Bool
  | file _ | manifest _ => true
  | _ => false

namespace Work

variable {fs fs' : FileSystem} {defined : List String}

/-- The file of a reference is loaded without an error. -/
structure Loads (fs : FileSystem) (s : FileStamp) : Prop where
  manifest : (Path.ofString s.path).referenceKind? = some .manifest →
    ∃ listed, (loadManifest (Path.ofString s.path)).answer fs = .ok listed
  source : (Path.ofString s.path).referenceKind? = some .source →
    ∃ source, fs.readSource (Path.ofString s.path).text = .ok source

/-- Only what a reference says can be wrong with it if it is loaded. -/
theorem Loads.error {s : FileStamp} (h : Loads fs s) {T : SymbolTable} {e : WorkError}
    (he : (addReference defined T s).answer fs = .error e) : e.isOfLoading = false := by
  rw [answer_addReference] at he
  cases hkind : (Path.ofString s.path).referenceKind? with
  | none => rw [hkind] at he; cases he
  | some kind =>
  rw [hkind] at he
  cases kind with
  | manifest =>
    obtain ⟨listed, hlisted⟩ := h.manifest hkind
    dsimp only at he
    rw [hlisted, ok_bind] at he
    obtain ⟨fault, -, rfl⟩ := error_of_mapError he
    rfl
  | source =>
    obtain ⟨source, hsource⟩ := h.source hkind
    dsimp only at he
    rw [answer_harvest, hsource, mapError_ok, ok_bind] at he
    obtain ⟨fault, -, rfl⟩ := error_of_mapError he
    rfl

end Work

end NullableMarker
