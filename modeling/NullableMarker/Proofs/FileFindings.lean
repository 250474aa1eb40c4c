import NullableMarker.Proofs.HarvestedTypes
import NullableMarker.Workspace.Report

/-!
# What is found in files

Annotating a file first looks at the files, and asks for the table of the references on the way;
then it may write the one file. What is found depends on the files alone, as long as the tables that
are kept are right: on the source of the file, and on the table of the references. Whether the file
can be written is seen only when it is written.

* `Work.Asks` — work that looks at the files and asks for the table of the references
* `Work.answer_process` — a source is annotated over the table of its references
* `Work.annotateFile_eq` — annotating a file looks first, and writes then
* `Work.answer_finding_congr` — what is found depends on the source and on the table
* `Work.run_conclude` — the ways in which a file is left
-/

namespace NullableMarker

/-! ## Asking for a table -/

namespace Work

variable {references defined : List String}

end Work

namespace Workspace

variable {references defined : List String} {w w' w'' : Workspace}

/-- What is left after the table for references was asked for: the files, and the tables that were
kept and that one. -/
structure Asked (references defined : List String) (w w' : Workspace) : Prop where
  files : w'.files = w.files
  cache : ∀ key T, w'.cache.find? key = some T → w.cache.find? key = some T
    ∨ w.files.referenceKey references defined = .ok key
      ∧ (Work.buildTable key).answer w.files = .ok T

theorem Asked.trans (h : Asked references defined w w') (h' : Asked references defined w' w'') :
    Asked references defined w w'' where
  files := h'.files.trans h.files
  cache key T hfind := by
    rcases h'.cache key T hfind with hfind | hT
    · exact h.cache key T hfind
    · exact .inr (h.files ▸ hT)

/-- The tables that are kept stay right. -/
theorem Asked.serves (h : Asked references defined w w') (hw : w.Serves references defined) :
    w'.Serves references defined := by
  intro key T hkey hfind
  rw [h.files] at hkey ⊢
  exact (h.cache key T hfind).elim (hw key T hkey) And.right

end Workspace

namespace Work

variable {α β : Type} {references defined : List String}

/-- The work looks at the files and asks for the table of the references, and nothing else. -/
def Asks (references defined : List String) (m : Work α) : Prop :=
  ∀ w : Workspace, w.Serves references defined →
    ∃ w', m.run.run w = (m.answer w.files, w') ∧ Workspace.Asked references defined w w'

theorem Looks.asks {m : Work α} (h : m.Looks) : Asks references defined m := by
  intro w _
  obtain ⟨log, hrun⟩ := h w
  exact ⟨_, hrun, rfl, fun _ _ => .inl⟩

theorem asks_referenceTable (references defined : List String) :
    Asks references defined (referenceTable references defined) := by
  intro w hw
  obtain ⟨w', hrun, hfiles, hcache⟩ := run_referenceTable hw
  rw [← answer_referenceTable] at hrun
  refine ⟨w', hrun, hfiles, fun key T hfind => ?_⟩
  rcases hcache with hcache | ⟨key', T', hkey', hT', hcache⟩
  · rw [hcache] at hfind
    exact .inl hfind
  · rw [hcache] at hfind
    rcases ReferenceCache.find?_use hfind with ⟨rfl, rfl⟩ | hfind
    · exact .inr ⟨hkey', hT'⟩
    · exact .inl hfind

theorem Asks.answer_bind {m : Work α} {f : α → Work β} (hm : Asks references defined m)
    (hf : ∀ a, Asks references defined (f a)) (fs : FileSystem) :
    (m >>= f).answer fs = m.answer fs >>= fun a => (f a).answer fs := by
  have hserves := Workspace.serves_empty references defined fs
  obtain ⟨w, hrun, hw⟩ := hm { files := fs } hserves
  rw [answer, run_bind, hrun]
  cases m.answer fs with
  | error e => rfl
  | ok a =>
    obtain ⟨w', hrun', -⟩ := hf a w (hw.serves hserves)
    show ((f a).run.run w).1 = (f a).answer fs
    rw [hrun', hw.files]

theorem Asks.bind {m : Work α} {f : α → Work β} (hm : Asks references defined m)
    (hf : ∀ a, Asks references defined (f a)) : Asks references defined (m >>= f) := by
  intro w hserves
  obtain ⟨w', hrun, hw⟩ := hm w hserves
  rw [hm.answer_bind hf, run_bind, hrun]
  cases m.answer w.files with
  | error e => exact ⟨w', rfl, hw⟩
  | ok a =>
    obtain ⟨w'', hrun', hw'⟩ := hf a w' (hw.serves hserves)
    rw [hw.files] at hrun'
    exact ⟨w'', hrun', hw.trans hw'⟩

end Work

/-! ## Processing a source -/

/-- The error of annotating as an error of the work. -/
def WorkError.ofAnnotate : AnnotateError → WorkError
  | .source e => .source e
  | .reference e => .reference e

namespace Work

variable (references defined : List String) (fileName : String) (p : Profile) (source : String)

theorem looks_judge (env : Environment) : (judge p env).Looks := by
  unfold judge
  refine (looks_ofExcept _ _).bind fun result => ?_
  exact (looks_logRemarks _).bind fun _ => looks_pure _

theorem answer_judge (env : Environment) (fs : FileSystem) :
    (judge p env).answer fs = (env.decisions p).mapError .reference := by
  unfold judge
  rw [answer_ofExcept_bind, Environment.decisions]
  cases env.judged p <;> rfl

theorem looks_annotated (T : SymbolTable) (root : Tree) :
    (ofExcept .reference (Environment.ofUnit T root) >>= fun env => judge p env >>= fun ds =>
      pure (some (env.annotatedBy ds).fullText)).Looks :=
  (looks_ofExcept _ _).bind fun env => (looks_judge p env).bind fun _ => looks_pure _

theorem process_eq {root : Tree} (hload : loadUnit source defined = .ok root) :
    process references defined fileName p source = referenceTable references defined >>= fun T =>
      ofExcept .reference (Environment.ofUnit T root) >>= fun env => judge p env >>= fun ds =>
        pure (some (env.annotatedBy ds).fullText) := by
  unfold process environmentOf
  rw [hload]
  dsimp only
  rw [bind_assoc]

theorem asks_process : Asks references defined (process references defined fileName p source) := by
  cases hload : loadUnit source defined with
  | error e =>
    unfold process
    rw [hload]
    exact ((looks_log _ _).bind fun _ => looks_pure _).asks
  | ok root =>
    rw [process_eq references defined fileName p source hload]
    exact (asks_referenceTable references defined).bind fun T => (looks_annotated p T root).asks

/-- A source is processed by annotating it over the table of its references, if it can be read. -/
theorem answer_process (fs : FileSystem) :
    (process references defined fileName p source).answer fs
      = match loadUnit source defined with
        | .error _ => .ok none
        | .ok _ => (referenceTable references defined).answer fs >>= fun T =>
            ((annotate T defined p source).mapError WorkError.ofAnnotate).map some := by
  cases hload : loadUnit source defined with
  | error e =>
    unfold process
    rw [hload]
    rfl
  | ok root =>
    dsimp only
    rw [process_eq references defined fileName p source hload, (asks_referenceTable _ _).answer_bind
      fun T => (looks_annotated p T root).asks]
    refine bind_congr fun T => ?_
    rw [answer_ofExcept_bind, annotate, hload, mapError_ok, ok_bind]
    cases Environment.ofUnit T root with
    | error e => rfl
    | ok env =>
      rw [mapError_ok, mapError_ok, ok_bind, ok_bind,
        answer_bind_pure (looks_judge p env), answer_judge, Environment.annotated]
      cases env.decisions p <;> rfl

end Work

/-! ## Looking at a file, and writing it -/

namespace Work

/-- What became of a file that held the source, and the text that it is to hold. -/
def outcomeOf (path source : String) : Option String → FileResult × Option String
  | none => (⟨path, .skipped, some notProcessable⟩, none)
  | some text =>
    if text == source then (⟨path, .unchanged, none⟩, none) else (⟨path, .changed, none⟩, some text)

/-- Says in the log what becomes of a file. -/
def logOutcome (path : String) : Option String → Work Unit
  | none => log .info s!"Skipping {path} ({notProcessable})"
  | some _ => log .info s!"Processing {path}..."

/-- What is found in the file at a path: the result for it, and the text that it is to hold. -/
def finding (o : Options) (path : String) : Work (FileResult × Option String) := do
  let name := (Path.ofString path).text
  if ← ofFile ((← files).isFile name) then
    match (← files).readSource name with
    | .error e => return (← skip .read path e, none)
    | .ok source =>
      let processed ← process o.references (← named o.defined) name {} source
      logOutcome path processed
      return outcomeOf path source processed
  else return (⟨path, .missing, none⟩, none)

/-- Writes what was found that a file is to hold. -/
def conclude (o : Options) (path : String) : FileResult × Option String → Work FileResult
  | (r, none) => return r
  | (r, some text) => do
    if o.check then return r
    match ← change (.overwrite (Path.ofString path).text (Encoding.encode text)) with
    | .ok () => return r
    | .error e => skip .write path e

/-- Annotating a file looks at the files first, and then may write this one. -/
theorem annotateFile_eq (o : Options) (path : String) :
    annotateFile o path = finding o path >>= conclude o path := by
  unfold annotateFile finding
  dsimp only
  simp only [bind_assoc]
  refine bind_congr fun fs => bind_congr fun isFile => ?_
  cases isFile with
  | false => rfl
  | true =>
    simp only [Bool.not_true, Bool.false_eq_true, if_false, if_true, bind_assoc]
    refine bind_congr fun fs => ?_
    cases fs.readSource (Path.ofString path).text with
    | error e =>
      simp only [bind_assoc, pure_bind, conclude, bind_pure]
    | ok source =>
      dsimp only
      simp only [bind_assoc]
      refine bind_congr fun defined => bind_congr fun processed => ?_
      cases processed with
      | none => rfl
      | some text =>
        refine bind_congr fun _ => ?_
        rw [pure_bind, outcomeOf]
        split
        · rfl
        · rw [conclude]
          cases o.check with
          | true => rfl
          | false =>
            refine bind_congr fun written => ?_
            cases written <;> rfl

end Work

/-- The symbols to define, as far as they have names. -/
def Options.names (o : Options) : List String := (o.defined.mapM id).getD []

theorem Options.names_eq {o : Options} {defined : List String}
    (h : o.defined.mapM id = some defined) : o.names = defined := by
  rw [names, h, Option.getD_some]

namespace Work

variable (o : Options) (path : String)

theorem looks_logOutcome (processed : Option String) : (logOutcome path processed).Looks := by
  cases processed <;> exact looks_log _ _

theorem looks_skip (access : Access) (e : FileError) : (skip access path e).Looks := by
  unfold skip
  split
  · exact (looks_log _ _).bind fun _ => looks_pure _
  · exact looks_throw _

/-- A file is skipped with what the system says, if it is the system that finds the fault. -/
theorem answer_skip (access : Access) (e : FileError) (fs : FileSystem) :
    (skip access path e).answer fs = match e.message? with
      | some text => .ok ⟨path, .skipped, some text⟩
      | none => .error (.file e) := by
  unfold skip
  cases e.message? <;> rfl

/-- The result for a file that is skipped. -/
theorem run_skip (access : Access) {e : FileError} {text : String} (h : e.message? = some text)
    (w : Workspace) : ∃ log, (skip access path e).run.run w
      = (.ok ⟨path, .skipped, some text⟩, { w with log := log }) := by
  obtain ⟨log, hrun⟩ := looks_skip path access e w
  rw [answer_skip, h] at hrun
  exact ⟨log, hrun⟩

theorem asks_finding : Asks o.references o.names (finding o path) := by
  have hprocess : ∀ source, Asks o.references o.names (named o.defined >>= fun defined =>
      process o.references defined (Path.ofString path).text {} source >>= fun processed =>
        logOutcome path processed >>= fun _ => pure (outcomeOf path source processed)) := by
    intro source
    unfold named
    cases hdefined : o.defined.mapM id with
    | none => exact (looks_throw _).asks
    | some defined =>
      rw [Options.names_eq hdefined]
      exact (asks_process _ _ _ _ _).bind fun processed =>
        ((looks_logOutcome path processed).bind fun _ => looks_pure _).asks
  unfold finding
  refine looks_files.asks.bind fun fs => (looks_ofExcept _ _).asks.bind fun found => ?_
  cases found with
  | false => exact (looks_pure _).asks
  | true =>
    refine looks_files.asks.bind fun fs => ?_
    cases fs.readSource (Path.ofString path).text with
    | error e => exact ((looks_skip path .read e).bind fun _ => looks_pure _).asks
    | ok source => exact hprocess source

theorem answer_finding (fs : FileSystem) : (finding o path).answer fs
    = (fs.isFile (Path.ofString path).text).mapError .file >>= fun found =>
      if found then
        match fs.readSource (Path.ofString path).text with
        | .error e => ((skip .read path e).answer fs).map (·, none)
        | .ok source =>
          match o.defined.mapM id with
          | none => .error (.setting .namelessSymbol)
          | some defined => ((process o.references defined (Path.ofString path).text {}
              source).answer fs).map (outcomeOf path source)
      else .ok (⟨path, .missing, none⟩, none) := by
  have hprocess : ∀ defined source,
      (process o.references defined (Path.ofString path).text {} source >>= fun processed =>
        logOutcome path processed >>= fun _ =>
          pure (outcomeOf path source processed)).answer fs
      = ((process o.references defined (Path.ofString path).text {} source).answer fs).map
        (outcomeOf path source) := by
    intro defined source
    rw [(asks_process o.references defined _ _ _).answer_bind fun processed =>
      ((looks_logOutcome path processed).bind fun _ => looks_pure _).asks]
    cases (process o.references defined (Path.ofString path).text {} source).answer fs with
    | error e => rfl
    | ok processed => cases processed <;> rfl
  unfold finding
  dsimp only
  rw [answer_files_bind, ofFile, answer_ofExcept_bind]
  refine bind_congr fun found => ?_
  cases found with
  | false => rfl
  | true =>
    rw [if_pos rfl, if_pos rfl, answer_files_bind]
    cases fs.readSource (Path.ofString path).text with
    | error e => exact answer_bind_pure (looks_skip path .read e) (·, none) fs
    | ok source =>
      dsimp only
      unfold named
      cases o.defined.mapM id with
      | none => rfl
      | some defined => exact hprocess defined source

section Findings

variable {o : Options} {path : String} {fs fs' : FileSystem} {r : FileResult} {text : String}

/-- A source is annotated over the table of its references, which can be built then. -/
theorem table_of_process {references defined : List String} {fileName source : String} {p : Profile}
    (h : (process references defined fileName p source).answer fs = .ok (some text)) :
    ∃ T, (referenceTable references defined).answer fs = .ok T
      ∧ annotate T defined p source = .ok text := by
  rw [answer_process] at h
  cases hload : loadUnit source defined with
  | error e => rw [hload] at h; cases h
  | ok root =>
    rw [hload] at h
    obtain ⟨T, hT, h⟩ := ok_of_bind h
    obtain ⟨text', htext, heq⟩ := ok_of_map h
    cases heq
    exact ⟨T, hT, ok_of_mapError htext⟩

theorem isAnnotated_of_process {references defined : List String} {fileName source : String}
    {p : Profile} (h : (process references defined fileName p source).answer fs = .ok (some text)) :
    IsAnnotated defined source text := by
  obtain ⟨T, -, hannotate⟩ := table_of_process h
  obtain ⟨root, env, ds, hload, -, -, htext⟩ := annotate_ok hannotate
  exact ⟨root, verdictsOf ds, hload, htext⟩

/-- A result is for the path, and says that the file changed if a text is to be written. -/
theorem of_finding {text? : Option String} (h : (finding o path).answer fs = .ok (r, text?)) :
    r.path = path ∧ (r.status = .changed ↔ text?.isSome = true) := by
  rw [answer_finding] at h
  obtain ⟨found, -, h⟩ := ok_of_bind h
  split at h
  · split at h
    · obtain ⟨skipped, hskipped, heq⟩ := ok_of_map h
      cases heq
      rw [answer_skip] at hskipped
      split at hskipped <;> cases hskipped
      simp
    · split at h
      · cases h
      · obtain ⟨processed, -, h⟩ := ok_of_map h
        unfold outcomeOf at h
        split at h
        · cases h
          simp
        · split at h <;> cases h <;> simp
  · cases h
    simp

/-- What is written to a file is the text of its source when processed, and is not what it held. -/
theorem written_of_finding (h : (finding o path).answer fs = .ok (r, some text)) :
    ∃ source, fs.readSource (Path.ofString path).text = .ok source
      ∧ o.defined.mapM id = some o.names
      ∧ (process o.references o.names (Path.ofString path).text {} source).answer fs
        = .ok (some text)
      ∧ text ≠ source := by
  rw [answer_finding] at h
  obtain ⟨found, -, h⟩ := ok_of_bind h
  split at h
  · split at h
    · obtain ⟨skipped, -, heq⟩ := ok_of_map h
      cases heq
    next source hread =>
    split at h
    · cases h
    · next defined hdefined =>
      obtain ⟨processed, hprocessed, h⟩ := ok_of_map h
      rw [Options.names_eq hdefined]
      refine ⟨source, hread, hdefined, ?_⟩
      unfold outcomeOf at h
      split at h
      · cases h
      · split at h
        · cases h
        · next text' hne =>
          cases h
          exact ⟨hprocessed, by simpa using hne⟩
  · cases h

/-- What is found in a file depends on its source and on the table of the references. -/
theorem answer_finding_congr
    (hfile : fs'.isFile (Path.ofString path).text = fs.isFile (Path.ofString path).text)
    (hread : fs'.readSource (Path.ofString path).text = fs.readSource (Path.ofString path).text)
    (htable : (referenceTable o.references o.names).answer fs'
      = (referenceTable o.references o.names).answer fs) :
    (finding o path).answer fs' = (finding o path).answer fs := by
  rw [answer_finding, answer_finding, hfile, hread]
  simp only [answer_skip]
  cases hdefined : o.defined.mapM id with
  | none => dsimp only
  | some defined =>
    rw [Options.names_eq hdefined] at htable
    have hprocess : ∀ source, (process o.references defined (Path.ofString path).text {}
        source).answer fs'
        = (process o.references defined (Path.ofString path).text {} source).answer fs := by
      intro source
      rw [answer_process, answer_process, htable]
    simp only [hprocess]

end Findings

end Work

/-! ## Writing what was found -/

theorem FileError.message?_closed (path : String) (reason : Reason) :
    message? ⟨path, .refused ⟨reason, false⟩⟩ = some s!"{reason.text}: {Text.quoted path}" := rfl

theorem FileError.message?_opened (path : String) (reason : Reason) :
    message? ⟨path, .refused ⟨reason, true⟩⟩ = some reason.text := rfl

namespace Work

variable {o : Options} {path : String} {w : Workspace} {location : Location} {f : File}

theorem run_conclude_idle {r : FileResult} {text? : Option String}
    (h : text? = none ∨ o.check = true) : (conclude o path (r, text?)).run.run w = (.ok r, w) := by
  cases text? with
  | none => rfl
  | some text =>
    rw [conclude, h.resolve_left (Option.some_ne_none text)]
    rfl

theorem run_change {α : Type} (c : FileSystem.Change α) (w : Workspace) : (change c).run.run w
    = (.ok (c.run.run w.files).1, { w with files := (c.run.run w.files).2 }) := rfl

/-- The ways in which a file is left that is to hold a text: it holds the text, or it is as it was,
or it holds a beginning of the text. -/
theorem run_conclude (hcheck : o.check = false)
    (hlocate : w.files.locate (Path.ofString path).text = .ok location)
    (hentry : w.files.entryAt? location = some (.file f)) (r : FileResult) (text : String) :
    (w.files.host.writing location w.files.writes = none
        ∧ (conclude o path (r, some text)).run.run w
          = (.ok r, { w with files := w.files.put location (Encoding.encode text) none }))
      ∨ (∃ reason log, w.files.host.writing location w.files.writes = some ⟨reason, none⟩
        ∧ (conclude o path (r, some text)).run.run w
          = (.ok ⟨path, .skipped,
            some s!"{reason.text}: {Text.quoted (Path.ofString path).text}"⟩, { w with log }))
      ∨ ∃ reason size log, w.files.host.writing location w.files.writes = some ⟨reason, some size⟩
        ∧ (conclude o path (r, some text)).run.run w
          = (.ok ⟨path, .skipped, some reason.text⟩,
            { w with files := w.files.put location ((Encoding.encode text).extract 0 size) none,
                     log }) := by
  have hrun : (conclude o path (r, some text)).run.run w
      = (match ((FileSystem.Change.overwrite (Path.ofString path).text
            (Encoding.encode text)).run.run w.files).1 with
        | .ok () => pure r
        | .error e => skip .write path e : Work FileResult).run.run
          { w with files := ((FileSystem.Change.overwrite (Path.ofString path).text
            (Encoding.encode text)).run.run w.files).2 } := by
    rw [conclude, hcheck, if_neg Bool.false_ne_true, run_bind, run_change]
  rw [hrun]
  rcases FileSystem.run_overwrite hlocate hentry (Encoding.encode text)
    with ⟨hwriting, hdone⟩ | ⟨reason, hwriting, hfailed⟩ | ⟨reason, size, hwriting, hfailed⟩
  · rw [hdone]
    exact .inl ⟨hwriting, rfl⟩
  · obtain ⟨log, hskip⟩ := run_skip path .write
      (FileError.message?_closed (Path.ofString path).text reason) w
    rw [hfailed]
    exact .inr (.inl ⟨reason, log, hwriting, hskip⟩)
  · obtain ⟨log, hskip⟩ := run_skip path .write
      (FileError.message?_opened (Path.ofString path).text reason)
      { w with files := w.files.put location ((Encoding.encode text).extract 0 size) none }
    rw [hfailed]
    exact .inr (.inr ⟨reason, size, log, hwriting, hskip⟩)

end Work

end NullableMarker
