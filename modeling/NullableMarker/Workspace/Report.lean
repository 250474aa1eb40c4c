import NullableMarker.Workspace.References

/-!
# Annotating files

Files are annotated in place, each by itself. A file that does not exist is passed over in silence,
and one that cannot be read, that is no source, or that cannot be written is skipped.
-/

namespace NullableMarker

/-! ## Reports -/

/-- What became of a file. -/
inductive FileStatus where
  /-- Already annotated. -/
  | unchanged
  | changed
  /-- Unreadable, not processable, or not to be written. -/
  | skipped
  | missing
  deriving Repr, DecidableEq

/-- The word for a status. -/
def FileStatus.word : FileStatus → String
  | unchanged => "unchanged" | changed => "changed" | skipped => "skipped" | missing => "missing"

/-- What became of the file at a path. -/
structure FileResult where
  path : String
  status : FileStatus
  message : Option String := none
  deriving Repr, DecidableEq

/-- What became of files. -/
structure Report where
  /-- Nothing was to be written. -/
  check : Bool := false
  results : List FileResult := []
  deriving Repr, DecidableEq

namespace Report

/-- The paths of the files with one of some statuses. -/
def paths (r : Report) (statuses : List FileStatus) : List String :=
  (r.results.filter (statuses.contains ·.status)).map (·.path)

/-- The files that were processed. -/
def processed (r : Report) : List String := r.paths [.unchanged, .changed]

/-- The files that changed or would have. -/
def changed (r : Report) : List String := r.paths [.changed]

/-- The files that were skipped. -/
def skipped (r : Report) : List String := r.paths [.skipped]

/-- The files that do not exist. -/
def missing (r : Report) : List String := r.paths [.missing]

/-- The counts in one line. -/
def summary (r : Report) : String :=
  let verb := if r.check then "would change" else "changed"
  s!"{r.processed.length} processed, {r.changed.length} {verb}, " ++
    s!"{r.skipped.length} skipped, {r.missing.length} missing"

end Report

/-! ## Annotating -/

/-- How files are annotated. -/
structure Options where
  references : List String := []
  /-- The symbols to define; none for one without a name. -/
  defined : List (Option String) := []
  check : Bool := false
  /-- The number of workers, unless it is no number. -/
  jobs : Option Int := some 1

namespace Work

/-- The symbols to define, if all have names. -/
def named (defined : List (Option String)) : Work (List String) :=
  match defined.mapM id with
  | some names => return names
  | none => throw (.setting .namelessSymbol)

/-- The environment of a tree, over the default types and those of references. -/
def environmentOf (references defined : List String) (root : Tree) : Work Environment := do
  let table ← referenceTable references defined
  ofExcept .reference (Environment.ofUnit table root)

/-- The environment of a source. The source is read before its references. -/
def environment (references defined : List String) (source : String) : Work Environment := do
  environmentOf references defined (← ofExcept .source (loadUnit source defined))

/-- The decisions in an environment. -/
def judge (p : Profile) (env : Environment) : Work (List Decision) := do
  let (decisions, resolution) ← ofExcept .reference (env.judged p)
  logRemarks resolution.remarks
  return decisions

/-- The annotated text of a source, unless it cannot be read. -/
def process (references defined : List String) (fileName : String) (p : Profile)
    (source : String) : Work (Option String) := do
  match loadUnit source defined with
  | .error e =>
    log .debug s!"Not processable: {fileName}: {e.message}"
    return none
  | .ok root =>
    let env ← environmentOf references defined root
    return some (env.annotatedBy (← judge p env)).fullText

/-- Why a file is left alone. -/
def notProcessable : String := "not a processable protobuf file"

/-- What is refused of a file. -/
inductive Access where
  | read | write

/-- The word for what is refused. -/
def Access.word : Access → String
  | read => "read" | write => "write"

/-- Skips a file where the system finds a fault. Other faults end the work. -/
def skip (access : Access) (path : String) (e : FileError) : Work FileResult :=
  match e.message? with
  | some text => do
    log .warning s!"Cannot {access.word} {path}: {text}"
    return ⟨path, .skipped, some text⟩
  | none => throw (.file e)

/-- Annotates the file at a path. -/
def annotateFile (o : Options) (path : String) : Work FileResult := do
  let name := (Path.ofString path).text
  if !(← ofFile ((← files).isFile name)) then return ⟨path, .missing, none⟩
  match (← files).readSource name with
  | .error e => skip .read path e
  | .ok source =>
    match ← process o.references (← named o.defined) name {} source with
    | none =>
      log .info s!"Skipping {path} ({notProcessable})"
      return ⟨path, .skipped, some notProcessable⟩
    | some text =>
      log .info s!"Processing {path}..."
      if text == source then return ⟨path, .unchanged, none⟩
      if !o.check then
        if let .error e ← change (.overwrite name (Encoding.encode text)) then
          return ← skip .write path e
      return ⟨path, .changed, none⟩

/-- The error as it gets out of a worker. -/
def errorOfWorker : WorkError → WorkError
  | .manifest e => if e.message?.isSome then .worker else .manifest e
  | e => e

/-- Work that others do, and how it ended: only what they wrote to files stays. -/
def detached (work : Work α) : Work (Except WorkError α) := do
  let before ← get
  let (result, after) := work.run.run before
  set { before with files := after.files }
  return result

/-- Annotates files in order. -/
def annotateInOrder (o : Options) (paths : List String) : Work (List FileResult) :=
  paths.mapM (annotateFile o)

/-- The last result for a path. -/
def lastResult (results : List FileResult) (path : String) : Option FileResult :=
  results.reverse.find? (·.path == path)

/-- Annotates files by workers. All of them do their work, also when one fails. A path that is named
twice has one result. -/
def annotateByWorkers (o : Options) (paths : List String) : Work (List FileResult) := do
  let outcomes ← paths.mapM fun path => detached (annotateFile o path)
  let results ← outcomes.mapM (ofExcept errorOfWorker)
  return paths.filterMap (lastResult results)

/-- Annotates files. -/
def annotateFiles (o : Options) (paths : List String) : Work Report := do
  match o.jobs with
  | none => throw (.setting .countless)
  | some jobs =>
    let results ← if jobs ≤ 1 || paths.length ≤ 1 then annotateInOrder o paths
      else annotateByWorkers o paths
    return { check := o.check, results }

end Work

end NullableMarker
