import NullableMarker.Symbol.Defaults
import NullableMarker.Workspace

/-!
# References

The types that a source may refer to: the default ones, and those of manifests and sources. A path
that does not exist is passed over, and a directory stands for the manifests and sources in it.
-/

namespace NullableMarker

/-! ## Files -/

/-- What a reference file is, by its suffix. -/
inductive ReferenceKind where
  | manifest | source
  deriving Repr, DecidableEq

/-- The kind of a reference file. -/
def Path.referenceKind? (p : Path) : Option ReferenceKind :=
  if [".yaml", ".yml"].contains p.suffix then some .manifest
  else if p.suffix == ".cs" then some .source
  else none

namespace FileSystem

/-- The reference files below a directory, in order. -/
def referencesBelow (fs : FileSystem) (path : Path) : List Path :=
  Path.sort ((fs.listing path).filterMap fun (location, entry) =>
    let p : Path := { path with parts := path.parts ++ location }
    match entry with
    | .file _ => if p.referenceKind?.isSome then some p else none
    | .directory => none)

/-- The reference files that a path stands for. -/
def referenceFiles (fs : FileSystem) (path : Path) : Except FileError (List Path) := do
  if ← fs.isDirectory path.text then return fs.referencesBelow path
  else return [path]

/-- The stamp of a file. -/
def fileStamp? (fs : FileSystem) (path : Path) : Option FileStamp :=
  match fs.fileAt path.text with
  | .ok f => some ⟨path.text, f.stamp, f.content.size⟩
  | .error _ => none

end FileSystem

/-- The symbols of a manifest with a file name. -/
def Manifest.symbolsIn (host : Host) (fileName : String) (bytes : ByteArray) :
    Except ManifestFault (List ListedSymbol) :=
  match host.data bytes with
  | .error fault => .error (.data fault)
  | .ok v => Manifest.symbols fileName v

namespace Work

/-- The stamps of the reference files that a path stands for. -/
def stampsAt (raw : String) : Work (List FileStamp) := do
  let fs ← files
  let path := Path.ofString raw
  if ← ofFile (fs.exists? path.text) then
    return (← ofFile (fs.referenceFiles path)).filterMap fs.fileStamp?
  else
    log .debug s!"Reference {path.text} not found, skipping"
    return []

/-! ## Loading -/

/-- The symbols of a manifest. -/
def loadManifest (path : Path) : Work (List ListedSymbol) := do
  let fs ← files
  let bytes ← ofFile (fs.readBytes path.text)
  match Manifest.symbolsIn fs.host path.name bytes with
  | .error fault => throw (.manifest ⟨path.text, fault⟩)
  | .ok symbols =>
    log .debug s!"Loaded {symbols.length} types from {path.text}"
    return symbols

/-- The table with the types that a source declares. -/
def harvest (path : Path) (defined : List String) (table : SymbolTable) : Work SymbolTable := do
  let source ← readSource path.text
  match parseUnit source defined with
  | .error e =>
    log .warning s!"Ignoring unparsable reference {path.text}: {e.message}"
    return table
  | .ok root =>
    let env ← ofExcept .reference (Environment.ofTree table s!"source:{path.name}" root)
    logRemarks env.resolution.remarks
    return table.addAll env.declaredTypes

/-- The table with the types of a reference file. -/
def addReference (defined : List String) (table : SymbolTable) (file : FileStamp) :
    Work SymbolTable := do
  let path := Path.ofString file.path
  match path.referenceKind? with
  | some .manifest => ofExcept .space (table.addAllListed (← loadManifest path))
  | some .source => harvest path defined table
  | none =>
    log .debug s!"Unsupported reference {path.text}, skipping"
    return table

/-- The table with the types of reference files, built afresh. -/
def buildTable (key : ReferenceKey) : Work SymbolTable :=
  key.files.foldlM (addReference key.defined) Defaults.table

/-- The table under a key, from the cache if it is there. A table that cannot be built is not
kept. -/
def cachedTable (key : ReferenceKey) : Work SymbolTable := do
  let table ← match (← get).cache.find? key with
    | some table => pure table
    | none => buildTable key
  modify fun w => { w with cache := w.cache.use key table }
  return table

/-- The default types and those of the references. -/
def referenceTable (paths defined : List String) : Work SymbolTable := do
  if paths.isEmpty then return Defaults.table
  else
    let stamps ← paths.mapM stampsAt
    cachedTable ⟨stamps.flatten, defined⟩

end Work

end NullableMarker
