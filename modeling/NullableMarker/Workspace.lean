import NullableMarker.Annotate
import NullableMarker.Symbol.Manifest
import NullableMarker.Workspace.Cache
import NullableMarker.Workspace.Glob

/-!
# Workspaces

A workspace is what commands work on: the files, the tables of references kept, and the log.
-/

namespace NullableMarker

/-! ## The log -/

/-- How much a line of the log matters. -/
inductive LogLevel where
  | debug | info | warning
  deriving Repr, DecidableEq

/-- The rank of a level. -/
def LogLevel.rank : LogLevel → Nat
  | debug => 0 | info => 1 | warning => 2

/-- The word for a level. -/
def LogLevel.word : LogLevel → String
  | debug => "DEBUG" | info => "INFO" | warning => "WARNING"

/-- A line of the log. -/
structure LogLine where
  level : LogLevel
  text : String
  deriving Repr, DecidableEq

/-! ## Errors -/

/-- Why a setting cannot be used. -/
inductive SettingFault where
  | notAList
  /-- A symbol to define has no name. -/
  | namelessSymbol
  /-- The number of workers is no number. -/
  | countless
  /-- The number of workers is infinite. -/
  | endless
  /-- A path starts at the home of someone unknown. -/
  | unknownHome
  deriving Repr, DecidableEq

/-- Why work ends early. -/
inductive WorkError where
  | source (e : SourceError)
  | file (e : FileError)
  | manifest (e : ManifestError)
  /-- A manifest lists a type in a namespace that has no parts. -/
  | space (e : BadNamespace)
  | glob (fault : GlobFault)
  | setting (fault : SettingFault)
  /-- A type derives from what cannot be looked up. -/
  | reference (e : BadReference)
  /-- A worker broke down. -/
  | worker

/-- The error of a pattern. -/
def WorkError.ofGlob : GlobError → WorkError
  | .pattern fault => glob fault
  | .file e => file e

/-! ## Workspaces -/

/-- What commands work on. -/
structure Workspace where
  files : FileSystem := {}
  cache : ReferenceCache := []
  log : Array LogLine := #[]
  deriving Inhabited

/-- Work on a workspace; what was done before an error stays. -/
abbrev Work := ExceptT WorkError (StateM Workspace)

namespace Work

/-- Adds a line to the log. -/
def log (level : LogLevel) (text : String) : Work Unit :=
  modify fun w => { w with log := w.log.push ⟨level, text⟩ }

/-- Adds remarks to the log. -/
def logRemarks (remarks : Array String) : Work Unit :=
  modify fun w => { w with log := w.log ++ remarks.map (⟨.debug, ·⟩) }

/-- The files as they are. -/
def files : Work FileSystem := return (← get).files

/-- A result, or its error as an error of the work. -/
def ofExcept (wrap : ε → WorkError) (result : Except ε α) : Work α :=
  ExceptT.mk (pure (result.mapError wrap))

/-- The result of looking at the files, or their error. -/
def ofFile (result : Except FileError α) : Work α := ofExcept .file result

/-- Makes a change to the files. What was done before a fault stays done. -/
def change (c : FileSystem.Change α) : Work (Except FileError α) :=
  modifyGet fun w =>
    let (result, files) := c.run.run w.files
    (result, { w with files })

/-- Reads the source text of a file. -/
def readSource (path : String) : Work String := do
  let fs ← files
  ofFile (fs.readSource path)

/-- Reads the tree of a file. -/
def parseFile (path : String) (defined : List String) : Work Tree := do
  let source ← readSource path
  ofExcept .source (parseUnit source defined)

end Work

end NullableMarker
