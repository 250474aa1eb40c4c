import NullableMarker.CommandLine
import NullableMarker.Data.Flow

/-!
# The program

Looks at the files below the working directory, does what the arguments ask for, prints what comes of
it, and writes back the files that changed. Manifests and settings are read in flow style.
-/

namespace NullableMarker

/-- How the program is used. -/
def usage : String :=
  "usage: protonrt [-h] [--version] [-v] [--config FILE] COMMAND ...\n\n" ++
  "  annotate PATH...  [-r REFERENCE] [-D SYMBOL] [--check] [-j JOBS]\n" ++
  "  analyze FILE      [-r REFERENCE] [-D SYMBOL]\n" ++
  "  parse FILE        [-D SYMBOL] [-v]\n"

/-- The path of a location as the system takes it. -/
def Location.text (location : Location) : String := "/".intercalate location

/-- What is found below the working directory. -/
structure Survey where
  files : FileSystem := {}
  closed : List Location := []
  unreadable : List Location := []
  unwritable : List Location := []

namespace Survey

/-- The system as far as it was tried. -/
def host (s : Survey) : Host where
  closed l := s.closed.contains l
  reading l := if s.unreadable.contains l then some { reason := .permissionDenied } else none
  writing l _ := if s.unwritable.contains l then some { reason := .permissionDenied } else none
  data := Flow.ofBytes

/-- The survey after a change of its files. -/
def change (s : Survey) (c : FileSystem.Change α) : Survey :=
  { s with files := (c.run.run s.files).2 }

end Survey

/-- The result of an action, if it is not refused. -/
def allowed? (action : IO α) : IO (Option α) := do
  try return some (← action) catch _ => return none

/-- Adds a file. -/
def surveyFile (location : Location) (child : IO.FS.DirEntry) (s : Survey) : IO Survey := do
  let bytes? ← allowed? (IO.FS.readBinFile child.path)
  let handle? ← allowed? (IO.FS.Handle.mk child.path .readWrite)
  let s := s.change (.write { parts := location } (bytes?.getD .empty) none)
  return { s with
    unreadable := if bytes?.isSome then s.unreadable else location :: s.unreadable
    unwritable := if handle?.isSome then s.unwritable else location :: s.unwritable }

/-- Adds what stands below a location. -/
partial def surveyBelow (location : Location) (s : Survey) : IO Survey := do
  let directory := (← IO.currentDir) / Location.text location
  let some children ← allowed? directory.readDir
    | return { s with closed := location :: s.closed }
  children.foldlM (fun s child => do
    let inner := location ++ [child.fileName]
    if ← child.path.isDir then surveyBelow inner (s.change (.makeDirectory { parts := inner }))
    else surveyFile inner child s) s

/-- Writes back what was written after the first `count` writes. -/
def writeBack (count : Nat) (fs : FileSystem) : IO Unit :=
  fs.entries.forM fun (location, entry) => do
    match entry with
    | .file ⟨bytes, .write n⟩ =>
      if count ≤ n then IO.FS.writeBinFile (Location.text location) bytes
    | _ => pure ()

/-- What surrounds the program. -/
def readSurroundings : IO Surroundings :=
  return { home := (← IO.getEnv "HOME").getD "~"
           references := ← IO.getEnv "PROTONRT_REFERENCES"
           defines := ← IO.getEnv "PROTONRT_DEFINES" }

/-- Prints how a run ended, and gives its exit code. -/
def printOutcome : CommandLine.Outcome → IO UInt32
  | .help => do
    IO.print usage
    return 0
  | .refused => do
    IO.eprint usage
    return 2
  | .done exit output errors => do
    IO.eprint errors
    IO.print output
    return exit.toUInt32

/-- Does what the arguments ask for. -/
def runProgram (args : List String) : IO UInt32 := do
  let survey ← surveyBelow [] {}
  let files := { survey.files with host := survey.host }
  let session : Session := { workspace := { files }, surroundings := ← readSurroundings }
  let (result, after) := (CommandLine.run args).run.run session
  writeBack files.writes after.workspace.files
  match result with
  | .ok outcome => printOutcome outcome
  | .error _ =>
    IO.eprint "error: the settings or references cannot be used\n"
    return 1

end NullableMarker

def main (args : List String) : IO UInt32 := NullableMarker.runProgram args
