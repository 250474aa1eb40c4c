import NullableMarker.Data.Value
import NullableMarker.Symbol.Table
import NullableMarker.Workspace.Encoding
import NullableMarker.Workspace.Path

/-!
# File systems

The files and directories that paths lead to from a working directory. Files hold bytes, and know
when they were last written. The system may refuse to let a directory be entered, or a file be read or
written; a write that fails may have cut the file off before. Of what lies outside the working
directory, only the directories above it and what was put there are known.
-/

namespace NullableMarker

/-! ## Files -/

/-- When a file was written: at a time that was set, or as the `n`th of all writes. -/
inductive Stamp where
  | set (nanoseconds : Int)
  | write (n : Nat)
  deriving Repr, DecidableEq

/-- A file. -/
structure File where
  content : ByteArray
  stamp : Stamp

/-- What stands at a location. -/
inductive Entry where
  | file (f : File)
  | directory

/-! ## Errors -/

/-- Why the system refuses. -/
inductive Reason where
  | inputOutput | permissionDenied | noSpace | readOnly
  deriving Repr, DecidableEq

/-- What the system says of a reason. -/
def Reason.text : Reason → String
  | inputOutput => "[Errno 5] Input/output error"
  | permissionDenied => "[Errno 13] Permission denied"
  | noSpace => "[Errno 28] No space left on device"
  | readOnly => "[Errno 30] Read-only file system"

/-- A refusal of the system: of opening, or of reading and writing what was opened. -/
structure Refusal where
  reason : Reason
  opened : Bool := false
  deriving Repr, DecidableEq

/-- Why a path cannot be used. -/
inductive FileFault where
  | notFound | notDirectory | isDirectory | occupied | nameTooLong
  /-- The path holds the character that ends a name. -/
  | nulInPath
  | refused (r : Refusal)
  deriving Repr, DecidableEq

/-- A fault at a path as it was written. -/
structure FileError where
  path : String
  fault : FileFault
  deriving Repr, DecidableEq

namespace FileError

/-- What the system says of a fault. A path that cannot be handed to it is no fault of its. -/
def system? : FileFault → Option String
  | .notFound => some "[Errno 2] No such file or directory"
  | .notDirectory => some "[Errno 20] Not a directory"
  | .isDirectory => some "[Errno 21] Is a directory"
  | .occupied => some "[Errno 17] File exists"
  | .nameTooLong => some "[Errno 36] File name too long"
  | .nulInPath => none
  | .refused r => some r.reason.text

/-- The message names the path, unless what it leads to was opened before. -/
def namesPath : FileFault → Bool
  | .refused r => !r.opened
  | _ => true

/-- The whole message, for the faults that the system finds. -/
def message? (e : FileError) : Option String :=
  (system? e.fault).map fun text =>
    if namesPath e.fault then s!"{text}: {Text.quoted e.path}" else text

end FileError

/-! ## Locations -/

/-- The steps from the working directory. Steps up come first; a slash stands for the root. -/
abbrev Location := List String

namespace Location

/-- The root of all directories. -/
def root : Location := ["/"]

/-- The working directory or one above it. -/
def isAbove (l : Location) : Bool := l.all (· == "..") || l == root

/-- The location one step up. -/
def parent (l : Location) : Location :=
  if l == root then root
  else if l.isAbove then ".." :: l
  else l.dropLast

/-- The steps from one location to another below it. -/
def below? (l inner : Location) : Option Location :=
  let steps := inner.drop l.length
  if l.isPrefixOf inner && !steps.isEmpty && steps.head? != some ".." && steps.head? != some "/" then
    some steps
  else none

end Location

/-- The longest name, in bytes. -/
def nameLimit : Nat := 255

/-- The length from which on a path is too long, in bytes. -/
def pathLimit : Nat := 4096

/-! ## The system -/

/-- A write that fails: why, and how many bytes are written before, if the file is opened at all. A
file that is opened to be written is empty at first. -/
structure FailedWrite where
  reason : Reason
  written : Option Nat := none
  deriving Repr, DecidableEq

/-- The refusal that ends a write. -/
def FailedWrite.refusal (f : FailedWrite) : Refusal := ⟨f.reason, f.written.isSome⟩

/-- What a file system depends on. -/
structure Host where
  /-- Directories that can neither be listed nor gone through. -/
  closed : Location → Bool := fun _ => false
  /-- The refusal to read a file. -/
  reading : Location → Option Refusal := fun _ => none
  /-- How writing a file fails after a number of writes. -/
  writing : Location → Nat → Option FailedWrite := fun _ _ => none
  /-- The data value that bytes hold. -/
  data : ByteArray → Except DataFault Value := fun _ => .error (.malformed "malformed YAML")
  deriving Inhabited

/-! ## File systems -/

/-- The files and directories that are known, the number of writes so far, and the system they are
on. -/
structure FileSystem where
  entries : List (Location × Entry) := []
  writes : Nat := 0
  host : Host := {}
  deriving Inhabited

namespace FileSystem

/-- What stands at a location. -/
def entryAt? (fs : FileSystem) (location : Location) : Option Entry :=
  if location.isAbove then some .directory else fs.entries.lookup location

/-- The directory at a location cannot be entered. The directories above can. -/
def isClosed (fs : FileSystem) (location : Location) : Bool :=
  !location.isAbove && fs.host.closed location

/-- Goes from a location along written steps. -/
def walk (fs : FileSystem) (here : Location) : List String → Except FileFault Location
  | [] => .ok here
  | step :: steps =>
    match fs.entryAt? here with
    | none => .error .notFound
    | some (.file _) => .error .notDirectory
    | some .directory =>
      if step == "" then fs.walk here steps
      else if fs.isClosed here then .error (.refused { reason := .permissionDenied })
      else if step == "." then fs.walk here steps
      else if step == ".." then fs.walk here.parent steps
      else if nameLimit < step.utf8ByteSize then .error .nameTooLong
      else if (fs.entryAt? (here ++ [step])).isSome then fs.walk (here ++ [step]) steps
      else .error .notFound

/-- Why a path cannot even be walked. -/
def pathFault? (path : String) : Option FileFault :=
  if path.toList.contains '\x00' then some .nulInPath
  else if pathLimit ≤ path.utf8ByteSize then some .nameTooLong
  else if path.isEmpty then some .notFound
  else none

/-- Where a written path starts. -/
def startOf (path : String) : Location :=
  if path.toList.head? == some '/' then Location.root else []

/-- The location of a path as it is written. -/
def locate (fs : FileSystem) (path : String) : Except FileFault Location :=
  match pathFault? path with
  | some fault => .error fault
  | none => fs.walk (startOf path) (Path.rawSteps path)

/-- What stands at a path, if anything. -/
def probe (fs : FileSystem) (path : String) : Except FileError (Option Entry) :=
  match fs.locate path with
  | .ok location => .ok (fs.entryAt? location)
  | .error .nameTooLong => .error ⟨path, .nameTooLong⟩
  | .error (.refused r) => .error ⟨path, .refused r⟩
  | .error _ => .ok none

/-- A file stands at the path. -/
def isFile (fs : FileSystem) (path : String) : Except FileError Bool := do
  match ← fs.probe path with
  | some (.file _) => return true
  | _ => return false

/-- A directory stands at the path. -/
def isDirectory (fs : FileSystem) (path : String) : Except FileError Bool := do
  match ← fs.probe path with
  | some .directory => return true
  | _ => return false

/-- Something stands at the path. -/
def exists? (fs : FileSystem) (path : String) : Except FileError Bool :=
  (fs.probe path).map (·.isSome)

/-- The file at a path, whether it can be read or not. -/
def fileAt (fs : FileSystem) (path : String) : Except FileError File :=
  match fs.locate path with
  | .error fault => .error ⟨path, fault⟩
  | .ok location =>
    match fs.entryAt? location with
    | some (.file f) => .ok f
    | some .directory => .error ⟨path, .isDirectory⟩
    | none => .error ⟨path, .notFound⟩

/-- The refusal to read the file at a path. -/
def refusal? (fs : FileSystem) (path : String) : Option Refusal :=
  match fs.locate path with
  | .ok location => fs.host.reading location
  | .error _ => none

/-- The bytes of the file at a path. -/
def readBytes (fs : FileSystem) (path : String) : Except FileError ByteArray := do
  let file ← fs.fileAt path
  match fs.refusal? path with
  | some r => throw ⟨path, .refused r⟩
  | none => return file.content

/-- The source text of the file at a path. -/
def readSource (fs : FileSystem) (path : String) : Except FileError String :=
  (fs.readBytes path).map Encoding.decode

/-- All directories on the way from a location along steps can be entered. -/
def isOpenAlong (fs : FileSystem) (location : Location) (steps : List String) : Bool :=
  (List.range steps.length).all fun n => !fs.isClosed (location ++ steps.take n)

/-- The entries below a location that can be reached, with the steps to them. -/
def below (fs : FileSystem) (location : Location) : List (Location × Entry) :=
  fs.entries.filterMap fun (l, e) =>
    ((location.below? l).filter (fs.isOpenAlong location)).map (·, e)

/-- The entries below a path, with the steps to them. -/
def listing (fs : FileSystem) (path : Path) : List (Location × Entry) :=
  match fs.locate path.text with
  | .ok location => fs.below location
  | .error _ => []

/-! ## Changes -/

/-- A change that may fail; what was done before stays done. -/
abbrev Change := ExceptT FileError (StateM FileSystem)

/-- Replaces the file at a location. -/
def put (fs : FileSystem) (location : Location) (content : ByteArray) (stamp : Option Stamp) :
    FileSystem :=
  { fs with
    entries := upsert location (.file ⟨content, stamp.getD (.write fs.writes)⟩) fs.entries
    writes := fs.writes + 1 }

namespace Change

/-- Fails at a path. -/
def fail (path : String) (fault : FileFault) : Change α := throw ⟨path, fault⟩

/-- Makes the directories on the way along steps, and gives where they lead. A file in the way of a
directory to be made is a name taken; before any was made, it is only no directory to go through. -/
def makeSteps (path : String) (made : Bool) (here : Location) : List String → Change Location
  | [] => return here
  | step :: steps => do
    if (← get).isClosed here then fail path (.refused { reason := .permissionDenied })
    else if step == ".." then makeSteps path made here.parent steps
    else if nameLimit < step.utf8ByteSize then fail path .nameTooLong
    else
      let next := here ++ [step]
      match (← get).entryAt? next with
      | some .directory => makeSteps path made next steps
      | some (.file _) => fail path (if made || steps.isEmpty then .occupied else .notDirectory)
      | none =>
        modify fun fs => { fs with entries := fs.entries ++ [(next, .directory)] }
        makeSteps path true next steps

/-- Makes a directory and those around it. -/
def makeDirectory (path : Path) : Change Location := do
  match pathFault? path.text with
  | some fault => fail path.text fault
  | none => makeSteps path.text false (startOf path.text) path.parts

/-- Writes a file, and makes the directories around it. -/
def write (path : Path) (content : ByteArray) (stamp : Option Stamp) : Change Unit := do
  let here ← makeDirectory path.parent
  match pathFault? path.text with
  | some fault => fail path.text fault
  | none =>
    match (← get).walk here [path.name] with
    | .ok location =>
      match (← get).entryAt? location with
      | some (.file _) => modify (·.put location content stamp)
      | _ => fail path.text .isDirectory
    | .error .notFound => modify (·.put (here ++ [path.name]) content stamp)
    | .error fault => fail path.text fault

/-- Replaces the content of the file at a path. A write that fails may leave a beginning of it. -/
def overwrite (path : String) (content : ByteArray) : Change Unit := do
  match (← get).locate path with
  | .error fault => fail path fault
  | .ok location =>
    match (← get).entryAt? location with
    | some (.file _) =>
      match (← get).host.writing location (← get).writes with
      | none => modify (·.put location content none)
      | some failed =>
        if let some written := failed.written then
          modify (·.put location (content.extract 0 written) none)
        fail path (.refused failed.refusal)
    | some .directory => fail path .isDirectory
    | none => fail path .notFound

/-- Removes the file at a path. -/
def delete (path : Path) : Change Unit := do
  match (← get).locate path.text with
  | .error fault => fail path.text fault
  | .ok location =>
    match (← get).entryAt? location with
    | some (.file _) =>
      modify fun fs => { fs with entries := fs.entries.filter (·.1 != location) }
    | _ => fail path.text .isDirectory

end Change

end FileSystem

end NullableMarker
