import NullableMarker.Workspace

/-!
# Configuration

Settings come from a file, if there is one, and from variables of the surroundings, which win. A
setting keeps the value it was written as until it is used.
-/

namespace NullableMarker

/-- What surrounds a run: the home directory, and variables that override settings. -/
structure Surroundings where
  home : String := "~"
  /-- Paths of references, with colons between them. -/
  references : Option String := none
  /-- Defined symbols, with commas between them. -/
  defines : Option String := none
  deriving Repr, DecidableEq, Inhabited

/-- Settings, and the file they are from. -/
structure Config where
  references : Value := .list []
  defined : Value := .list []
  included : Value := .list [.text "**/*.cs"]
  jobs : Value := .int 1
  file : Option Path := none
  deriving Inhabited

namespace Config

/-! ## Loading -/

/-- The settings with those that a mapping gives. -/
def update (c : Config) (v : Value) : Config :=
  { c with
    references := (v.get? "reference_paths").getD c.references
    defined := (v.get? "defined_symbols").getD c.defined
    included := (v.get? "include").getD c.included
    jobs := (v.get? "jobs").getD c.jobs }

/-- The parts of a text between the characters equal to `mark`, without blanks around them when
they are to be trimmed, and without the empty ones. -/
def itemsOf (mark : Char) (trimmed : Bool) (s : String) : Value :=
  let parts := (splitAt mark s.toList).map fun part => if trimmed then Text.trim part else part
  .list ((parts.filter (!·.isEmpty)).map fun part => .text (String.ofList part))

/-- The settings with those that the surroundings override. -/
def override (c : Config) (s : Surroundings) : Config :=
  { c with
    references := (s.references.map (itemsOf ':' false)).getD c.references
    defined := (s.defines.map (itemsOf ',' true)).getD c.defined }

/-- The files that are looked for, in order. -/
def searchPaths (s : Surroundings) : List Path :=
  [Path.ofString "protonrt.yaml",
    ((Path.ofString s.home).child ".protonrt").child "config.yaml"]

/-- The mapping that a settings file holds, or why there is none. A file that holds nothing stands
for an empty mapping. -/
def readFile (fs : FileSystem) (path : Path) : Except String Value :=
  match fs.readBytes path.text with
  | .error e => .error (e.message?.getD "")
  | .ok bytes =>
    match fs.host.data bytes with
    | .error fault => .error fault.text
    | .ok (.map entries) => .ok (.map entries)
    | .ok v => if v.isPresent then .error "top level must be a mapping" else .ok (.map [])

/-- The settings of the first of some files that holds any. -/
def fromFiles : List Path → Work Config
  | [] => return {}
  | path :: paths => do
    let fs ← Work.files
    if ← Work.ofFile (fs.exists? path.text) then
      match readFile fs path with
      | .ok v =>
        let c := ({} : Config).update v
        return { c with file := some path }
      | .error text =>
        Work.log .warning s!"Failed to load config from {path.text}: {text}"
        fromFiles paths
    else fromFiles paths

/-- Loads the settings from a given file, or else from where they are looked for. -/
def load (s : Surroundings) (given : Option Path) : Work Config := do
  match given with
  | none => return (← fromFiles (searchPaths s)).override s
  | some path =>
    if !(← Work.ofFile ((← Work.files).exists? path.text)) then
      Work.log .warning s!"Config file {path.text} not found, using defaults"
    return (← fromFiles [path]).override s

/-! ## Settings -/

/-- A value as a list of texts: a text is one, and nothing is none. -/
def texts : Value → Except SettingFault (List String)
  | .null => .ok []
  | .text s => .ok [s]
  | v => v.items?.elim (.error .notAList) fun items => .ok (items.map (·.plain))

/-- A path from the home directory, if it is written so. -/
def expandHome (s : Surroundings) (p : Path) : Except SettingFault Path :=
  match p.parts with
  | first :: rest =>
    if p.isAbsolute || first.toList.head? != some '~' then .ok p
    else if first != "~" || s.home.toList.head? == some '~' then .error .unknownHome
    else .ok ((Path.ofString s.home).under { parts := rest })
  | [] => .ok p

/-- The paths of references, seen from the directory of the settings file. -/
def referencePaths (c : Config) (s : Surroundings) : Except SettingFault (List Path) := do
  let base := (c.file.map (·.parent)).getD {}
  (← texts c.references).mapM fun raw => return base.under (← expandHome s (Path.ofString raw))

/-- The defined symbols. -/
def definedSymbols (c : Config) : Except SettingFault (List String) := texts c.defined

/-- The patterns for files of directories. -/
def patterns (c : Config) : Except SettingFault (List String) := do
  let listed ← texts c.included
  return if listed.isEmpty then ["**/*.cs"] else listed

/-- A value as an integer, if it can be taken for one. -/
def integer? : Value → Except SettingFault (Option Int)
  | .int n => .ok (some n)
  | .bool b => .ok (some (if b then 1 else 0))
  | .real x => .ok (some x.truncate)
  | .scalar (.infinite _) => .error .endless
  | .text s => .ok (Text.integer? s.toList)
  | .scalar (.bytes b) =>
    .ok (if b.all (· < 0x80) then Text.integer? (b.map fun n => Char.ofNat n.toNat) else none)
  | _ => .ok none

/-- The number of workers, at least one. -/
def workers (c : Config) : Except SettingFault Int :=
  (integer? c.jobs).map fun n? => max 1 (n?.getD 1)

end Config

end NullableMarker
