import NullableMarker.CommandLine.Arguments
import NullableMarker.Workspace.Config
import NullableMarker.Workspace.Report

/-!
# The command line

Three commands: `annotate` marks files in place, `analyze` lists the decisions for a file, and `parse`
counts its declarations. What a command logs goes to the error output, as far as it is asked for.
-/

namespace NullableMarker

/-! ## Sessions -/

/-- A workspace with its surroundings and the settings in force. Settings that were loaded stay in
force until others are asked for; they are numbered. -/
structure Session where
  workspace : Workspace := {}
  surroundings : Surroundings := {}
  settings : Option (Nat × Config) := none
  loads : Nat := 0
  deriving Inhabited

/-- Work within a session. -/
abbrev Run := ExceptT WorkError (StateM Session)

namespace Run

/-- Work on the workspace of the session. -/
def work (w : Work α) : Run α :=
  ExceptT.mk fun s =>
    let (result, workspace) := w.run.run s.workspace
    (result, { s with workspace })

/-- The settings in force; those of a given file from now on. -/
def settings (given : Option Path) : Run (Nat × Config) := do
  let s ← get
  match given, s.settings with
  | none, some loaded => return loaded
  | _, _ =>
    let config ← work (Config.load s.surroundings given)
    let loaded := (s.loads, config)
    modify fun s => { s with settings := some loaded, loads := s.loads + 1 }
    return loaded

/-- The result of using a setting, or its fault. -/
def ofSetting (result : Except SettingFault α) : Run α :=
  ExceptT.mk (pure (result.mapError .setting))

/-- The files that paths stand for. -/
def expand (patterns paths : List String) : Run (List Path) := do
  let fs := (← get).workspace.files
  ExceptT.mk (pure ((fs.expand patterns paths).mapError WorkError.ofGlob))

end Run

namespace CommandLine

/-! ## Output -/

/-- What a command prints, and its exit code. -/
structure Output where
  exit : Nat := 0
  lines : List String := []
  /-- What it prints to the error output after the log. -/
  complaint : Option String := none
  deriving Repr, DecidableEq

/-- The text with blanks after it up to a width. -/
def padRight (width : Nat) (s : String) : String :=
  s ++ String.ofList (List.replicate (width - s.length) ' ')

/-- The text with blanks before it up to a width. -/
def padLeft (width : Nat) (s : String) : String :=
  String.ofList (List.replicate (width - s.length) ' ') ++ s

/-- Each line with its end. -/
def joinLines (lines : List String) : String := String.join (lines.map (· ++ "\n"))

/-! ## Commands -/

/-- The references and the defined symbols, from the settings and from the arguments. -/
def resolutionOf (config : Config) (g : Given) : Run (List String × List (Option String)) := do
  let surroundings := (← get).surroundings
  let paths ← Run.ofSetting (config.referencePaths surroundings)
  let defined ← Run.ofSetting config.definedSymbols
  return (paths.map (·.text) ++ g.references, defined.map some ++ g.defined)

/-- The settings that the arguments before a command ask for. -/
def settingsOf (program : Given) : Run Config := do
  let given := program.config.filter (!·.isEmpty)
  return (← Run.settings (given.map Path.ofString)).2

/-- What `annotate` prints for a report. -/
def reportOutput (r : Report) : Output where
  exit := if r.check && !r.changed.isEmpty then 1 else 0
  lines := (if r.check then r.changed.map ("would annotate: " ++ ·) else []) ++ [r.summary]

/-- The message of an error that ends a command in good order. -/
def expected? : WorkError → Option String
  | .source e => some e.message
  | .file e => e.message?
  | .manifest e => e.message?
  | _ => none

/-- Annotates files in place, or says which would change. -/
def annotate (program g : Given) : Run Output := do
  let config ← settingsOf program
  let (references, defined) ← resolutionOf config g
  let jobs ← match g.jobs with
    | .unsaid => some <$> Run.ofSetting config.workers
    | .count n => pure (some n)
    | .countless => pure none
  let patterns ← Run.ofSetting config.patterns
  let files ← Run.expand patterns g.words
  if files.isEmpty then return { complaint := some "No files to annotate" }
  let options : Options := { references, defined, check := g.check, jobs }
  try
    return reportOutput (← Run.work (Work.annotateFiles options (files.map (·.text))))
  catch
    | .manifest e =>
      match e.message? with
      | some text => return { exit := 2, complaint := some s!"Error: {text}" }
      | none => throw (.manifest e)
    | e => throw e

/-- The line for a decision. -/
def decisionLine (d : Decision) : String :=
  let marker := if d.optional then "optional" else "-"
  padLeft 6 (toString d.line) ++ "  " ++ padRight 9 d.kind.word ++ "  " ++ padRight 40 d.name
    ++ "  " ++ padRight 8 marker ++ s!"  [{d.ruleLabel}]"

/-- What `analyze` prints for decisions. -/
def decisionOutput (decisions : List Decision) : Output where
  lines := decisions.map decisionLine
    ++ ["", s!"{(decisions.filter (·.optional)).length} declarations to annotate"]

/-- The decisions for a file. -/
def decisionsFor (references : List String) (defined : List (Option String)) (file : String) :
    Work (List Decision) := do
  let source ← Work.readSource file
  let env ← Work.environment references (← Work.named defined) source
  Work.judge {} env

/-- Lists the decisions for a file. -/
def analyze (program g : Given) : Run Output := do
  let config ← settingsOf program
  let (references, defined) ← resolutionOf config g
  try
    return decisionOutput (← Run.work (decisionsFor references defined (g.words.headD "")))
  catch e =>
    match expected? e with
    | some text => return { exit := 1, complaint := some s!"Error: {text}" }
    | none => throw e

/-- The kinds of nodes that `parse` counts, in the order of its listing. -/
def countedKinds : List NodeKind :=
  [.namespaceBlock, .fileScopedNamespace, .classType, .structType, .interfaceType, .enumType,
    .property, .field, .method, .constructor, .skipped]

/-- The kinds of types that `parse` lists. -/
def listedKinds : List NodeKind := [.classType, .structType, .interfaceType, .recordType, .enumType]

/-- The line for the number of nodes of a kind, if there are any. -/
def countLine? (nodes : List Tree) (kind : NodeKind) : Option String :=
  let count := (nodes.filter (·.isNode (· == kind))).length
  if count == 0 then none
  else some ("  " ++ padRight 22 kind.label.toLower ++ s!" {count}")

/-- The line for a type, if the node declares one. -/
def typeLine? (node : Tree) : Option String := do
  let kind ← node.kind?
  if !listedKinds.contains kind then none
  else
    let line := (node.firstToken?.map (·.place.line)).getD 0
    return s!"  - {kind.label.toLower} {node.name} (line {line})"

/-- What `parse` prints for a tree. -/
def treeOutput (file : String) (verbose : Bool) (root : Tree) : Output where
  lines :=
    let nodes := root.nodes.tail
    s!"Parsed: {file}" :: countedKinds.filterMap (countLine? nodes)
      ++ (if verbose then nodes.filterMap typeLine? else [])

/-- The tree of a file. -/
def treeOf (defined : List (Option String)) (file : String) : Work Tree := do
  let source ← Work.readSource file
  Work.ofExcept .source (parseUnit source (← Work.named defined))

/-- Counts the declarations of a file. -/
def parse (g : Given) : Run Output := do
  let file := g.words.headD ""
  try
    return treeOutput file (0 < g.verbosity) (← Run.work (treeOf g.defined file))
  catch e =>
    match expected? e with
    | some text => return { exit := 1, complaint := some s!"Parse error: {text}" }
    | none => throw e

/-! ## Runs -/

/-- The least level of log lines that are shown. -/
def shownLevel (name : CommandName) (program : Given) : LogLevel :=
  if 1 < program.verbosity then .debug
  else if program.verbosity == 0 && name != .annotate then .warning
  else .info

/-- How a run ends. -/
inductive Outcome where
  | help
  /-- The arguments were refused. -/
  | refused
  | done (exit : Nat) (output errors : String)
  deriving Repr, DecidableEq

/-- The name of the program and its version. -/
def versionText : String := "protonrt 0.1.0"

/-- Runs a command. -/
def runCommand (name : CommandName) (program g : Given) : Run Output :=
  match name with
  | .annotate => annotate program g
  | .analyze => analyze program g
  | .parse => parse g

/-- What a command prints to the error output. -/
def errorsOf (level : LogLevel) (log : Array LogLine) (complaint : Option String) : String :=
  let shown := log.toList.filter fun line => level.rank ≤ line.level.rank
  joinLines (shown.map (·.text) ++ complaint.toList)

/-- Does what arguments ask for. The log starts empty. -/
def run (args : List String) : Run Outcome := do
  match read args with
  | .stop .help => return .help
  | .stop .refused => return .refused
  | .stop .version => return .done 0 (versionText ++ "\n") ""
  | .run name program g =>
    modify fun s => { s with workspace := { s.workspace with log := #[] } }
    let output ← runCommand name program g
    let log := (← get).workspace.log
    return .done output.exit (joinLines output.lines)
      (errorsOf (shownLevel name program) log output.complaint)

end CommandLine

end NullableMarker
