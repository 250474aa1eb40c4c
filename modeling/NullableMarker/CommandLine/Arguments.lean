import NullableMarker.Text.Integer

/-!
# Command line arguments

Arguments are switches and words. A switch may be shortened as long as it stays unambiguous; a value
follows its switch or is attached to it; single letters may be bundled. After `--` all arguments are
words. What stands before the command belongs to the program, what follows belongs to the command.
-/

namespace NullableMarker.CommandLine

/-! ## Switches -/

/-- What a switch is for. -/
inductive Flag where
  | help | version | verbose | config | reference | define | check | jobs
  deriving Repr, DecidableEq

/-- The switch has a value. -/
def Flag.takesValue : Flag → Bool
  | .config | .reference | .define | .jobs => true
  | _ => false

/-- The spellings of switches. -/
abbrev Switches := List (String × Flag)

/-- The switches before the command. -/
def programSwitches : Switches :=
  [("-h", .help), ("--help", .help), ("--version", .version), ("-v", .verbose),
    ("--verbose", .verbose), ("--config", .config)]

/-- The commands. -/
inductive CommandName where
  | annotate | analyze | parse
  deriving Repr, DecidableEq

namespace CommandName

/-- The word for a command. -/
def word : CommandName → String
  | annotate => "annotate" | analyze => "analyze" | parse => "parse"

/-- The command with a word. -/
def ofWord? (s : String) : Option CommandName := [annotate, analyze, parse].find? (·.word == s)

/-- The switches after a command. -/
def switches : CommandName → Switches
  | annotate =>
    [("-h", .help), ("--help", .help), ("-r", .reference), ("--reference", .reference),
      ("-D", .define), ("--define", .define), ("--check", .check), ("-j", .jobs),
      ("--jobs", .jobs)]
  | analyze =>
    [("-h", .help), ("--help", .help), ("-r", .reference), ("--reference", .reference),
      ("-D", .define), ("--define", .define)]
  | parse =>
    [("-h", .help), ("--help", .help), ("-D", .define), ("--define", .define), ("-v", .verbose),
      ("--verbose", .verbose)]

/-- The command takes any number of words. -/
def takesMany : CommandName → Bool
  | annotate => true
  | _ => false

end CommandName

/-! ## Items -/

/-- What an argument is. -/
inductive Item where
  | word
  /-- The mark after which there are only words. -/
  | mark
  /-- A switch, spelled by a letter or by a word, and what is attached to it. -/
  | switch (flag : Flag) (byLetter : Bool) (attached : Option (List Char))
  | unknown
  deriving Repr, DecidableEq

/-- A switch is spelled by a letter. -/
def isLetter (spelling : String) : Bool := spelling.toList.drop 1 |>.head? |>.any (· != '-')

/-- Splits an argument at its first equals sign. -/
def splitEquals (arg : List Char) : List Char × Option (List Char) :=
  match arg.dropWhile (· != '=') with
  | [] => (arg, none)
  | _ :: attached => (arg.takeWhile (· != '='), some attached)

/-- The switches that an argument may be short for, or have something written right after. -/
def candidates (table : Switches) (arg : List Char) : List Item :=
  match arg with
  | '-' :: '-' :: _ =>
    let (name, attached) := splitEquals arg
    table.filterMap fun (spelling, flag) =>
      if name.isPrefixOf spelling.toList then some (.switch flag (isLetter spelling) attached)
      else none
  | '-' :: c :: rest =>
    table.filterMap fun (spelling, flag) =>
      if spelling.toList == ['-', c] then some (.switch flag true (some rest))
      else if arg.isPrefixOf spelling.toList then some (.switch flag (isLetter spelling) none)
      else none
  | _ => []

/-- The text without an end of line at its end. -/
def withoutLineEnd (cs : List Char) : List Char :=
  if cs.getLast? == some '\n' then cs.dropLast else cs

/-- The argument is a negative number; an end of line may follow. -/
def isNegativeNumber (arg : List Char) : Bool :=
  let isDigits := fun (cs : List Char) => !cs.isEmpty && cs.all fun c => (Text.digitValue? c).isSome
  match withoutLineEnd arg with
  | '-' :: rest =>
    let whole := rest.takeWhile (· != '.')
    match rest.drop whole.length with
    | [] => isDigits whole
    | _ :: fraction => (whole.isEmpty || isDigits whole) && isDigits fraction
  | _ => false

/-- What an argument before the mark is. There is no answer when it is short for several
switches. -/
def itemOf (table : Switches) (arg : String) : Option Item :=
  let cs := arg.toList
  if cs.head? != some '-' then some .word
  else
    match table.lookup arg with
    | some flag => some (.switch flag (isLetter arg) none)
    | none =>
      if cs.length == 1 then some .word
      else
        let (name, attached) := splitEquals cs
        match table.lookup (String.ofList name) with
        | some flag => some (.switch flag (isLetter (String.ofList name)) attached)
        | none =>
          match candidates table cs with
          | [item] => some item
          | _ :: _ :: _ => none
          | [] =>
            if isNegativeNumber cs || cs.contains ' ' then some .word else some .unknown

/-- What the arguments are, each with its text. -/
def itemsOf (table : Switches) : List String → Option (List (String × Item))
  | [] => some []
  | arg :: args => do
    if arg == "--" then return (arg, .mark) :: args.map (·, .word)
    let item ← itemOf table arg
    let items ← itemsOf table args
    return (arg, item) :: items

/-! ## Values -/

/-- Why reading arguments ends early. -/
inductive Stop where
  | help | version | refused
  deriving Repr, DecidableEq

/-- The number of workers that is asked for. -/
inductive Workers where
  | unsaid
  | count (n : Int)
  /-- Something that is no number. -/
  | countless
  deriving Repr, DecidableEq

/-- What switches and words have given. -/
structure Given where
  verbosity : Nat := 0
  config : Option String := none
  references : List String := []
  /-- The symbols to define; none for one without a name. -/
  defined : List (Option String) := []
  check : Bool := false
  jobs : Workers := .unsaid
  words : List String := []
  deriving Repr, DecidableEq

namespace Given

/-- Takes in a switch without a value. -/
def take (g : Given) (flag : Flag) : Except Stop Given :=
  match flag with
  | .help => .error .help
  | .version => .error .version
  | .verbose => .ok { g with verbosity := g.verbosity + 1 }
  | .check => .ok { g with check := true }
  | _ => .ok g

/-- Takes in a switch with a value. A mark in place of the value is taken away, so that nothing is
left of it: no file, no name and no number; a path then reads as an empty list. -/
def takeValue (g : Given) (flag : Flag) (value : String) : Except Stop Given :=
  let isMark := value == "--"
  match flag with
  | .config => .ok { g with config := if isMark then none else some value }
  | .reference =>
    .ok { g with references := g.references ++ [if isMark then "[]" else value] }
  | .define => .ok { g with defined := g.defined ++ [if isMark then none else some value] }
  | .jobs =>
    if isMark then .ok { g with jobs := .countless }
    else
      match Text.integer? value.toList with
      | some n => .ok { g with jobs := .count n }
      | none => .error .refused
  | _ => g.take flag

end Given

/-- The switches that one argument holds. -/
structure Bundle where
  /-- Those without a value. -/
  plain : List Flag := []
  /-- The last, if it has a value, and the value unless it is the next argument. -/
  valued : Option (Flag × Option (List Char)) := none
  deriving Repr, DecidableEq

/-- A switch with nothing attached. -/
def Bundle.ofFlag (flag : Flag) : Bundle :=
  if flag.takesValue then { valued := some (flag, none) } else { plain := [flag] }

/-- Takes apart a switch that is spelled by a letter, and what is attached to it: its value or, if it
has none, the letters of further switches. -/
def bundleLetters (table : Switches) (flag : Flag) : List Char → Option Bundle
  | [] => if flag.takesValue then some { valued := some (flag, some []) } else none
  | c :: rest =>
    if flag.takesValue then some { valued := some (flag, some (c :: rest)) }
    else
      match table.lookup (String.ofList ['-', c]) with
      | none => none
      | some next =>
        let others := if rest.isEmpty then some (Bundle.ofFlag next)
          else bundleLetters table next rest
        others.map fun b => { b with plain := flag :: b.plain }

/-- Takes a switch and what is attached to it apart. Nothing can be attached to a word without a
value. -/
def bundle (table : Switches) (flag : Flag) (byLetter : Bool) :
    Option (List Char) → Option Bundle
  | none => some (Bundle.ofFlag flag)
  | some attached =>
    if byLetter then bundleLetters table flag attached
    else if flag.takesValue then some { valued := some (flag, some attached) }
    else none

/-- Takes in the switches of a bundle. The last takes the next argument for its value if it needs
one. Says whether that was used. -/
def takeBundle (g : Given) (b : Bundle) (next : Option (String × Item)) :
    Except Stop (Given × Bool) := do
  match b.valued with
  | none => return (← b.plain.foldlM Given.take g, false)
  | some (flag, value) =>
    let (text, used) ← match value, next with
      | some value, _ => pure (String.ofList value, false)
      | none, some (word, .word) => pure (word, true)
      | none, _ => throw .refused
    let g ← b.plain.foldlM Given.take g
    return (← g.takeValue flag text, used)

/-! ## Commands -/

/-- How far the words of a command have been read: they stand next to each other. -/
inductive Phase where
  | before | among | after
  deriving Repr, DecidableEq

/-- Reads what follows a command. Says also whether something was left over. -/
def readCommand (name : CommandName) (g : Given) (phase : Phase) (extra : Bool) :
    List (String × Item) → Except Stop (Given × Bool)
  | [] => if g.words.isEmpty then .error .refused else .ok (g, extra)
  | (arg, item) :: rest =>
    let settled := if phase == .among then .after else phase
    match item with
    | .word =>
      if phase == .before || (phase == .among && name.takesMany) then
        readCommand name { g with words := g.words ++ [arg] } .among extra rest
      else readCommand name g phase true rest
    | .mark => readCommand name g phase (extra || phase == .after) rest
    | .unknown => readCommand name g settled true rest
    | .switch flag byLetter attached =>
      match bundle name.switches flag byLetter attached with
      | none => .error .refused
      | some b =>
        match takeBundle g b rest.head? with
        | .error stop => .error stop
        | .ok (g, used) =>
          match used, rest with
          | true, _ :: rest => readCommand name g settled extra rest
          | _, rest => readCommand name g settled extra rest

/-- What is asked for. -/
inductive Request where
  | stop (s : Stop)
  /-- A command, with what was given before and after it. -/
  | run (name : CommandName) (program command : Given)
  deriving Repr, DecidableEq

/-- Reads a command and what follows it. -/
def readNamed (program : Given) (extra : Bool) (word : String) (args : List String) : Request :=
  match CommandName.ofWord? word with
  | none => .stop .refused
  | some name =>
    match itemsOf name.switches args with
    | none => .stop .refused
    | some items =>
      match readCommand name {} .before false items with
      | .error s => .stop s
      | .ok (command, leftOver) =>
        if extra || leftOver then .stop .refused else .run name program command

/-- Reads what stands before a command, and then the command. Without a command, help is asked
for. -/
def readProgram (g : Given) (extra : Bool) : List (String × Item) → Request
  | [] => .stop (if extra then .refused else .help)
  | (arg, item) :: rest =>
    match item with
    | .word => readNamed g extra arg (rest.map (·.1))
    | .mark => .stop .refused
    | .unknown => readProgram g true rest
    | .switch flag byLetter attached =>
      match bundle programSwitches flag byLetter attached with
      | none => .stop .refused
      | some b =>
        match takeBundle g b rest.head? with
        | .error s => .stop s
        | .ok (g, used) =>
          match used, rest with
          | true, _ :: rest => readProgram g extra rest
          | _, rest => readProgram g extra rest

/-- What arguments ask for. -/
def read (args : List String) : Request :=
  match itemsOf programSwitches args with
  | none => .stop .refused
  | some items => readProgram {} false items

end NullableMarker.CommandLine
