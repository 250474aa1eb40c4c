import NullableMarker.Text.Search
import NullableMarker.Workspace.FileSystem

/-!
# Glob patterns

A pattern is a path whose steps may hold wildcards. The step `**` stands for any number of
directories. Letter case counts, and names that start with a dot are like others.
-/

namespace NullableMarker

/-! ## Wildcards -/

/-- One item of a pattern for names. -/
inductive Wildcard where
  | one (c : Char)
  | any
  | many
  /-- A character in one of the ranges, or in none of them. -/
  | range (negated : Bool) (ranges : List (Char × Char))
  deriving Repr, DecidableEq

namespace Wildcard

/-- The tests for a text or a later part of it. -/
def anyTail (rest : List Char → Bool) : List Char → Bool
  | [] => rest []
  | c :: cs => rest (c :: cs) || anyTail rest cs

/-- What an item and the items after it match, given what the latter match. -/
def extend (w : Wildcard) (rest : List Char → Bool) (cs : List Char) : Bool :=
  match w, cs with
  | many, cs => anyTail rest cs
  | _, [] => false
  | one d, c :: cs => c == d && rest cs
  | any, _ :: cs => rest cs
  | range negated ranges, c :: cs =>
    (ranges.any fun (lo, hi) => lo ≤ c && c ≤ hi) != negated && rest cs

/-- The items match a whole name. -/
def matchAll (pattern : List Wildcard) (name : List Char) : Bool :=
  pattern.foldr extend List.isEmpty name

/-- What the inside of a bracket lists: a character, or a range with its bounds. -/
inductive Listed where
  | single (c : Char)
  | span (lo hi : Char)
  deriving Repr, DecidableEq

namespace Listed

/-- The bounds of what is listed. -/
def bounds : Listed → Char × Char
  | single c => (c, c)
  | span lo hi => (lo, hi)

/-- Reads the inside of a bracket. -/
def ofInside : List Char → List Listed
  | lo :: '-' :: hi :: rest => span lo hi :: ofInside rest
  | c :: rest => single c :: ofInside rest
  | [] => []

/-- A character is in what is listed. -/
def isInhabited (l : Listed) : Bool := l.bounds.1 ≤ l.bounds.2

end Listed

/-- The bounds of what the inside of a bracket lists, without the empty ranges. -/
def rangesOf (inside : List Char) : List (Char × Char) :=
  ((Listed.ofInside inside).filter (·.isInhabited)).map (·.bounds)

/-- The item for the inside of a bracket. An exclamation mark in front negates, also one that stands
there after empty ranges are left out; what would be a range from it is then two characters. -/
def ofBracket : List Char → Wildcard
  | '!' :: rest => range true (rangesOf rest)
  | inside =>
    match (Listed.ofInside inside).filter (·.isInhabited) with
    | .single '!' :: listed => range true (listed.map (·.bounds))
    | .span '!' hi :: listed => range true (('-', '-') :: (hi, hi) :: listed.map (·.bounds))
    | listed => range false (listed.map (·.bounds))

/-- The length of what cannot end a bracket although it may be one. -/
def bracketStart : List Char → Nat
  | '!' :: ']' :: _ => 2
  | '!' :: _ => 1
  | ']' :: _ => 1
  | _ => 0

/-- Splits the inside of a bracket, which has been opened, from what follows it. -/
def splitBracket? (cs : List Char) : Option (List Char × List Char) :=
  let start := bracketStart cs
  let inside := cs.take start ++ (cs.drop start).takeWhile (· != ']')
  match cs.drop inside.length with
  | _ :: rest => some (inside, rest)
  | [] => none

theorem length_lt_of_splitBracket? {cs inside rest : List Char}
    (h : splitBracket? cs = some (inside, rest)) : rest.length < cs.length := by
  simp only [splitBracket?] at h
  split at h
  · rename_i heq
    obtain ⟨-, rfl⟩ := Prod.mk.inj (Option.some.inj h)
    have hl := congrArg List.length heq
    simp only [List.length_drop, List.length_cons] at hl
    omega
  · simp at h

/-- The items of a pattern for names. A bracket that is not closed stands for itself. -/
def ofPattern (cs : List Char) : List Wildcard :=
  match cs with
  | [] => []
  | c :: rest =>
    if c == '*' then many :: ofPattern rest
    else if c == '?' then any :: ofPattern rest
    else if c == '[' then
      match _h : splitBracket? rest with
      | some (inside, after) => ofBracket inside :: ofPattern after
      | none => one c :: ofPattern rest
    else one c :: ofPattern rest
termination_by cs.length
decreasing_by
  · simp
  · simp
  · exact Nat.lt_succ_of_lt (length_lt_of_splitBracket? _h)
  · simp
  · simp

end Wildcard

/-! ## Patterns -/

/-- One step of a pattern. -/
inductive GlobStep where
  | named (name : String)
  | matching (pattern : List Wildcard)
  /-- Any number of directories. -/
  | deep
  /-- The directory itself. -/
  | here
  deriving Repr, DecidableEq

/-- Why a text is no pattern. -/
inductive GlobFault where
  | empty
  | absolute
  /-- All steps lead to the same directory. -/
  | noStep
  /-- The same, and a slash follows. -/
  | noStepBeforeSlash
  /-- Two stars are only part of a step. -/
  | misplacedStars
  deriving Repr, DecidableEq

namespace GlobStep

/-- The step has wildcards. -/
def isWild (step : String) : Bool := step.toList.any fun c => c == '*' || c == '?' || c == '['

/-- Reads a step. -/
def ofString (step : String) : Except GlobFault GlobStep :=
  if step == "**" then .ok .deep
  else if Text.occurs ['*', '*'] step.toList then .error .misplacedStars
  else if isWild step then .ok (.matching (Wildcard.ofPattern step.toList))
  else .ok (.named step)

/-- Reads a pattern. A slash at its end admits only directories. -/
def ofPattern (pattern : String) : Except GlobFault (List GlobStep) := do
  if pattern.isEmpty then throw .empty
  let path := Path.ofString pattern
  if path.isAbsolute then throw .absolute
  let slashed := pattern.toList.getLast? == some '/'
  if path.parts.isEmpty then throw (if slashed then .noStepBeforeSlash else .noStep)
  let steps ← path.parts.mapM ofString
  return if slashed then steps ++ [.here] else steps

end GlobStep

namespace FileSystem

/-- The names right below a path, and whether they are directories. -/
def children (fs : FileSystem) (path : Path) : List (String × Bool) :=
  (fs.listing path).filterMap fun (location, entry) =>
    match location, entry with
    | [name], .directory => some (name, true)
    | [name], .file _ => some (name, false)
    | _, _ => none

/-- A directory and all directories below it. -/
def directoriesFrom (fs : FileSystem) (path : Path) : List Path :=
  path :: (fs.listing path).filterMap fun (location, entry) =>
    match entry with
    | .directory => some { path with parts := path.parts ++ location }
    | .file _ => none

/-- What a test finds; where the system refuses to look, nothing. -/
def unlessRefused : Except FileError Bool → Except FileError Bool
  | .error ⟨_, .refused _⟩ => .ok false
  | found => found

/-- The paths that steps lead to. All but the last must lead to directories. -/
def select (fs : FileSystem) (path : Path) : List GlobStep → Except FileError (List Path)
  | [] => .ok [path]
  | .here :: _ => .ok [path]
  | .named name :: steps => do
    let next := path.child name
    let found ← unlessRefused (if steps.isEmpty then fs.exists? next.text
      else fs.isDirectory next.text)
    if found then fs.select next steps else return []
  | .matching pattern :: steps => do
    let found ← (fs.children path).mapM fun (name, isDirectory) =>
      if (steps.isEmpty || isDirectory) && Wildcard.matchAll pattern name.toList then
        fs.select (path.child name) steps
      else .ok []
    return found.flatten
  | .deep :: steps => do
    let found ← (fs.directoriesFrom path).mapM fun p => fs.select p steps
    return found.flatten

end FileSystem

/-- Why patterns lead to no files. -/
inductive GlobError where
  | pattern (fault : GlobFault)
  | file (e : FileError)
  deriving Repr, DecidableEq

namespace FileSystem

/-- The files below a directory that a pattern matches. -/
def glob (fs : FileSystem) (path : Path) (pattern : String) : Except GlobError (List Path) := do
  let steps ← (GlobStep.ofPattern pattern).mapError .pattern
  let found ← (fs.select path steps).mapError .file
  (found.filterM fun p => fs.isFile p.text).mapError .file

/-- The files below a directory that one of the patterns matches, in order. -/
def globAll (fs : FileSystem) (path : Path) (patterns : List String) :
    Except GlobError (List Path) := do
  let found ← patterns.mapM (fs.glob path)
  return (Path.sort found.flatten).eraseDups

/-- The files that a path stands for: a directory stands for its files that a pattern matches, any
other path for itself. -/
def expandPath (fs : FileSystem) (patterns : List String) (path : Path) :
    Except GlobError (List Path) := do
  if ← (fs.isDirectory path.text).mapError .file then fs.globAll path patterns
  else return [path]

/-- The files that paths stand for, each listed once. -/
def expand (fs : FileSystem) (patterns : List String) (paths : List String) :
    Except GlobError (List Path) := do
  let expanded ← paths.mapM fun raw => fs.expandPath patterns (Path.ofString raw)
  return expanded.flatten.eraseDups

end FileSystem

end NullableMarker
