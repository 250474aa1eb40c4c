import NullableMarker.Symbol

/-!
# Paths

A path is written in one way: slashes are single, a step to the same directory is left out, and steps
to the directory above are kept.
-/

namespace NullableMarker

/-- A path: the slashes of an absolute one, and the steps. -/
structure Path where
  root : String := ""
  parts : List String := []
  deriving Repr, DecidableEq, Inhabited

namespace Path

/-- The steps of a path as they are written between slashes. -/
def rawSteps (s : String) : List String := (splitAt '/' s.toList).map String.ofList

/-- The root that leading slashes stand for: two are kept, more count as one. -/
def rootOf (s : String) : String :=
  match (s.toList.takeWhile (· == '/')).length with
  | 0 => ""
  | 2 => "//"
  | _ => "/"

/-- Reads a path. -/
def ofString (s : String) : Path where
  root := rootOf s
  parts := (rawSteps s).filter fun step => step != "" && step != "."

/-- The text of a path; the empty path is a dot. -/
def text (p : Path) : String :=
  if p.root.isEmpty && p.parts.isEmpty then "." else p.root ++ "/".intercalate p.parts

/-- A path from the root. -/
def isAbsolute (p : Path) : Bool := !p.root.isEmpty

/-- The last step. -/
def name (p : Path) : String := p.parts.getLast?.getD ""

/-- The path without its last step. -/
def parent (p : Path) : Path := { p with parts := p.parts.dropLast }

/-- The path with one more step. -/
def child (p : Path) (step : String) : Path := { p with parts := p.parts ++ [step] }

/-- A path seen from a directory. -/
def under (base p : Path) : Path :=
  if p.isAbsolute then p else { base with parts := base.parts ++ p.parts }

/-- The part of a name from its last dot on, in lower case. A dot at either end does not count. -/
def suffixOf (name : String) : String :=
  let cs := name.toList
  let after := (cs.reverse.takeWhile (· != '.')).reverse
  if after.isEmpty || cs.length ≤ after.length + 1 then ""
  else String.ofList ('.' :: after.map Char.toLower)

/-- The suffix of the last step, in lower case. -/
def suffix (p : Path) : String := suffixOf p.name

/-- Paths are ordered step by step. -/
def le (p q : Path) : Bool :=
  !decide ((q.root :: q.parts) < (p.root :: p.parts))

/-- The paths in order. -/
def sort (paths : List Path) : List Path := paths.mergeSort le

end Path

end NullableMarker
