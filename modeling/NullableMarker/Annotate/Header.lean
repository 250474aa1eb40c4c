import NullableMarker.Text.White
import NullableMarker.Tree.Edit

/-!
# The nullable header

A file opts into nullable annotations with a directive on its first line. The line ends as the first
line of the file does.
-/

namespace NullableMarker

/-- The directive that a marked file starts with. -/
def nullableDirective : String := "#nullable enable annotations"

/-- The text of the first end of line, in the leading before the trailing trivia of each token. -/
def firstNewline? (tokens : List Token) : Option String :=
  ((tokens.flatMap fun t => t.leading ++ t.trailing).find? (·.kind == .endOfLine)).map (·.text)

namespace Tree

/-- How the lines of the tree end. -/
def newline (t : Tree) : String := (firstNewline? t.tokens).getD "\n"

/-- The tree starts with the directive. -/
def hasHeader (t : Tree) : Bool :=
  match t.leading with
  | first :: _ =>
    first.kind == .directive && Text.trim first.text.toList == nullableDirective.toList
  | [] => false

/-- A whole file without the directive. -/
def needsHeader (t : Tree) : Bool := t.isNode (· == .compilationUnit) && !t.hasHeader

/-- The directive on a line of its own. -/
def headerTrivia (newline : String) : List Trivia :=
  [⟨.directive, nullableDirective⟩, ⟨.endOfLine, newline⟩]

/-- The tree with the directive on its first line, if it is a file that lacks it. -/
def addHeader (t : Tree) : Tree :=
  if t.needsHeader then t.withLeading (headerTrivia t.newline ++ t.leading) else t

end Tree

end NullableMarker
