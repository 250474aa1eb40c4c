import NullableMarker.Condition

/-!
# Conditional regions

The groups opened by `#if` and not yet closed, innermost first, with the symbols defined at the
moment. A text is active when the innermost group is, and only then are symbols defined or removed.
-/

namespace NullableMarker

open Text

/-! ## Directive lines -/

/-- The directives that open, switch and close groups. -/
def conditionalNames : List (List Char) :=
  ["if".toList, "elif".toList, "else".toList, "endif".toList]

/-- How far a line is looked at to tell whether it starts with a conditional directive. -/
def directiveWindow : Nat := 64

/-- A blank that may stand before the `#` of a conditional directive. -/
def isMargin (c : Char) : Bool := c == ' ' || c == '\t' || c == '\x0c' || c == '\x0b'

/-- The name of the directive that the line at the start of `s` holds, as far as the window shows
it; empty when it holds none. -/
def directiveName (s : List Char) : List Char :=
  match (s.take directiveWindow).dropWhile isMargin with
  | '#' :: r => (r.dropWhile fun c => c == ' ' || c == '\t').takeWhile Char.isAlpha
  | _ => []

/-- The line at the start of `s` holds a conditional directive. -/
def startsConditional (s : List Char) : Bool := conditionalNames.contains (directiveName s)

/-- A directive line: its name and what follows it, less a comment at its end. -/
structure Directive where
  name : String
  argument : List Char
  deriving Repr, DecidableEq

/-- Splits the text of a directive, which starts with `#`. -/
def Directive.ofText (text : List Char) : Directive :=
  let (name, rest) := firstWord (trim ((trim text).drop 1))
  ⟨String.ofList name, trim (beforeComment rest)⟩

/-! ## Groups -/

/-- An open group. At most one of its branches is active, the first whose condition holds. -/
structure Group where
  /-- The text around the group is active. -/
  parentActive : Bool
  /-- The present branch is active. -/
  active : Bool
  /-- The present branch or an earlier one was chosen. -/
  taken : Bool
  /-- The present branch is the `#else` branch. -/
  seenElse : Bool := false
  deriving Repr, DecidableEq

/-- The symbols defined and the groups open at a point of the text. -/
structure Region where
  symbols : List String
  groups : List Group := []
  deriving Repr, DecidableEq

namespace Region

/-- The region at the start of a text. -/
def start (defined : List String) : Region := { symbols := defined.eraseDups }

/-- Text is active here. -/
def isActive (st : Region) : Bool :=
  match st.groups with
  | [] => true
  | g :: _ => g.active

/-- Defines a symbol. -/
def define (st : Region) (name : String) : Region :=
  if st.symbols.contains name then st else { st with symbols := st.symbols ++ [name] }

/-- Removes a symbol. -/
def undefine (st : Region) (name : String) : Region :=
  { st with symbols := st.symbols.filter (· ≠ name) }

/-- The truth of a condition here. -/
def holds (st : Region) (condition : List Char) : Except LexCause Bool :=
  (Condition.ofText condition).map (·.eval st.symbols)

/-- Opens a group. The condition is read only where text is active. -/
def openGroup (st : Region) (condition : List Char) : Except LexCause Region := do
  let parent := st.isActive
  let chosen ← if parent then st.holds condition else pure false
  return { st with groups := ⟨parent, chosen, chosen, false⟩ :: st.groups }

/-- Goes on to a branch with a condition, which is read only if the branch may still be chosen. -/
def elifBranch (st : Region) (condition : List Char) : Except LexCause Region :=
  match st.groups with
  | [] => .error (.unmatchedDirective "elif")
  | g :: outer => do
    if g.seenElse then throw .elifAfterElse
    let chosen ← if g.parentActive && !g.taken then st.holds condition else pure false
    return { st with groups := { g with active := chosen, taken := g.taken || chosen } :: outer }

/-- Goes on to the last branch. -/
def elseBranch (st : Region) : Except LexCause Region :=
  match st.groups with
  | [] => .error (.unmatchedDirective "else")
  | g :: outer =>
    if g.seenElse then .error .duplicateElse
    else .ok { st with
      groups := ⟨g.parentActive, g.parentActive && !g.taken, true, true⟩ :: outer }

/-- Closes a group. -/
def closeGroup (st : Region) : Except LexCause Region :=
  match st.groups with
  | [] => .error (.unmatchedDirective "endif")
  | _ :: outer => .ok { st with groups := outer }

/-- The region after a directive line. Other directives change nothing. -/
def apply (st : Region) (d : Directive) : Except LexCause Region :=
  if d.name == "if" then st.openGroup d.argument
  else if d.name == "elif" then st.elifBranch d.argument
  else if d.name == "else" then st.elseBranch
  else if d.name == "endif" then st.closeGroup
  else if d.name == "define" && st.isActive then .ok (st.define (String.ofList d.argument))
  else if d.name == "undef" && st.isActive then .ok (st.undefine (String.ofList d.argument))
  else .ok st

end Region

end NullableMarker
