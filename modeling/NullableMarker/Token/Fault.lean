import NullableMarker.Text.Place
import NullableMarker.Text.Quoted

/-!
# Why a text cannot be cut into tokens
-/

namespace NullableMarker

/-- Why no token can be read. -/
inductive LexCause where
  | unterminatedComment
  | unterminatedString
  | unterminatedCharacter
  | unterminatedVerbatim
  | unterminatedRaw
  | unterminatedInterpolated
  | unterminatedHole
  | unexpectedCharacter (c : Char)
  | unmatchedDirective (name : String)
  | elifAfterElse
  | duplicateElse
  | missingCondition
  | invalidCondition (condition : String)
  | unbalancedCondition (condition : String)
  | unterminatedConditional
  deriving Repr, DecidableEq

/-- The wording of a cause. -/
def LexCause.text : LexCause → String
  | unterminatedComment => "Unterminated comment"
  | unterminatedString => "Unterminated string"
  | unterminatedCharacter => "Unterminated character literal"
  | unterminatedVerbatim => "Unterminated verbatim string"
  | unterminatedRaw => "Unterminated raw string literal"
  | unterminatedInterpolated => "Unterminated interpolated string"
  | unterminatedHole => "Unterminated interpolation hole"
  | unexpectedCharacter c => s!"Unexpected character {Text.quoted (String.singleton c)}"
  | unmatchedDirective name => s!"#{name} without matching #if"
  | elifAfterElse => "#elif after #else"
  | duplicateElse => "Duplicate #else"
  | missingCondition => "Missing preprocessor expression"
  | invalidCondition condition => s!"Invalid preprocessor expression {Text.quoted condition}"
  | unbalancedCondition condition => s!"Unbalanced parentheses in {Text.quoted condition}"
  | unterminatedConditional => "Unterminated #if directive"

/-- A cause, blamed on the character `offset` characters after the start of what was being read. -/
structure LexFault where
  cause : LexCause
  offset : Nat
  deriving Repr, DecidableEq

/-- A cause and the place in the source it is blamed on. -/
structure LexError where
  cause : LexCause
  place : Text.Place
  deriving Repr, DecidableEq

/-- The whole message. -/
def LexError.message (e : LexError) : String :=
  s!"Lexer error at line {e.place.line}, column {e.place.column}: {e.cause.text}"

end NullableMarker
