import NullableMarker.Token

/-!
# Why tokens are no declaration

A reader fails in one of two ways. A mismatch only says that the tokens do not have the shape that
was tried; what is tried next decides. A fatal failure ends the reading of the source.
-/

namespace NullableMarker

/-- Why a source cannot be read at all. -/
inductive ParseCause where
  | unclosedGroup
  | mismatchedCloser (value : String)
  | unexpected (value : String)
  | endOfFile
  | closingBrace
  | closingBraceAtTop
  | endInNamespace
  | missingNamespaceName
  | missingNamespaceBody
  | endInType (name : String)
  deriving Repr, DecidableEq

/-- The wording of a cause. -/
def ParseCause.text : ParseCause → String
  | unclosedGroup => "Unexpected end of file (unbalanced braces?)"
  | mismatchedCloser value => s!"Mismatched {Text.quoted value}"
  | unexpected value => s!"Unexpected {Text.quoted value}"
  | endOfFile => "Unexpected end of file"
  | closingBrace => "Unexpected closing brace '\x7d'"
  | closingBraceAtTop => "Unexpected closing brace '\x7d' at top level (unbalanced braces?)"
  | endInNamespace => "Unexpected end of file in namespace"
  | missingNamespaceName => "Expected namespace name"
  | missingNamespaceBody => "Expected '\x7b' after namespace name"
  | endInType name => s!"Unexpected end of file in type {name}"

/-- A complaint about a line and a column; line 0 stands for no place. -/
def parseMessage (text : String) (line column : Int) : String :=
  if line = 0 then s!"Parse error: {text}"
  else s!"Parse error at line {line}, column {column}: {text}"

/-- A cause and the place in the source it is blamed on. -/
structure ParseError where
  cause : ParseCause
  place : Text.Place
  deriving Repr, DecidableEq

/-- The whole message. -/
def ParseError.message (e : ParseError) : String :=
  parseMessage e.cause.text e.place.line e.place.column

namespace Grammar

/-- How a reader fails. A fatal failure is blamed on a token, or on the end of the file. -/
inductive Failure where
  | mismatch
  | fatal (cause : ParseCause) (token : Option Token)
  deriving Repr, DecidableEq

/-- The error of a failure, given the end-of-file token. A mismatch never gets this far. -/
def Failure.toError (eof : Token) : Failure → ParseError
  | mismatch => ⟨.endOfFile, eof.place⟩
  | fatal cause token => ⟨cause, (token.getD eof).place⟩

end Grammar

end NullableMarker
