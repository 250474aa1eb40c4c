import NullableMarker.Text.Place
import NullableMarker.Text.Quoted

/-!
# Tokens and trivia

A token carries the blanks, comments, directives and disabled regions around it, so that the full
texts of the tokens of a source, in order, are the source.
-/

namespace NullableMarker

/-! ## Kinds -/

/-- What a token is. -/
inductive TokenKind where
  | identifier | keyword | number | string | character
  | lbrace | rbrace | lparen | rparen | lbracket | rbracket
  | lessThan | greaterThan | question | comma | semicolon | dot
  | colon | doubleColon | equals | arrow | operator | eof
  deriving Repr, DecidableEq, Inhabited

/-- What a piece of text between tokens is. -/
inductive TriviaKind where
  | whitespace | endOfLine | singleLineComment | multiLineComment | directive | disabledText
  deriving Repr, DecidableEq, Inhabited

/-- The label of a kind in listings. -/
def TokenKind.label : TokenKind → String
  | identifier => "IDENTIFIER" | keyword => "KEYWORD" | number => "NUMBER" | string => "STRING"
  | character => "CHARACTER" | lbrace => "LBRACE" | rbrace => "RBRACE" | lparen => "LPAREN"
  | rparen => "RPAREN" | lbracket => "LBRACKET" | rbracket => "RBRACKET"
  | lessThan => "LESS_THAN" | greaterThan => "GREATER_THAN" | question => "QUESTION"
  | comma => "COMMA" | semicolon => "SEMICOLON" | dot => "DOT" | colon => "COLON"
  | doubleColon => "DOUBLE_COLON" | equals => "EQUALS" | arrow => "ARROW"
  | operator => "OPERATOR" | eof => "EOF"

/-- The label of a kind in listings. -/
def TriviaKind.label : TriviaKind → String
  | whitespace => "WHITESPACE" | endOfLine => "END_OF_LINE"
  | singleLineComment => "SINGLE_LINE_COMMENT" | multiLineComment => "MULTI_LINE_COMMENT"
  | directive => "DIRECTIVE" | disabledText => "DISABLED_TEXT"

/-! ## Trivia -/

/-- A piece of source text that belongs to no token. -/
structure Trivia where
  kind : TriviaKind
  text : String
  deriving Repr, DecidableEq, Inhabited

namespace Trivia

/-- The joined text of a list of trivia. -/
def textOf (trivia : List Trivia) : String := String.join (trivia.map text)

@[simp] theorem textOf_nil : textOf [] = "" := by simp [textOf]

@[simp] theorem textOf_cons (t : Trivia) (ts : List Trivia) :
    textOf (t :: ts) = t.text ++ textOf ts := by simp [textOf]

@[simp] theorem textOf_append (as bs : List Trivia) :
    textOf (as ++ bs) = textOf as ++ textOf bs := by simp [textOf]

/-- One line for listings. -/
def describe (t : Trivia) : String := s!"Trivia({t.kind.label}, {Text.quoted t.text})"

end Trivia

/-! ## Tokens -/

/-- A token with the trivia attached to it. A token that was not read from a source has no offset,
and stands at line 0 and column 0. -/
structure Token where
  kind : TokenKind
  value : String
  offset : Option Nat := none
  place : Text.Place := ⟨0, 0⟩
  leading : List Trivia := []
  trailing : List Trivia := []
  deriving Repr, DecidableEq, Inhabited

namespace Token

/-- The text of the token with its trivia. -/
def fullText (t : Token) : String :=
  Trivia.textOf t.leading ++ t.value ++ Trivia.textOf t.trailing

/-- The full texts of a list of tokens, joined. -/
def fullTextOf (tokens : List Token) : String := String.join (tokens.map fullText)

@[simp] theorem fullTextOf_nil : fullTextOf [] = "" := by simp [fullTextOf]

@[simp] theorem fullTextOf_cons (t : Token) (ts : List Token) :
    fullTextOf (t :: ts) = t.fullText ++ fullTextOf ts := by simp [fullTextOf]

@[simp] theorem fullTextOf_append (as bs : List Token) :
    fullTextOf (as ++ bs) = fullTextOf as ++ fullTextOf bs := by simp [fullTextOf]

/-- One line for listings. -/
def describe (t : Token) : String :=
  s!"Token({t.kind.label}, {Text.quoted t.value}, L{t.place.line}:{t.place.column})"

/-- One of the given keywords. -/
def isKeyword (t : Token) (words : List String) : Bool :=
  t.kind == .keyword && words.contains t.value

/-- One of the given words, reserved or not. -/
def isWord (t : Token) (words : List String) : Bool :=
  (t.kind == .identifier || t.kind == .keyword) && words.contains t.value

end Token

end NullableMarker
