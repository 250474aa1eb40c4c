import NullableMarker.Token

/-!
# Punctuation and words

The marks of two characters are tried before those of one. The angle brackets and the question mark
never join with a neighbour, so generic and nullable types always see single tokens.
-/

namespace NullableMarker

/-- The marks of two characters. -/
def doubleMarks : List (List Char × TokenKind) :=
  [([':', ':'], .doubleColon), (['=', '>'], .arrow), (['=', '='], .operator),
    (['!', '='], .operator), (['&', '&'], .operator), (['|', '|'], .operator),
    (['+', '+'], .operator), (['-', '-'], .operator), (['+', '='], .operator),
    (['-', '='], .operator), (['*', '='], .operator), (['/', '='], .operator),
    (['%', '='], .operator), (['&', '='], .operator), (['|', '='], .operator),
    (['^', '='], .operator), (['-', '>'], .operator), (['.', '.'], .operator)]

/-- The marks of one character. -/
def singleMarks : List (Char × TokenKind) :=
  [('{', .lbrace), ('}', .rbrace), ('(', .lparen), (')', .rparen), ('[', .lbracket),
    (']', .rbracket), ('<', .lessThan), ('>', .greaterThan), ('?', .question), (',', .comma),
    (';', .semicolon), ('.', .dot), (':', .colon), ('=', .equals), ('+', .operator),
    ('-', .operator), ('*', .operator), ('/', .operator), ('%', .operator), ('&', .operator),
    ('|', .operator), ('^', .operator), ('!', .operator), ('~', .operator)]

/-- The mark that a text starts with, and its number of characters after the first. -/
def punctuation? (c : Char) (r : List Char) : Option (TokenKind × Nat) :=
  match doubleMarks.lookup (c :: r.take 1) with
  | some kind => some (kind, 1)
  | none => (singleMarks.lookup c).map (·, 0)

/-- The reserved words. -/
def keywords : List String :=
  ["abstract", "as", "base", "bool", "break", "byte", "case", "catch", "char", "checked", "class",
    "const", "continue", "decimal", "default", "delegate", "do", "double", "else", "enum", "event",
    "explicit", "extern", "false", "finally", "fixed", "float", "for", "foreach", "goto", "if",
    "implicit", "in", "int", "interface", "internal", "is", "lock", "long", "namespace", "new",
    "null", "object", "operator", "out", "override", "params", "private", "protected", "public",
    "readonly", "ref", "return", "sbyte", "sealed", "short", "sizeof", "stackalloc", "static",
    "string", "struct", "switch", "this", "throw", "true", "try", "typeof", "uint", "ulong",
    "unchecked", "unsafe", "ushort", "using", "virtual", "void", "volatile", "while"]

/-- A word is a keyword or an identifier. -/
def wordKind (word : String) : TokenKind :=
  if keywords.contains word then .keyword else .identifier

end NullableMarker
