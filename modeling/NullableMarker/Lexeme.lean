import NullableMarker.Region
import NullableMarker.Text.Letter
import NullableMarker.Text.Numeric
import NullableMarker.Token.Literal
import NullableMarker.Token.Number
import NullableMarker.Token.Punctuation

/-!
# Lexemes

A source is cut into lexemes: trivia and bare tokens, one after another, none empty. Which lexeme
starts at a point depends on the text ahead, on whether the line is blank so far, and on whether the
text is active.
-/

namespace NullableMarker

open Text

/-! ## Classes of characters -/

/-- A blank inside a line. -/
def isBlank (c : Char) : Bool := isMargin c || c == '\ufeff'

/-- A character that may start an identifier. -/
def isWordStart (c : Char) : Bool := c == '_' || isLetter c

/-- A character that may go on an identifier. -/
def isWordPart (c : Char) : Bool := c == '_' || isLetter c || isNumeric c

/-- A character inside a line. -/
def inLine (c : Char) : Bool := !isLineEnd c

/-! ## Kinds of lexemes -/

/-- A lexeme is trivia or a token. -/
inductive LexemeKind where
  | trivia (kind : TriviaKind)
  | token (kind : TokenKind)
  deriving Repr, DecidableEq

/-- A lexeme with the offset and place where it starts. -/
structure Lexeme where
  kind : LexemeKind
  text : List Char
  offset : Nat
  place : Place
  deriving Repr, DecidableEq

/-- The number of characters up to and with the first `*/`. -/
def commentEnd? : List Char → Option Nat
  | '*' :: '/' :: _ => some 2
  | _ :: r => (commentEnd? r).map (· + 1)
  | [] => none

/-- The number of characters up to the next line that holds a conditional directive. -/
def disabledLength (lineStart : Bool) : List Char → Nat
  | [] => 0
  | c :: r =>
    if lineStart && startsConditional (c :: r) then 0
    else disabledLength (endsLine c r) r + 1

/-- The token that starts with `c`, and its number of characters after `c`. -/
def tokenAhead (c : Char) (r : List Char) : Except LexFault (TokenKind × Nat) :=
  match Literal.literalLength? (c :: r) with
  | .error fault => .error fault
  | .ok (some n) => .ok (if c == '\'' then .character else .string, n - 1)
  | .ok none =>
    if isWordStart c || (c == '@' && r.head?.any isWordStart) then
      let more := r.takeWhile isWordPart
      .ok (wordKind (String.ofList (c :: more)), more.length)
    else if Number.startsNumber (c :: r) then
      .ok (.number, Number.numberLength (c :: r) - 1)
    else
      match punctuation? c r with
      | some found => .ok found
      | none => .error ⟨.unexpectedCharacter c, 0⟩

/-- The lexeme that starts with `c`, and its number of characters after `c`. `fresh` tells that the
line is blank before `c`. -/
def lexemeAhead (fresh active : Bool) (c : Char) (r : List Char) :
    Except LexFault (LexemeKind × Nat) :=
  if !active && inLine c && !(fresh && startsConditional (c :: r)) then
    .ok (.trivia .disabledText, disabledLength false (c :: r) - 1)
  else if isBlank c then .ok (.trivia .whitespace, (r.takeWhile isBlank).length)
  else if isLineEnd c then
    .ok (.trivia .endOfLine, if c == '\r' && r.head? == some '\n' then 1 else 0)
  else if c == '#' && fresh then .ok (.trivia .directive, (r.takeWhile inLine).length)
  else if c == '/' && r.head? == some '/' then
    .ok (.trivia .singleLineComment, (r.takeWhile inLine).length)
  else if c == '/' && r.head? == some '*' then
    match commentEnd? (r.drop 1) with
    | some n => .ok (.trivia .multiLineComment, n + 1)
    | none => .error ⟨.unterminatedComment, 0⟩
  else (tokenAhead c r).map fun (kind, extra) => (.token kind, extra)

/-! ## Cutting a source -/

/-- What a scan knows of the text before a point. -/
structure ScanState where
  region : Region
  offset : Nat := 0
  place : Place := Place.first
  /-- The line is blank so far. -/
  fresh : Bool := true
  deriving Repr, DecidableEq

namespace ScanState

/-- The line is blank after `c` if it starts there or was blank and `c` is a blank. -/
def freshAfter (fresh : Bool) (c : Char) : Bool := isLineEnd c || (fresh && isBlank c)

/-- The state after the first `count` characters of `s`. -/
def advance (st : ScanState) (count : Nat) (s : List Char) : ScanState :=
  { st with
    offset := st.offset + count
    place := st.place.after count s
    fresh := (s.take count).foldl freshAfter st.fresh }

/-- The error of a fault found when reading on in `s`. -/
def blame (st : ScanState) (s : List Char) (fault : LexFault) : LexError :=
  ⟨fault.cause, st.place.after fault.offset s⟩

/-- The region after a lexeme: only a directive changes it. -/
def regionAfter (st : ScanState) (kind : LexemeKind) (text : List Char) : Except LexError Region :=
  match kind with
  | .trivia .directive =>
    match st.region.apply (Directive.ofText text) with
    | .ok region => .ok region
    | .error cause => .error ⟨cause, st.place⟩
  | _ => .ok st.region

end ScanState

/-- A source cut into lexemes, and the state at its end. -/
structure Cut where
  lexemes : List Lexeme
  final : ScanState
  deriving Repr, DecidableEq

/-- Cuts the text `s`, which starts in the state `st`. -/
def cut (st : ScanState) (s : List Char) : Except LexError Cut :=
  match s with
  | [] =>
    if st.region.groups.isEmpty then .ok ⟨[], st⟩
    else .error ⟨.unterminatedConditional, st.place⟩
  | c :: r =>
    match lexemeAhead st.fresh st.region.isActive c r with
    | .error fault => .error (st.blame s fault)
    | .ok (kind, extra) =>
      match st.regionAfter kind (c :: r.take extra) with
      | .error e => .error e
      | .ok region =>
        match cut { st.advance (extra + 1) (c :: r) with region := region } (r.drop extra) with
        | .error e => .error e
        | .ok rest => .ok { rest with
          lexemes := ⟨kind, c :: r.take extra, st.offset, st.place⟩ :: rest.lexemes }
termination_by s.length
decreasing_by simp only [List.length_drop, List.length_cons]; omega

end NullableMarker
