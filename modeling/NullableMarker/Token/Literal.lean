import NullableMarker.Token.Fault

/-!
# String and character literals

A literal is scanned by a stack of frames: an interpolated string opens a hole, and in the hole
another literal may open. Each step consumes at least one character, so the scan ends without fuel.
-/

namespace NullableMarker.Literal

open Text

/-! ## Frames -/

/-- What is open at a point inside a literal. `start` is the offset that an unterminated frame is
blamed on. -/
inductive Frame where
  /-- A regular string or a character literal, ended by `mark`. -/
  | regular (mark : Char) (start : Nat)
  /-- A verbatim string, in which a quote is written twice. -/
  | verbatim (start : Nat)
  /-- A raw string, ended by at least `quotes` quotes in a row. -/
  | raw (quotes start : Nat)
  /-- An interpolated string with its number of dollar signs. -/
  | interpolated (isVerbatim : Bool) (dollars start : Nat)
  /-- A hole of an interpolated string, with the number of braces open inside it. -/
  | hole (braces : Nat)
  deriving Repr, DecidableEq

/-- The fault of a frame that is still open at offset `n`. -/
def Frame.unterminated (n : Nat) : Frame → LexFault
  | regular mark start =>
    ⟨if mark == '"' then .unterminatedString else .unterminatedCharacter, start⟩
  | verbatim start => ⟨.unterminatedVerbatim, start⟩
  | raw _ start => ⟨.unterminatedRaw, start⟩
  | interpolated _ _ start => ⟨.unterminatedInterpolated, start⟩
  | hole _ => ⟨.unterminatedHole, n⟩

/-- The number of quotes that `s` starts with. -/
def quoteRun (s : List Char) : Nat := (s.takeWhile (· == '"')).length

/-- A mark before an interpolated string. -/
def isStringMark (c : Char) : Bool := c == '$' || c == '@'

/-- The frame that a literal at the start of `s` opens, and the number of characters that open it
beyond the first. `n` is the offset of `s`. -/
def opening? (n : Nat) (s : List Char) : Option (Frame × Nat) :=
  match s with
  | '"' :: r =>
    if 2 ≤ quoteRun r then some (.raw (quoteRun r + 1) n, quoteRun r)
    else some (.regular '"' n, 0)
  | '\'' :: _ => some (.regular '\'' n, 0)
  | '@' :: '"' :: _ => some (.verbatim (n + 1), 1)
  | _ =>
    let marks := s.takeWhile isStringMark
    if marks.head? == some '$' || marks.take 2 == ['@', '$'] then
      match s.drop marks.length with
      | '"' :: r =>
        if 2 ≤ quoteRun r then
          some (.raw (quoteRun r + 1) (n + marks.length), marks.length + quoteRun r)
        else some (.interpolated (marks.contains '@') (marks.count '$') n, marks.length)
      | _ => none
    else none

/-- What a frame does at the character `c` at offset `n`, when `r` follows: the frames that replace
it, and the number of characters consumed after `c`. -/
def Frame.step (f : Frame) (n : Nat) (c : Char) (r : List Char) : Except LexFault (List Frame × Nat) :=
  match f with
  | regular mark _ =>
    if c == '\\' then .ok ([f], 1)
    else if c == mark then .ok ([], 0)
    else if isLineEnd c then .error (f.unterminated n)
    else .ok ([f], 0)
  | verbatim _ =>
    if c == '"' then
      if r.head? == some '"' then .ok ([f], 1) else .ok ([], 0)
    else .ok ([f], 0)
  | raw quotes _ =>
    if c == '"' then
      if quotes ≤ quoteRun r + 1 then .ok ([], quoteRun r) else .ok ([f], quoteRun r)
    else .ok ([f], 0)
  | interpolated isVerbatim dollars _ =>
    if c == '\\' && !isVerbatim then .ok ([f], 1)
    else if c == '"' then
      if isVerbatim && r.head? == some '"' then .ok ([f], 1) else .ok ([], 0)
    else if c == '{' then
      if r.head? == some '{' && dollars == 1 then .ok ([f], 1) else .ok ([.hole 0, f], 0)
    else if isLineEnd c && !isVerbatim then .error (f.unterminated n)
    else .ok ([f], 0)
  | hole braces =>
    if c == '{' then .ok ([.hole (braces + 1)], 0)
    else if c == '}' then
      match braces with
      | 0 => .ok ([], 0)
      | braces + 1 => .ok ([.hole braces], 0)
    else
      match opening? n (c :: r) with
      | some (g, extra) => .ok ([g, f], extra)
      | none => .ok ([f], 0)

/-- The offset at which all the open frames are closed. `n` is the offset of the text. -/
def closing (frames : List Frame) (n : Nat) (s : List Char) : Except LexFault Nat :=
  match frames, s with
  | [], _ => .ok n
  | f :: _, [] => .error (f.unterminated n)
  | f :: fs, c :: r =>
    match f.step n c r with
    | .error e => .error e
    | .ok (gs, extra) => closing (gs ++ fs) (n + 1 + extra) (r.drop extra)
termination_by s.length
decreasing_by simp only [List.length_drop, List.length_cons]; omega

/-! ## Literals -/

/-- The length of the literal that `s` starts with, if it starts with one. -/
def literalLength? (s : List Char) : Except LexFault (Option Nat) :=
  match opening? 0 s with
  | none => .ok none
  | some (f, extra) => (closing [f] (1 + extra) (s.drop (1 + extra))).map some

end NullableMarker.Literal
