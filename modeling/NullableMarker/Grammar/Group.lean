import NullableMarker.Grammar.Reading

/-!
# Groups of tokens that are not read further

Bodies, initialisers and default values are kept as they stand: whole bracketed groups, the tokens
up to a stop, or one statement-like construct.
-/

namespace NullableMarker.Grammar

/-! ## Brackets -/

/-- The closer of an opening bracket. -/
def closer? : TokenKind → Option TokenKind
  | .lparen => some .rparen
  | .lbracket => some .rbracket
  | .lbrace => some .rbrace
  | _ => none

/-- A closing bracket. -/
def isCloser : TokenKind → Bool
  | .rparen | .rbracket | .rbrace => true
  | _ => false

/-- Takes tokens until all the expected closers have come, innermost first. -/
def closeAll (opener : Token) : (expected : List TokenKind) → (ts : List Token) →
    Except Failure (Run ts)
  | [], ts => .ok (.none ts)
  | _ :: _, [] => .error (.fatal .unclosedGroup opener)
  | e :: es, t :: ts =>
    match closer? t.kind with
    | some c => (closeAll opener (c :: e :: es) ts).map (.cons t)
    | none =>
      if isCloser t.kind then
        if t.kind == e then (closeAll opener es ts).map (.cons t)
        else .error (.fatal (.mismatchedCloser t.value) t)
      else (closeAll opener (e :: es) ts).map (.cons t)

/-- Takes an opening bracket through its closer. -/
def balanced (ts : List Token) : Except Failure (Group ts) :=
  match ts with
  | [] => .error .mismatch
  | t :: rest =>
    match closer? t.kind with
    | none => .error .mismatch
    | some c => (closeAll t [c] rest).map (.cons t)

/-! ## Up to a stop -/

/-- Takes tokens, bracketed groups as a whole, up to the first that passes a test of it and what
follows it. -/
def takeUntil (stop : Token → List Token → Bool) (ts : List Token) : Except Failure (Run ts) :=
  match ts with
  | [] => .error (.fatal .endOfFile none)
  | t :: rest =>
    if stop t rest then .ok (.none (t :: rest))
    else if (closer? t.kind).isSome then
      match balanced (t :: rest) with
      | .error e => .error e
      | .ok g => (takeUntil stop g.rest).map g.toRun.append
    else if isCloser t.kind then .error (.fatal (.unexpected t.value) t)
    else (takeUntil stop rest).map (.cons t)
termination_by ts.length
decreasing_by
  · exact g.progress
  · simp

/-- Takes tokens up to and with the next one of a kind. -/
def through (kind : TokenKind) (first : Token) (ts : List Token) :
    Except Failure (Group (first :: ts)) := do
  let r ← takeUntil (fun t _ => t.kind == kind) ts
  match h : r.rest with
  | [] => .error .mismatch
  | t :: rest => return (Group.cons first r).append ⟨[t], rest, by
      simp [Group.cons, Run.cons, h]⟩

/-! ## Statements -/

/-- A part of a statement, and whether the statement ends with it. -/
structure StatementPart (ts : List Token) extends Group ts where
  ends : Bool

/-- The words that carry a statement on after a braced block. -/
def continuations : List String := ["else", "catch", "finally", "while"]

/-- Takes the next part of a statement. -/
def statementPart (ts : List Token) : Except Failure (StatementPart ts) :=
  match ts with
  | [] => .error (.fatal .endOfFile none)
  | t :: rest =>
    if t.kind == .semicolon then .ok ⟨.single t rest, true⟩
    else if t.kind == .rbrace then .error (.fatal .closingBrace t)
    else if isCloser t.kind then .error (.fatal (.unexpected t.value) t)
    else if t.kind == .lbrace then
      (balanced (t :: rest)).map fun g =>
        let g := g.append (.optional (·.kind == .semicolon) g.rest)
        ⟨g, !nextWord continuations g.rest⟩
    else if (closer? t.kind).isSome then (balanced (t :: rest)).map (⟨·, false⟩)
    else .ok ⟨.single t rest, false⟩

/-- Takes one construct that the grammar does not know. -/
def statement (ts : List Token) : Except Failure (Group ts) :=
  match statementPart ts with
  | .error e => .error e
  | .ok part =>
    if part.ends || part.rest.isEmpty || nextIs .rbrace part.rest then .ok part.toGroup
    else (statement part.rest).map fun more => part.toGroup.append more.toRun
termination_by ts.length
decreasing_by exact part.progress

/-- One construct that the grammar does not know, as a node. -/
def skipped (ts : List Token) : Except Failure (Parsed ts) :=
  (statement ts).map (.ofGroup .skipped)

/-- The outcome of an attempt. A construct that does not have the shape is skipped instead. -/
def orSkipped {ts : List Token} (attempt : Except Failure (Parsed ts)) :
    Except Failure (Parsed ts) :=
  match attempt with
  | .error .mismatch => skipped ts
  | result => result

theorem ok_of_orSkipped {ts : List Token} {attempt : Except Failure (Parsed ts)} {p : Parsed ts}
    (h : orSkipped attempt = .ok p) : attempt = .ok p ∨ skipped ts = .ok p := by
  unfold orSkipped at h
  split at h
  · exact .inr h
  · exact .inl h

end NullableMarker.Grammar
