import NullableMarker.Grammar.Fault
import NullableMarker.Tree

/-!
# Readings

What a reader has done with a list of tokens: what it took, and what is left. Each of these types
carries the proof that the tokens taken, followed by those left, are the tokens given, so that a
reader built from their operations can neither lose, repeat nor reorder a token.

* `Run` — tokens taken as they are
* `Reading` — finished children of a node that is being read
* `Begun` — a reading that has taken at least one token
* `Parsed` — one finished tree with at least one token
-/

namespace NullableMarker.Grammar

/-! ## Runs of tokens -/

/-- Tokens taken from the start of `ts`. -/
structure Run (ts : List Token) where
  taken : List Token
  rest : List Token
  complete : taken ++ rest = ts

namespace Run

/-- Nothing taken. -/
def none (ts : List Token) : Run ts := ⟨[], ts, rfl⟩

/-- One more token before a run. -/
def cons (t : Token) {ts : List Token} (r : Run ts) : Run (t :: ts) :=
  ⟨t :: r.taken, r.rest, by simp [r.complete]⟩

/-- A run, and a run of what it left. -/
def append {ts : List Token} (r : Run ts) (s : Run r.rest) : Run ts :=
  ⟨r.taken ++ s.taken, s.rest, by simp [r.complete, s.complete]⟩

theorem length_le {ts : List Token} (r : Run ts) : r.rest.length ≤ ts.length := by
  have := congrArg List.length r.complete
  simp only [List.length_append] at this
  omega

/-- The longest run of tokens of a class, which may look at the tokens ahead. -/
def takeWhile (p : Token → List Token → Bool) : (ts : List Token) → Run ts
  | [] => none []
  | t :: ts => if p t ts then cons t (takeWhile p ts) else none (t :: ts)

/-- The next token if it passes a test, else nothing. -/
def optional (p : Token → Bool) : (ts : List Token) → Run ts
  | [] => none []
  | t :: ts => if p t then cons t (none ts) else none (t :: ts)

end Run

/-- A run of at least one token. -/
structure Group (ts : List Token) extends Run ts where
  progress : rest.length < ts.length

namespace Group

/-- A single token. -/
def single (t : Token) (ts : List Token) : Group (t :: ts) :=
  ⟨⟨[t], ts, rfl⟩, by simp⟩

/-- One more token before a run. -/
def cons (t : Token) {ts : List Token} (r : Run ts) : Group (t :: ts) :=
  ⟨r.cons t, by have := r.length_le; simp [Run.cons]; omega⟩

/-- A group, and a run of what it left. -/
def append {ts : List Token} (g : Group ts) (s : Run g.rest) : Group ts :=
  ⟨g.toRun.append s, by
    have := g.progress
    have := s.length_le
    simp [Run.append]; omega⟩

end Group

/-! ## Trees -/

/-- A tree read from the start of `ts`. -/
structure Parsed (ts : List Token) where
  tree : Tree
  rest : List Token
  complete : tree.tokens ++ rest = ts
  progress : rest.length < ts.length

namespace Parsed

/-- A token as a tree. -/
def token (t : Token) (ts : List Token) : Parsed (t :: ts) :=
  ⟨.token t, ts, by simp, by simp⟩

/-- A node over bare tokens. -/
def ofGroup (kind : NodeKind) {ts : List Token} (g : Group ts) : Parsed ts :=
  ⟨.node kind (g.taken.map .token), g.rest, by simp [g.complete], g.progress⟩

end Parsed

/-- The children read from the start of `ts` for a node that is not finished. -/
structure Reading (ts : List Token) where
  children : List Tree
  rest : List Token
  complete : Tree.tokensAll children ++ rest = ts

/-- A reading that has taken at least one token. -/
structure Begun (ts : List Token) extends Reading ts where
  progress : rest.length < ts.length

namespace Reading

/-- Nothing read. -/
def start (ts : List Token) : Reading ts := ⟨[], ts, rfl⟩

theorem length_le {ts : List Token} (r : Reading ts) : r.rest.length ≤ ts.length := by
  have := congrArg List.length r.complete
  simp only [List.length_append] at this
  omega

/-- One more child. -/
def add {ts : List Token} (r : Reading ts) (p : Parsed r.rest) : Begun ts :=
  ⟨⟨r.children ++ [p.tree], p.rest, by simp [p.complete, r.complete]⟩, by
    have := p.progress
    have := r.length_le
    simp; omega⟩

/-- One more child, a node over bare tokens; it may hold none. -/
def addRun {ts : List Token} (r : Reading ts) (kind : NodeKind) (s : Run r.rest) : Reading ts :=
  ⟨r.children ++ [.node kind (s.taken.map .token)], s.rest, by simp [s.complete, r.complete]⟩

/-- Bare tokens read. -/
def ofRun {ts : List Token} (s : Run ts) : Reading ts :=
  ⟨s.taken.map .token, s.rest, by simp [s.complete]⟩

/-- The children of a reading of what is left. -/
def extend {ts : List Token} (r : Reading ts) (s : Reading r.rest) : Reading ts :=
  ⟨r.children ++ s.children, s.rest, by simp [s.complete, r.complete]⟩

end Reading

namespace Begun

/-- One token read. -/
def token (t : Token) (ts : List Token) : Begun (t :: ts) :=
  ⟨⟨[.token t], ts, by simp⟩, by simp⟩

/-- One tree read. -/
def ofParsed {ts : List Token} (p : Parsed ts) : Begun ts :=
  ⟨⟨[p.tree], p.rest, by simp [p.complete]⟩, p.progress⟩

/-- Bare tokens read. -/
def ofGroup {ts : List Token} (g : Group ts) : Begun ts :=
  ⟨⟨g.taken.map .token, g.rest, by simp [g.complete]⟩, g.progress⟩

/-- One more child. -/
def add {ts : List Token} (r : Begun ts) (p : Parsed r.rest) : Begun ts := r.toReading.add p

/-- The children of a reading of what is left. -/
def extend {ts : List Token} (r : Begun ts) (s : Reading r.rest) : Begun ts :=
  ⟨r.toReading.extend s, by
    have := r.progress
    have := s.length_le
    simp [Reading.extend]; omega⟩

/-- One more child, a node over bare tokens; it may hold none. -/
def addRun {ts : List Token} (r : Begun ts) (kind : NodeKind) (s : Run r.rest) : Begun ts :=
  ⟨r.toReading.addRun kind s, by
    have := r.progress
    have := s.length_le
    simp [Reading.addRun]; omega⟩

/-- The node over what was read. -/
def finish {ts : List Token} (r : Begun ts) (kind : NodeKind) : Parsed ts :=
  ⟨.node kind r.children, r.rest, by simp [r.complete], r.progress⟩

@[simp] theorem rest_add {ts : List Token} (r : Begun ts) (p : Parsed r.rest) :
    (r.add p).rest = p.rest := rfl

@[simp] theorem rest_extend {ts : List Token} (r : Begun ts) (s : Reading r.rest) :
    (r.extend s).rest = s.rest := rfl

end Begun

/-- A reading of what another has left, as one reading from the start. -/
def Reading.extendBegun {ts : List Token} (r : Reading ts) (s : Begun r.rest) : Begun ts :=
  ⟨r.extend s.toReading, by
    have := s.progress
    have := r.length_le
    simp [Reading.extend]; omega⟩

@[simp] theorem Reading.rest_add {ts : List Token} (r : Reading ts) (p : Parsed r.rest) :
    (r.add p).rest = p.rest := rfl

/-! ## Looking ahead -/

/-- The next token is of a kind. -/
def nextIs (kind : TokenKind) (ts : List Token) : Bool := ts.head?.any (·.kind == kind)

/-- The next token is of one of some kinds. -/
def nextIn (kinds : List TokenKind) (ts : List Token) : Bool :=
  ts.head?.any (kinds.contains ·.kind)

/-- The next token is one of some keywords. -/
def nextKeyword (words : List String) (ts : List Token) : Bool := ts.head?.any (·.isKeyword words)

/-- The next token is one of some words. -/
def nextWord (words : List String) (ts : List Token) : Bool := ts.head?.any (·.isWord words)

/-! ## Single tokens -/

/-- Takes the next token if it passes a test. -/
def expectThat (p : Token → Bool) (ts : List Token) : Except Failure (Parsed ts) :=
  match ts with
  | [] => .error .mismatch
  | t :: rest => if p t then .ok (.token t rest) else .error .mismatch

/-- Takes a token of a kind. -/
def expect (kind : TokenKind) (ts : List Token) : Except Failure (Parsed ts) :=
  expectThat (·.kind == kind) ts

/-- Takes one of some words. -/
def expectWord (words : List String) (ts : List Token) : Except Failure (Parsed ts) :=
  expectThat (·.isWord words) ts

/-- Takes one of some keywords. -/
def expectKeyword (words : List String) (ts : List Token) : Except Failure (Parsed ts) :=
  expectThat (·.isKeyword words) ts

/-- Adds what a reader reads next. -/
def Begun.next {ts : List Token} (r : Begun ts)
    (reader : (us : List Token) → Except Failure (Parsed us)) : Except Failure (Begun ts) :=
  (reader r.rest).map r.add

/-- Adds what a reader reads next, if a test of the tokens ahead passes. -/
def Begun.nextIf {ts : List Token} (r : Begun ts) (test : List Token → Bool)
    (reader : (us : List Token) → Except Failure (Parsed us)) : Except Failure (Begun ts) :=
  if test r.rest then r.next reader else .ok r

/-- Takes the next token if it passes a test. -/
def Begun.optional {ts : List Token} (r : Begun ts) (p : Token → Bool) : Begun ts :=
  r.extend (.ofRun (.optional p r.rest))

/-! ## Readers that call one another

Such readers have ranks below some number `n`: a call reads fewer tokens, or is of a lower rank. -/

/-- A call that reads fewer tokens may be of any rank. -/
theorem rank_lt {n k l fewer tokens : Nat} (hk : k < n) (h : fewer < tokens) :
    n * fewer + k < n * tokens + l :=
  calc n * fewer + k < n * fewer + n := Nat.add_lt_add_left hk _
    _ = n * (fewer + 1) := (Nat.mul_succ n fewer).symm
    _ ≤ n * tokens := Nat.mul_le_mul_left n h
    _ ≤ n * tokens + l := Nat.le_add_right _ l

end NullableMarker.Grammar
