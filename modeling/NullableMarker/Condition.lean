import NullableMarker.Token.Fault
import NullableMarker.Text.White

/-!
# Conditions of conditional directives

A condition is built from symbols, `true` and `false` with `!`, `==`, `!=`, `&&` and `||`, in falling
order of precedence; the operators of one level join from the left. A symbol is true when it is
defined.
-/

namespace NullableMarker

/-- A condition over symbols. -/
inductive Condition where
  | constant (value : Bool)
  | symbol (name : String)
  | not (operand : Condition)
  | same (left right : Condition)
  | differ (left right : Condition)
  | and (left right : Condition)
  | or (left right : Condition)
  deriving Repr, DecidableEq

namespace Condition

open Text

/-- The truth of a condition when exactly the symbols of `defined` are. -/
def eval (defined : List String) : Condition → Bool
  | constant value => value
  | symbol name => defined.contains name
  | not operand => !operand.eval defined
  | same left right => left.eval defined == right.eval defined
  | differ left right => left.eval defined != right.eval defined
  | and left right => left.eval defined && right.eval defined
  | or left right => left.eval defined || right.eval defined

/-! ## Marks -/

/-- A mark or word of a condition. -/
inductive Mark where
  | left | right | same | differ | and | or | not
  | word (name : String)
  deriving Repr, DecidableEq

/-- A letter, digit or underscore of ASCII. -/
def isWordPart (c : Char) : Bool := c.isAlphanum || c == '_'

/-- Cuts a text into marks and words. White space may stand before each. -/
def marks? (s : List Char) : Option (List Mark) :=
  match s with
  | [] => some []
  | '(' :: r => (marks? r).map (.left :: ·)
  | ')' :: r => (marks? r).map (.right :: ·)
  | '=' :: '=' :: r => (marks? r).map (.same :: ·)
  | '!' :: '=' :: r => (marks? r).map (.differ :: ·)
  | '&' :: '&' :: r => (marks? r).map (.and :: ·)
  | '|' :: '|' :: r => (marks? r).map (.or :: ·)
  | '!' :: r => (marks? r).map (.not :: ·)
  | c :: r =>
    if isWhite c then marks? r
    else if isWordPart c && !c.isDigit then
      let more := r.takeWhile isWordPart
      (marks? (r.drop more.length)).map (.word (String.ofList (c :: more)) :: ·)
    else none
termination_by s.length
decreasing_by all_goals (simp; try omega)

/-! ## Reading -/

/-- Why marks are no condition. -/
inductive Fault where
  | invalid
  | unbalanced
  deriving Repr, DecidableEq

/-- A condition read from the start of `ts`, with the marks after it. -/
structure Read (ts : List Mark) where
  condition : Condition
  rest : List Mark
  shorter : rest.length < ts.length

/-- The operators that join operands at a level of precedence. -/
def joint? (level : Nat) (m : Mark) : Option (Condition → Condition → Condition) :=
  match level, m with
  | 0, .same => some .same
  | 0, .differ => some .differ
  | 1, .and => some .and
  | 2, .or => some .or
  | _, _ => none

mutual

/-- Reads operands joined at the levels below `level`. -/
def chain (level : Nat) (ts : List Mark) : Except Fault (Read ts) :=
  match level with
  | 0 => operand ts
  | level + 1 =>
    match chain level ts with
    | .error e => .error e
    | .ok first => joined level first
termination_by 5 * ts.length + level + 1
decreasing_by
  · omega
  · omega
  · have := first.shorter
    omega

/-- Reads the further operands that join to what was read. -/
def joined {ts : List Mark} (level : Nat) (first : Read ts) : Except Fault (Read ts) :=
  match h : first.rest with
  | [] => .ok first
  | m :: rest =>
    match joint? level m with
    | none => .ok first
    | some join =>
      match chain level rest with
      | .error e => .error e
      | .ok next =>
        joined level ⟨join first.condition next.condition, next.rest, by
          have := first.shorter
          have := next.shorter
          simp_all; omega⟩
termination_by 5 * first.rest.length + level + 1
decreasing_by
  · rw [h, List.length_cons]
    omega
  · have := next.shorter
    rw [h, List.length_cons]
    omega

/-- Reads a negation, a group, or a word. -/
def operand (ts : List Mark) : Except Fault (Read ts) :=
  match ts with
  | .not :: rest =>
    match operand rest with
    | .error e => .error e
    | .ok r => .ok ⟨.not r.condition, r.rest, by have := r.shorter; simp; omega⟩
  | .left :: rest =>
    match chain 3 rest with
    | .error e => .error e
    | .ok r =>
      match h : r.rest with
      | .right :: after => .ok ⟨r.condition, after, by have := r.shorter; simp_all; omega⟩
      | _ => .error .unbalanced
  | .word "true" :: rest => .ok ⟨.constant true, rest, by simp⟩
  | .word "false" :: rest => .ok ⟨.constant false, rest, by simp⟩
  | .word name :: rest => .ok ⟨.symbol name, rest, by simp⟩
  | _ => .error .invalid
termination_by 5 * ts.length
decreasing_by
  · rw [List.length_cons]
    omega
  · rw [List.length_cons]
    omega

end

/-- Reads a whole condition. -/
def ofText (s : List Char) : Except LexCause Condition :=
  let text := trimRight s
  match marks? text with
  | none => .error (.invalidCondition (String.ofList text))
  | some [] => .error .missingCondition
  | some marks =>
    match chain 3 marks with
    | .error .unbalanced => .error (.unbalancedCondition (String.ofList text))
    | .error .invalid => .error (.invalidCondition (String.ofList text))
    | .ok r =>
      if r.rest.isEmpty then .ok r.condition
      else .error (.invalidCondition (String.ofList text))

end Condition

end NullableMarker
