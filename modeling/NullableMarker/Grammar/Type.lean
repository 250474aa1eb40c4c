import NullableMarker.Grammar.Group

/-!
# Types

A type is a predefined type, a name or a tuple, followed by any number of `?`, array and pointer
marks, or `ref` before a type. Type arguments are tried: where the tokens after `<` are no argument
list, the `<` is left alone.
-/

namespace NullableMarker.Grammar

/-- The keywords that are types. -/
def predefinedTypes : List String :=
  ["bool", "byte", "sbyte", "char", "decimal", "double", "float", "int", "uint", "long", "ulong",
    "short", "ushort", "object", "string", "void"]

/-- The tokens ahead start an array mark: a bracket before a comma or the closing bracket. -/
def startsArrayMark (ts : List Token) : Bool :=
  nextIs .lbracket ts && nextIn [.comma, .rbracket] ts.tail

/-- Reads the `?`, array and pointer marks after a type. -/
def typeMarks {ts : List Token} (p : Parsed ts) : Except Failure (Parsed ts) :=
  match expect .question p.rest with
  | .ok mark => typeMarks (((Begun.ofParsed p).add mark).finish .nullableType)
  | .error _ =>
    if startsArrayMark p.rest then
      match balanced p.rest with
      | .error e => .error e
      | .ok g => typeMarks (((Begun.ofParsed p).extend (.ofRun g.toRun)).finish .arrayType)
    else
      match expectThat (fun t => t.kind == .operator && t.value == "*") p.rest with
      | .ok mark => typeMarks (((Begun.ofParsed p).add mark).finish .pointerType)
      | .error _ => .ok p
termination_by p.rest.length
decreasing_by
  · exact mark.progress
  · exact g.progress
  · exact mark.progress

/-- Takes an identifier and `::`, which qualify a name, if they follow. -/
def aliasQualifier (ts : List Token) : Reading ts :=
  match ts with
  | t :: u :: rest =>
    if t.kind == .identifier && u.kind == .doubleColon then
      (Begun.add (.token t (u :: rest)) (.token u rest)).toReading
    else .start _
  | _ => .start _

/-- Takes a dot that an identifier follows. -/
def segmentDot (ts : List Token) : Except Failure (Parsed ts) :=
  if nextIs .identifier ts.tail then expect .dot ts else .error .mismatch

mutual

/-- Reads a type. -/
def type (ts : List Token) : Except Failure (Parsed ts) :=
  match ts with
  | [] => .error .mismatch
  | t :: rest =>
    if t.isKeyword ["ref"] then
      let r := (Begun.token t rest).optional (·.isKeyword ["readonly"])
      match type r.rest with
      | .error e => .error e
      | .ok p => .ok ((r.add p).finish .refType)
    else if t.kind == .lparen then
      match tupleElements (Begun.token t rest) 0 with
      | .error e => .error e
      | .ok p => typeMarks p
    else if t.isKeyword predefinedTypes then
      typeMarks ((Begun.token t rest).finish .predefinedType)
    else if t.kind == .identifier then
      match nameSegments (aliasQualifier (t :: rest)) none with
      | .error e => .error e
      | .ok p => typeMarks p
    else .error .mismatch
termination_by 4 * ts.length + 2
decreasing_by
  · exact rank_lt (by decide) r.progress
  · exact rank_lt (by decide) (Begun.token t rest).progress
  · have := (aliasQualifier (t :: rest)).length_le
    omega

/-- Reads the elements of a tuple after `count` of them, and the closing parenthesis. A tuple has at
least two elements. -/
def tupleElements {ts : List Token} (r : Begun ts) (count : Nat) : Except Failure (Parsed ts) :=
  match type r.rest with
  | .error e => .error e
  | .ok p =>
    let element := (Begun.ofParsed p).optional (·.kind == .identifier)
    let more := r.add (element.finish .tupleElement)
    match expect .comma more.rest with
    | .ok comma => tupleElements (more.add comma) (count + 1)
    | .error _ =>
      match expect .rparen more.rest with
      | .error e => .error e
      | .ok closing =>
        if count = 0 then .error .mismatch else .ok ((more.add closing).finish .tupleType)
termination_by 4 * r.rest.length + 3
decreasing_by
  · omega
  · exact rank_lt (by decide) (Nat.lt_trans comma.progress element.progress)

/-- Reads the dotted segments of a name, at most `limit` of them if there is a limit. -/
def nameSegments {ts : List Token} (r : Reading ts) (limit : Option Nat) :
    Except Failure (Parsed ts) :=
  match expect .identifier r.rest with
  | .error e => .error e
  | .ok p =>
    match typeArgumentList p.rest with
    | .error (.fatal cause token) => .error (.fatal cause token)
    | .error .mismatch => nameTail (r.add p) limit
    | .ok args => nameTail ((r.add p).add args) limit
termination_by 4 * r.rest.length + 1
decreasing_by
  · exact rank_lt (by decide) p.progress
  · exact rank_lt (by decide) p.progress
  · exact rank_lt (by decide) (Nat.lt_trans args.progress p.progress)

/-- Reads the segments of a name after a first one. -/
def nameTail {ts : List Token} (named : Begun ts) (limit : Option Nat) :
    Except Failure (Parsed ts) :=
  if limit == some 1 then .ok (named.finish .name)
  else
    match segmentDot named.rest with
    | .error _ => .ok (named.finish .name)
    | .ok dot => nameSegments (named.add dot).toReading (limit.map (· - 1))
termination_by 4 * named.rest.length + 1
decreasing_by exact rank_lt (by decide) dot.progress

/-- Reads type arguments between angle brackets. -/
def typeArgumentList (ts : List Token) : Except Failure (Parsed ts) :=
  match expect .lessThan ts with
  | .error e => .error e
  | .ok opening => typeArguments (.ofParsed opening)
termination_by 4 * ts.length + 1
decreasing_by exact rank_lt (by decide) opening.progress

/-- Reads type arguments and the closing angle bracket. -/
def typeArguments {ts : List Token} (r : Begun ts) : Except Failure (Parsed ts) :=
  match type r.rest with
  | .error e => .error e
  | .ok p =>
    match expect .comma p.rest with
    | .ok comma => typeArguments ((r.add p).add comma)
    | .error _ =>
      match expect .greaterThan p.rest with
      | .error e => .error e
      | .ok closing => .ok (((r.add p).add closing).finish .typeArgumentList)
termination_by 4 * r.rest.length + 3
decreasing_by
  · omega
  · exact rank_lt (by decide) (Nat.lt_trans comma.progress p.progress)

end

/-- Reads a name with all its segments. -/
def name (ts : List Token) : Except Failure (Parsed ts) := nameSegments (aliasQualifier ts) none

/-- Reads the first `count` segments of a name. -/
def nameUpTo (count : Nat) (ts : List Token) : Except Failure (Parsed ts) :=
  nameSegments (aliasQualifier ts) (some count)

end NullableMarker.Grammar
