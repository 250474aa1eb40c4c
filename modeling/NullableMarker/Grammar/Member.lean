import NullableMarker.Grammar.Type

/-!
# Members

A member starts with attribute lists and modifiers; the tokens after them decide what it is. What
fits no shape is kept as one skipped construct. A shape is the kind of a member with what follows its
modifiers.
-/

namespace NullableMarker.Grammar

/-! ## Attributes and modifiers -/

/-- The keywords that are modifiers wherever a member starts. -/
def modifierKeywords : List String :=
  ["public", "private", "protected", "internal", "static", "readonly", "const", "sealed",
    "override", "virtual", "abstract", "extern", "unsafe", "volatile", "new", "fixed"]

/-- The words that are modifiers only when another word follows. -/
def contextualModifiers : List String := ["partial", "async", "required", "file"]

/-- The words that may stand before the type of a parameter. -/
def parameterModifiers : List String :=
  ["ref", "out", "in", "params", "this", "scoped", "readonly"]

/-- The words that may stand before the keyword of an accessor. -/
def accessorModifiers : List String := ["private", "protected", "internal", "readonly"]

/-- The words that name an accessor. -/
def accessorKeywords : List String := ["get", "set", "init", "add", "remove"]

/-- A token is a modifier of a member before the tokens that follow it. -/
def isModifier (t : Token) (rest : List Token) : Bool :=
  t.isKeyword modifierKeywords
    || (t.isKeyword ["ref"] && nextWord ["struct", "partial", "readonly"] rest)
    || (t.kind == .identifier && contextualModifiers.contains t.value
      && nextIn [.identifier, .keyword] rest)

/-- Reads attribute lists after what was read. -/
def attributeListsAfter {ts : List Token} (r : Reading ts) : Except Failure (Reading ts) :=
  if nextIs .lbracket r.rest then
    match balanced r.rest with
    | .error e => .error e
    | .ok g => attributeListsAfter (r.add (.ofGroup .attributeList g)).toReading
  else .ok r
termination_by r.rest.length
decreasing_by exact g.progress

/-- Reads attribute lists, and modifiers of a class as one node, which may be empty. -/
def preamble (p : Token → List Token → Bool) (ts : List Token) : Except Failure (Reading ts) :=
  (attributeListsAfter (.start ts)).map fun r => r.addRun .modifiers (.takeWhile p r.rest)

/-! ## Parts of members -/

/-- Reads what is left of a type parameter list, through the closing angle bracket. -/
def typeParameters (ts : List Token) : Except Failure (Group ts) :=
  match ts with
  | [] => .error .mismatch
  | t :: rest =>
    if t.kind == .greaterThan then .ok (.single t rest)
    else if t.kind == .lbracket then
      match balanced (t :: rest) with
      | .error e => .error e
      | .ok g => (typeParameters g.rest).map fun more => g.append more.toRun
    else if t.kind == .identifier || t.kind == .comma || t.isKeyword ["in", "out"] then
      (typeParameters rest).map fun more => .cons t more.toRun
    else .error .mismatch
termination_by ts.length
decreasing_by
  · exact g.progress
  · simp

/-- Reads a type parameter list. -/
def typeParameterList (ts : List Token) : Except Failure (Parsed ts) :=
  match ts with
  | [] => .error .mismatch
  | t :: rest => (typeParameters rest).map fun more =>
      .ofGroup .typeParameterList (.cons t more.toRun)

/-- The end of a constraint clause. -/
def endsConstraint (t : Token) (_ : List Token) : Bool :=
  t.kind == .lbrace || t.kind == .semicolon || t.kind == .arrow || t.isWord ["where"]

/-- Reads a constraint clause. -/
def constraintClause (ts : List Token) : Except Failure (Parsed ts) :=
  match ts with
  | [] => .error .mismatch
  | t :: rest => (takeUntil endsConstraint rest).map fun r =>
      .ofGroup .constraintClause (.cons t r)

/-- Reads constraint clauses after what was read. -/
def constraintClauses {ts : List Token} (r : Begun ts) : Except Failure (Begun ts) :=
  if nextWord ["where"] r.rest then
    match constraintClause r.rest with
    | .error e => .error e
    | .ok p => constraintClauses (r.add p)
  else .ok r
termination_by r.rest.length
decreasing_by exact p.progress

/-- Reads a block, an expression body or a bare semicolon. -/
def body (ts : List Token) : Except Failure (Parsed ts) :=
  match ts with
  | [] => .error .mismatch
  | t :: rest =>
    if t.kind == .lbrace then (balanced (t :: rest)).map (.ofGroup .block)
    else if t.kind == .arrow then (through .semicolon t rest).map (.ofGroup .expressionBody)
    else expect .semicolon (t :: rest)

/-- Reads an initialiser: `=` and the tokens up to a stop. -/
def equalsValue (stop : Token → List Token → Bool) (ts : List Token) :
    Except Failure (Parsed ts) :=
  match ts with
  | [] => .error .mismatch
  | t :: rest => (takeUntil stop rest).map fun r => .ofGroup .equalsValue (.cons t r)

/-- Reads a parameter of a list that ends with `closing`. -/
def parameter (closing : TokenKind) (ts : List Token) : Except Failure (Parsed ts) := do
  let r ← preamble (fun t _ => t.isWord parameterModifiers) ts
  if nextWord ["__arglist"] r.rest then
    return (r.add (← expectWord ["__arglist"] r.rest)).finish .parameter
  else
    let r := r.add (← type r.rest)
    let r ← r.next (expect .identifier)
    let r ← r.nextIf (nextIs .equals)
      (equalsValue fun t _ => t.kind == .comma || t.kind == closing)
    return r.finish .parameter

/-- Reads the parameters of a list and its end. -/
def parameters (closing : TokenKind) {ts : List Token} (r : Begun ts) :
    Except Failure (Parsed ts) :=
  match parameter closing r.rest with
  | .error e => .error e
  | .ok p =>
    match expect .comma p.rest with
    | .ok comma => parameters closing ((r.add p).add comma)
    | .error _ => (expect closing p.rest).map fun last =>
        ((r.add p).add last).finish .parameterList
termination_by r.rest.length
decreasing_by exact Nat.lt_trans comma.progress p.progress

/-- Reads a parameter list between the given brackets. -/
def parameterListIn (opening closing : TokenKind) (ts : List Token) :
    Except Failure (Parsed ts) := do
  let r := Begun.ofParsed (← expect opening ts)
  match expect closing r.rest with
  | .ok last => return (r.add last).finish .parameterList
  | .error _ => parameters closing r

/-- Reads a parameter list. -/
def parameterList (ts : List Token) : Except Failure (Parsed ts) :=
  parameterListIn .lparen .rparen ts

/-- Reads an accessor. -/
def accessor (ts : List Token) : Except Failure (Parsed ts) := do
  let r ← preamble (fun t _ => t.isWord accessorModifiers) ts
  let r := r.add (← expectWord accessorKeywords r.rest)
  let r ← r.next body
  return r.finish .accessor

/-- Reads the accessors of a list and the closing brace. -/
def accessors {ts : List Token} (r : Begun ts) : Except Failure (Parsed ts) :=
  match expect .rbrace r.rest with
  | .ok last => .ok ((r.add last).finish .accessorList)
  | .error _ =>
    match accessor r.rest with
    | .error e => .error e
    | .ok p => accessors (r.add p)
termination_by r.rest.length
decreasing_by exact p.progress

/-- Reads an accessor list. -/
def accessorList (ts : List Token) : Except Failure (Parsed ts) :=
  match expect .lbrace ts with
  | .error e => .error e
  | .ok opening => accessors (.ofParsed opening)

/-- A comma starts a new declarator when a name and `=`, `,` or `;` follow it. -/
def startsDeclarator (t : Token) (rest : List Token) : Bool :=
  t.kind == .comma && nextIs .identifier rest && nextIn [.equals, .comma, .semicolon] rest.tail

/-- Reads a declarator of a field. -/
def variableDeclarator (ts : List Token) : Except Failure (Parsed ts) := do
  let r := Begun.ofParsed (← expect .identifier ts)
  let r ← if nextIs .lbracket r.rest then
      (balanced r.rest).map fun g => r.extend (.ofRun g.toRun)
    else pure r
  let r ← r.nextIf (nextIs .equals)
    (equalsValue fun t rest => t.kind == .semicolon || startsDeclarator t rest)
  return r.finish .variableDeclarator

/-- Reads the declarators of a field after what was read, and the semicolon. -/
def declarators {ts : List Token} (r : Begun ts) : Except Failure (Begun ts) :=
  match variableDeclarator r.rest with
  | .error e => .error e
  | .ok p =>
    match expect .comma p.rest with
    | .ok comma => declarators ((r.add p).add comma)
    | .error _ => (expect .semicolon p.rest).map ((r.add p).add ·)
termination_by r.rest.length
decreasing_by exact Nat.lt_trans comma.progress p.progress

/-- Reads the base types after what was read. A base may have constructor arguments. -/
def baseTypes {ts : List Token} (r : Begun ts) : Except Failure (Parsed ts) :=
  match type r.rest with
  | .error e => .error e
  | .ok p =>
    let named := r.add p
    if nextIs .lparen named.rest then
      match balanced named.rest with
      | .error e => .error e
      | .ok g =>
        let built := named.add (.ofGroup .skipped g)
        match expect .comma built.rest with
        | .ok comma => baseTypes (built.add comma)
        | .error _ => .ok (built.finish .baseList)
    else
      match expect .comma named.rest with
      | .ok comma => baseTypes (named.add comma)
      | .error _ => .ok (named.finish .baseList)
termination_by r.rest.length
decreasing_by
  · exact Nat.lt_trans comma.progress (Nat.lt_trans g.progress p.progress)
  · exact Nat.lt_trans comma.progress p.progress

/-- Reads a base list. -/
def baseList (ts : List Token) : Except Failure (Parsed ts) :=
  match expect .colon ts with
  | .error e => .error e
  | .ok colon => baseTypes (.ofParsed colon)

/-! ## Shapes without members of their own -/

/-- What follows the modifiers of a member, and the kind of the member. -/
structure Shape (ts : List Token) where
  kind : NodeKind
  read : Begun ts

/-- Reads an enumeration. -/
def enumShape (ts : List Token) : Except Failure (Shape ts) := do
  let r := Begun.ofParsed (← expectKeyword ["enum"] ts)
  let r ← r.next (expect .identifier)
  let r ← r.nextIf (nextIs .colon) baseList
  if nextIs .lbrace r.rest then
    let r := r.add (.ofGroup .block (← balanced r.rest))
    return ⟨.enumType, r.optional (·.kind == .semicolon)⟩
  else throw .mismatch

/-- Reads a delegate. -/
def delegateShape (ts : List Token) : Except Failure (Shape ts) := do
  let r := Begun.ofParsed (← expectKeyword ["delegate"] ts)
  let r ← r.next type
  let r ← r.next (expect .identifier)
  let r ← r.nextIf (nextIs .lessThan) typeParameterList
  let r ← r.next parameterList
  let r ← constraintClauses r
  let r ← r.next (expect .semicolon)
  return ⟨.delegateType, r⟩

/-- The number of segments of a name node: its identifiers, less an alias. -/
def segmentCount (name : Tree) : Nat :=
  let tokens := name.childTokens
  let identifiers := (tokens.filter (·.kind == .identifier)).length
  if tokens.any (·.kind == .doubleColon) then identifiers - 1 else identifiers

/-- Reads the interface before an explicitly implemented member, with the dot after it; `none` when
a plain name follows. -/
def explicitInterface? (ts : List Token) : Except Failure (Option (Parsed ts)) := do
  let whole ← name ts
  let count := segmentCount whole.tree
  let count := if nextIs .dot whole.rest && nextKeyword ["this"] whole.rest.tail then count
    else count - 1
  if count = 0 then return none
  else
    let r := Begun.ofParsed (← nameUpTo count ts)
    let r ← r.next (expect .dot)
    return some (r.finish .explicitInterface)

/-- Reads an event with accessors, or a field-like one. -/
def eventShape (ts : List Token) : Except Failure (Shape ts) := do
  let r := Begun.ofParsed (← expectKeyword ["event"] ts)
  let r ← r.next type
  match ← explicitInterface? r.rest with
  | some explicit =>
    let r ← (r.add explicit).next (expect .identifier)
    let r ← r.next accessorList
    return ⟨.event, r⟩
  | none =>
    let named ← r.next (expect .identifier)
    if nextIs .lbrace named.rest then
      let r ← named.next accessorList
      return ⟨.event, r⟩
    else return ⟨.eventField, ← declarators r⟩

/-- Reads a destructor. -/
def destructorShape (ts : List Token) : Except Failure (Shape ts) := do
  let r := Begun.ofParsed (← expectThat (·.value == "~") ts)
  let r ← r.next (expect .identifier)
  let r ← r.next parameterList
  let r ← r.next body
  return ⟨.destructor, r⟩

/-- Reads a conversion operator. -/
def conversionShape (ts : List Token) : Except Failure (Shape ts) := do
  let r := Begun.ofParsed (← expectKeyword ["implicit", "explicit"] ts)
  let r ← r.next (expectWord ["operator"])
  let r := r.optional (·.isKeyword ["checked"])
  let r ← r.next type
  let r ← r.next parameterList
  let r ← r.next body
  return ⟨.conversionOperator, r⟩

/-- Reads the call of another constructor before the body of one. -/
def constructorInitializer (ts : List Token) : Except Failure (Parsed ts) := do
  let r := Begun.ofParsed (← expect .colon ts)
  let r ← r.next (expectWord ["base", "this"])
  if nextIs .lparen r.rest then
    let g ← balanced r.rest
    return (r.extend (.ofRun g.toRun)).finish .skipped
  else throw .mismatch

/-- Reads a constructor. -/
def constructorShape (ts : List Token) : Except Failure (Shape ts) := do
  let r := Begun.ofParsed (← expect .identifier ts)
  let r ← r.next parameterList
  let r ← r.nextIf (nextIs .colon) constructorInitializer
  let r ← r.next body
  return ⟨.constructor, r⟩

/-- Reads an operator after its type. -/
def operatorShape {ts : List Token} (r : Begun ts) : Except Failure (Shape ts) := do
  let r ← r.next (expectKeyword ["operator"])
  let symbol ← takeUntil (fun t _ => t.kind == .lparen) r.rest
  if symbol.taken.isEmpty then throw .mismatch
  let r := r.extend (.ofRun symbol)
  let r ← r.next parameterList
  let r ← r.next body
  return ⟨.operator, r⟩

/-- Reads an indexer after its type. -/
def indexerShape {ts : List Token} (r : Begun ts) : Except Failure (Shape ts) := do
  let r ← r.next (expectKeyword ["this"])
  let r ← r.next (parameterListIn .lbracket .rbracket)
  if nextIs .lbrace r.rest then return ⟨.indexer, ← r.next accessorList⟩
  else if nextIs .arrow r.rest then return ⟨.indexer, ← r.next body⟩
  else throw .mismatch

/-- Reads a method after its name. -/
def methodShape {ts : List Token} (r : Begun ts) : Except Failure (Shape ts) := do
  let r ← r.nextIf (nextIs .lessThan) typeParameterList
  let r ← r.next parameterList
  let r ← constraintClauses r
  let r ← r.next body
  return ⟨.method, r⟩

/-- Reads a property after its name. -/
def propertyShape {ts : List Token} (r : Begun ts) : Except Failure (Shape ts) := do
  if nextIs .arrow r.rest then return ⟨.property, ← r.next body⟩
  else
    let r ← r.next accessorList
    if nextIs .equals r.rest then
      let r ← r.next (equalsValue fun t _ => t.kind == .semicolon)
      return ⟨.property, ← r.next (expect .semicolon)⟩
    else return ⟨.property, r⟩

/-- Reads a method or a property, told apart by what follows the name. -/
def namedShape {ts : List Token} (named : Begun ts) : Except Failure (Shape ts) :=
  if nextIn [.lparen, .lessThan] named.rest then methodShape named
  else if nextIn [.lbrace, .arrow] named.rest then propertyShape named
  else .error .mismatch

/-- Reads a member that starts with a type. -/
def typedShape (ts : List Token) : Except Failure (Shape ts) := do
  let r := Begun.ofParsed (← type ts)
  if nextKeyword ["operator"] r.rest then operatorShape r
  else if nextKeyword ["this"] r.rest then indexerShape r
  else
    match ← explicitInterface? r.rest with
    | some explicit =>
      let r := r.add explicit
      if nextKeyword ["this"] r.rest then indexerShape r
      else namedShape (← r.next (expect .identifier))
    | none =>
      let named ← r.next (expect .identifier)
      if nextIn [.equals, .semicolon, .comma, .lbracket] named.rest then
        return ⟨.field, ← declarators r⟩
      else namedShape named

/-- Reads a member that holds no members, inside a type of the given name. -/
def plainShape (typeName : Option String) (ts : List Token) : Except Failure (Shape ts) :=
  if nextKeyword ["enum"] ts then enumShape ts
  else if nextKeyword ["delegate"] ts then delegateShape ts
  else if nextKeyword ["event"] ts then eventShape ts
  else if ts.head?.any (fun t => t.kind == .operator && t.value == "~") then destructorShape ts
  else if nextKeyword ["implicit", "explicit"] ts then conversionShape ts
  else if ts.head?.any (fun t => t.kind == .identifier && some t.value == typeName)
      && nextIs .lparen ts.tail then constructorShape ts
  else typedShape ts

/-! ## Types with members -/

/-- A class, struct, interface or record starts here. -/
def startsTypeDeclaration (ts : List Token) : Bool :=
  nextKeyword ["class", "struct", "interface"] ts
    || (nextWord ["record"] ts
      && (nextIs .identifier ts.tail || nextKeyword ["class", "struct"] ts.tail))

/-- The kind that a keyword declares. -/
def declarationKind (keyword : String) : NodeKind :=
  if keyword == "class" then .classType
  else if keyword == "struct" then .structType
  else if keyword == "interface" then .interfaceType
  else .recordType

/-- The head of a type declaration, up to its body. -/
structure TypeHead (ts : List Token) where
  kind : NodeKind
  name : String
  read : Begun ts

/-- Reads the head of a type declaration. -/
def typeHead (ts : List Token) : Except Failure (TypeHead ts) :=
  match ts with
  | [] => .error .mismatch
  | keyword :: rest => do
    let kind := declarationKind keyword.value
    let r := Begun.token keyword rest
    let r := if kind == .recordType then r.optional (·.isKeyword ["class", "struct"]) else r
    let name ← expect .identifier r.rest
    let r := r.add name
    let r ← r.nextIf (nextIs .lessThan) typeParameterList
    let r ← r.nextIf (nextIs .lparen) parameterList
    let r ← r.nextIf (nextIs .colon) baseList
    let r ← constraintClauses r
    return ⟨kind, name.tree.text, r⟩

mutual

/-- Reads a member of a type of the given name, or skips one construct that has no known shape. -/
def member (typeName : Option String) (ts : List Token) : Except Failure (Parsed ts) :=
  orSkipped (declaration typeName ts)
termination_by 5 * ts.length + 3
decreasing_by omega

/-- Reads a member that has one of the known shapes. -/
def declaration (typeName : Option String) (ts : List Token) : Except Failure (Parsed ts) :=
  match preamble isModifier ts with
  | .error e => .error e
  | .ok r =>
    match shape typeName r.rest with
    | .error e => .error e
    | .ok s => .ok ((r.extendBegun s.read).finish s.kind)
termination_by 5 * ts.length + 2
decreasing_by
  have := r.length_le
  omega

/-- Reads what follows the modifiers of a member. -/
def shape (typeName : Option String) (ts : List Token) : Except Failure (Shape ts) :=
  if startsTypeDeclaration ts then
    match typeHead ts with
    | .error e => .error e
    | .ok head =>
      match expect .semicolon head.read.rest with
      | .ok last => .ok ⟨head.kind, head.read.add last⟩
      | .error _ =>
        match expectThat (·.kind == .lbrace) head.read.rest with
        | .error e => .error e
        | .ok opening =>
          match members head.name opening.tree.firstToken? (head.read.add opening) with
          | .error e => .error e
          | .ok r => .ok ⟨head.kind, r.optional (·.kind == .semicolon)⟩
  else plainShape typeName ts
termination_by 5 * ts.length + 1
decreasing_by exact rank_lt (by decide) (Nat.lt_trans opening.progress head.read.progress)

/-- Reads the members of a type and the closing brace. -/
def members (typeName : String) (opening : Option Token) {ts : List Token} (r : Begun ts) :
    Except Failure (Begun ts) :=
  match expect .rbrace r.rest with
  | .ok last => .ok (r.add last)
  | .error _ =>
    if r.rest.isEmpty then .error (.fatal (.endInType typeName) opening)
    else
      match member (some typeName) r.rest with
      | .error e => .error e
      | .ok p => members typeName opening (r.add p)
termination_by 5 * r.rest.length + 4
decreasing_by
  · omega
  · exact rank_lt (by decide) p.progress

end

end NullableMarker.Grammar
