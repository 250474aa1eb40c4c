import NullableMarker.Grammar.Member
import NullableMarker.Token.Stream

/-!
# Compilation units and fragments

A unit is a sequence of namespace members: directives, namespaces, attribute lists of the assembly,
and members. A fragment is a sequence of members alone.
-/

namespace NullableMarker.Grammar

/-! ## Namespace members -/

/-- `extern alias` starts here. -/
def startsExternAlias (ts : List Token) : Bool :=
  nextKeyword ["extern"] ts && nextWord ["alias"] ts.tail

/-- A using directive starts here. -/
def startsUsing (ts : List Token) : Bool :=
  (nextKeyword ["using"] ts && !nextIs .lparen ts.tail)
    || (nextWord ["global"] ts && nextKeyword ["using"] ts.tail)

/-- An attribute list of the assembly or module starts here. -/
def startsGlobalAttributes (ts : List Token) : Bool :=
  nextIs .lbracket ts && nextWord ["assembly", "module"] ts.tail && nextIs .colon ts.tail.tail

/-- Reads an `extern alias` directive. -/
def externAlias (ts : List Token) : Except Failure (Parsed ts) :=
  match ts with
  | [] => .error .mismatch
  | t :: rest => (through .semicolon t rest).map (.ofGroup .externAlias)

/-- Takes a name and `=`, which give the target of a using directive a name. -/
def usingName (ts : List Token) : Reading ts :=
  match ts with
  | t :: u :: rest =>
    if t.kind == .identifier && u.kind == .equals then
      (Begun.add (.token t (u :: rest)) (.token u rest)).toReading
    else .start _
  | _ => .start _

/-- Reads a using directive. -/
def usingDirective (ts : List Token) : Except Failure (Parsed ts) := do
  let r := Reading.ofRun (.optional (·.isWord ["global"]) ts)
  let r := r.add (← expectThat (fun _ => true) r.rest)
  let r := r.optional (·.isKeyword ["static"])
  let r := r.extend (usingName r.rest)
  let r ← r.next type
  let r ← r.next (expect .semicolon)
  return r.finish .usingDirective

/-- Reads a namespace member that is no namespace. -/
def simpleMember (ts : List Token) : Except Failure (Parsed ts) :=
  if startsExternAlias ts then externAlias ts
  else if startsUsing ts then orSkipped (usingDirective ts)
  else if startsGlobalAttributes ts then (balanced ts).map (.ofGroup .attributeList)
  else member none ts

/-- Reads the keyword and the name of a namespace. -/
def namespaceHead (ts : List Token) : Except Failure (Begun ts) :=
  match ts with
  | [] => .error .mismatch
  | keyword :: rest =>
    match name rest with
    | .error .mismatch => .error (.fatal .missingNamespaceName rest.head?)
    | .error e => .error e
    | .ok p => .ok ((Begun.token keyword rest).add p)

mutual

/-- Reads namespace members after what was read, up to the end of the file or a closing brace. -/
def namespaceMembers (top : Bool) {ts : List Token} (r : Reading ts) :
    Except Failure (Reading ts) :=
  if r.rest.isEmpty then
    if top then .ok r else .error (.fatal .endInNamespace none)
  else if nextIs .rbrace r.rest then
    if top then .error (.fatal .closingBraceAtTop r.rest.head?) else .ok r
  else
    match namespaceMember r.rest with
    | .error e => .error e
    | .ok p => namespaceMembers top (r.add p).toReading
termination_by 4 * r.rest.length + 3
decreasing_by
  · omega
  · exact rank_lt (by decide) p.progress

/-- Reads a namespace member. -/
def namespaceMember (ts : List Token) : Except Failure (Parsed ts) :=
  if nextKeyword ["namespace"] ts then namespaceDeclaration ts else simpleMember ts
termination_by 4 * ts.length + 2
decreasing_by omega

/-- Reads a namespace, with its members in braces or to the end of the file. -/
def namespaceDeclaration (ts : List Token) : Except Failure (Parsed ts) :=
  match namespaceHead ts with
  | .error e => .error e
  | .ok head =>
    match expect .semicolon head.rest with
    | .ok mark =>
      match namespaceMembers true (.start (head.add mark).rest) with
      | .error e => .error e
      | .ok inner => .ok (((head.add mark).extend inner).finish .fileScopedNamespace)
    | .error _ =>
      match expect .lbrace head.rest with
      | .error _ => .error (.fatal .missingNamespaceBody head.rest.head?)
      | .ok opening =>
        match namespaceMembers false (.start (head.add opening).rest) with
        | .error e => .error e
        | .ok inner =>
          match expect .rbrace inner.rest with
          | .error e => .error e
          | .ok closing =>
            let r := ((head.add opening).extend inner).add closing
            .ok ((r.optional (·.kind == .semicolon)).finish .namespaceBlock)
termination_by 4 * ts.length + 1
decreasing_by
  · exact rank_lt (by decide) (Nat.lt_trans mark.progress head.progress)
  · exact rank_lt (by decide) (Nat.lt_trans opening.progress head.progress)

end

/-! ## Fragments -/

/-- Reads members after what was read, up to the end of the file. -/
def fragmentMembers {ts : List Token} (r : Reading ts) : Except Failure (Reading ts) :=
  if r.rest.isEmpty then .ok r
  else if nextIs .rbrace r.rest then .error (.fatal .closingBrace r.rest.head?)
  else
    match member none r.rest with
    | .error e => .error e
    | .ok p => fragmentMembers (r.add p).toReading
termination_by r.rest.length
decreasing_by exact p.progress

end NullableMarker.Grammar

namespace NullableMarker

open Grammar

/-- The tree of a whole file. -/
def TokenStream.toUnit (stream : TokenStream) : Except ParseError Tree :=
  match namespaceMembers true (.start stream.tokens) with
  | .error e => .error (e.toError stream.eof)
  | .ok r => .ok (.node .compilationUnit (r.children ++ [.token stream.eof]))

/-- The tree of a sequence of members. -/
def TokenStream.toFragment (stream : TokenStream) : Except ParseError Tree :=
  match fragmentMembers (.start stream.tokens) with
  | .error e => .error (e.toError stream.eof)
  | .ok r => .ok (.node .fragment (r.children ++ [.token stream.eof]))

/-- Why a source has no tree. -/
inductive SourceError where
  | lex (e : LexError)
  | parse (e : ParseError)
  deriving Repr, DecidableEq

/-- The whole message. -/
def SourceError.message : SourceError → String
  | lex e => e.message
  | parse e => e.message

/-- Applies a reader of streams to a source. -/
def readSource (reader : TokenStream → Except ParseError Tree) (source : String)
    (defined : List String) : Except SourceError Tree :=
  match TokenStream.ofSource source defined with
  | .error e => .error (.lex e)
  | .ok stream => (reader stream).mapError .parse

/-- Reads the source of a whole file. -/
def parseUnit (source : String) (defined : List String) : Except SourceError Tree :=
  readSource TokenStream.toUnit source defined

/-- Reads the source of a sequence of members. -/
def parseFragment (source : String) (defined : List String) : Except SourceError Tree :=
  readSource TokenStream.toFragment source defined

end NullableMarker
