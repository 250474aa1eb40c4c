import NullableMarker.Token

/-!
# Syntax trees

A tree is a token or a node of some kind over a list of trees. All trivia lives on the tokens, so the
tokens of a tree, in order, give back the exact text. A node may hold no token at all, as an empty
list of modifiers does.
-/

namespace NullableMarker

/-! ## Kinds of nodes -/

/-- What a node is. -/
inductive NodeKind where
  | compilationUnit | fragment | externAlias | usingDirective | attributeList
  | namespaceBlock | fileScopedNamespace
  | classType | structType | interfaceType | recordType | enumType | delegateType
  | modifiers | typeParameterList | baseList | constraintClause
  | field | eventField | property | indexer | event | method | constructor | destructor
  | operator | conversionOperator
  | explicitInterface | variableDeclarator | accessorList | accessor | parameterList | parameter
  | predefinedType | name | typeArgumentList | arrayType | nullableType | pointerType | refType
  | tupleType | tupleElement
  | block | expressionBody | equalsValue | skipped
  deriving Repr, DecidableEq, Inhabited

namespace NodeKind

/-- The label of a kind in listings. -/
def label : NodeKind → String
  | compilationUnit => "COMPILATION_UNIT" | fragment => "FRAGMENT"
  | externAlias => "EXTERN_ALIAS" | usingDirective => "USING_DIRECTIVE"
  | attributeList => "ATTRIBUTE_LIST" | namespaceBlock => "NAMESPACE"
  | fileScopedNamespace => "FILE_SCOPED_NAMESPACE" | classType => "CLASS"
  | structType => "STRUCT" | interfaceType => "INTERFACE" | recordType => "RECORD"
  | enumType => "ENUM" | delegateType => "DELEGATE" | modifiers => "MODIFIERS"
  | typeParameterList => "TYPE_PARAMETER_LIST" | baseList => "BASE_LIST"
  | constraintClause => "CONSTRAINT_CLAUSE" | field => "FIELD" | eventField => "EVENT_FIELD"
  | property => "PROPERTY" | indexer => "INDEXER" | event => "EVENT" | method => "METHOD"
  | constructor => "CONSTRUCTOR" | destructor => "DESTRUCTOR" | operator => "OPERATOR"
  | conversionOperator => "CONVERSION_OPERATOR" | explicitInterface => "EXPLICIT_INTERFACE"
  | variableDeclarator => "VARIABLE_DECLARATOR" | accessorList => "ACCESSOR_LIST"
  | accessor => "ACCESSOR" | parameterList => "PARAMETER_LIST" | parameter => "PARAMETER"
  | predefinedType => "PREDEFINED_TYPE" | name => "NAME"
  | typeArgumentList => "TYPE_ARGUMENT_LIST" | arrayType => "ARRAY_TYPE"
  | nullableType => "NULLABLE_TYPE" | pointerType => "POINTER_TYPE" | refType => "REF_TYPE"
  | tupleType => "TUPLE_TYPE" | tupleElement => "TUPLE_ELEMENT" | block => "BLOCK"
  | expressionBody => "EXPRESSION_BODY" | equalsValue => "EQUALS_VALUE" | skipped => "SKIPPED"

/-- All kinds, in the order of declaration. -/
def all : List NodeKind :=
  [compilationUnit, fragment, externAlias, usingDirective, attributeList, namespaceBlock,
    fileScopedNamespace, classType, structType, interfaceType, recordType, enumType, delegateType,
    modifiers, typeParameterList, baseList, constraintClause, field, eventField, property, indexer,
    event, method, constructor, destructor, operator, conversionOperator, explicitInterface,
    variableDeclarator, accessorList, accessor, parameterList, parameter, predefinedType, name,
    typeArgumentList, arrayType, nullableType, pointerType, refType, tupleType, tupleElement, block,
    expressionBody, equalsValue, skipped]

/-- The kind with a label. -/
def ofLabel? (s : String) : Option NodeKind := all.find? (·.label == s)

/-- A kind of type. -/
def isType : NodeKind → Bool
  | predefinedType | name | arrayType | nullableType | pointerType | refType | tupleType => true
  | _ => false

/-- A kind of type declaration. -/
def isTypeDeclaration : NodeKind → Bool
  | classType | structType | interfaceType | recordType | enumType | delegateType => true
  | _ => false

/-- A kind of namespace declaration. -/
def isNamespace : NodeKind → Bool
  | namespaceBlock | fileScopedNamespace => true
  | _ => false

/-- A kind of field declaration. -/
def isField : NodeKind → Bool
  | field | eventField => true
  | _ => false

/-- A kind of declaration, which has modifiers and may have a type and a name. -/
def isDeclaration : NodeKind → Bool
  | field | eventField | property | indexer | event | method | constructor | destructor | operator
  | conversionOperator | accessor | parameter => true
  | k => k.isTypeDeclaration

/-- The family that listings name a node by. -/
def family : NodeKind → String
  | compilationUnit => "CompilationUnit"
  | usingDirective => "UsingDirective"
  | namespaceBlock | fileScopedNamespace => "NamespaceDeclaration"
  | classType | structType | interfaceType | recordType | enumType | delegateType =>
    "TypeDeclaration"
  | field | eventField => "FieldDeclaration"
  | property => "PropertyDeclaration"
  | method => "MethodDeclaration"
  | indexer | event | constructor | destructor | operator | conversionOperator =>
    "MemberDeclaration"
  | accessor => "AccessorDeclaration"
  | parameterList => "ParameterList"
  | parameter => "Parameter"
  | name => "NameSyntax"
  | typeArgumentList => "TypeArgumentList"
  | predefinedType | arrayType | nullableType | pointerType | refType | tupleType => "TypeSyntax"
  | _ => "SyntaxNode"

end NodeKind

/-! ## Trees -/

/-- A token, or a node over trees. -/
inductive Tree where
  | token (t : Token)
  | node (kind : NodeKind) (children : List Tree)
  deriving Repr, Inhabited

namespace Tree

/-- The kind of a node. -/
def kind? : Tree → Option NodeKind
  | token _ => none
  | node kind _ => some kind

/-- The children of a node. -/
def children : Tree → List Tree
  | token _ => []
  | node _ children => children

/-- A node whose kind is in a class. -/
def isNode (p : NodeKind → Bool) (t : Tree) : Bool := t.kind?.any p

/-! ### Equality -/

mutual

/-- Trees are equal when they have the same shape, kinds and tokens. -/
def decEq : (a b : Tree) → Decidable (a = b)
  | token s, token t =>
    if h : s = t then isTrue (h ▸ rfl) else isFalse fun e => h (token.inj e)
  | token _, node _ _ => isFalse fun e => by cases e
  | node _ _, token _ => isFalse fun e => by cases e
  | node k as, node l bs =>
    if h : k = l then
      match decEqAll as bs with
      | isTrue h' => isTrue (by rw [h, h'])
      | isFalse h' => isFalse fun e => h' (node.inj e).2
    else isFalse fun e => h (node.inj e).1

/-- Equality of lists of trees. -/
def decEqAll : (as bs : List Tree) → Decidable (as = bs)
  | [], [] => isTrue rfl
  | [], _ :: _ => isFalse fun e => by cases e
  | _ :: _, [] => isFalse fun e => by cases e
  | a :: as, b :: bs =>
    match decEq a b, decEqAll as bs with
    | isTrue h, isTrue h' => isTrue (by rw [h, h'])
    | isFalse h, _ => isFalse fun e => h (List.cons.inj e).1
    | _, isFalse h => isFalse fun e => h (List.cons.inj e).2

end

instance : DecidableEq Tree := decEq

/-! ### Tokens -/

mutual

/-- The tokens of a tree, in source order. -/
def tokens : Tree → List Token
  | token t => [t]
  | node _ children => tokensAll children

/-- The tokens of a list of trees. -/
def tokensAll : List Tree → List Token
  | [] => []
  | t :: ts => t.tokens ++ tokensAll ts

end

@[simp] theorem tokens_token (t : Token) : (token t).tokens = [t] := by simp [tokens]

@[simp] theorem tokens_node (k : NodeKind) (cs : List Tree) :
    (node k cs).tokens = tokensAll cs := by simp [tokens]

@[simp] theorem tokensAll_nil : tokensAll [] = [] := by simp [tokensAll]

@[simp] theorem tokensAll_cons (t : Tree) (ts : List Tree) :
    tokensAll (t :: ts) = t.tokens ++ tokensAll ts := by simp [tokensAll]

@[simp] theorem tokensAll_append (as bs : List Tree) :
    tokensAll (as ++ bs) = tokensAll as ++ tokensAll bs := by
  induction as with
  | nil => simp
  | cons a as ih => simp [ih]

/-- Wrapping tokens as trees and taking them out again changes nothing. -/
@[simp] theorem tokensAll_map_token (ts : List Token) : tokensAll (ts.map token) = ts := by
  induction ts with
  | nil => simp
  | cons t ts ih => simp [ih]

mutual

/-- The first token of a tree. -/
def firstToken? : Tree → Option Token
  | token t => some t
  | node _ children => firstTokenOf? children

/-- The first token of a list of trees; trees without a token are passed over. -/
def firstTokenOf? : List Tree → Option Token
  | [] => none
  | t :: ts =>
    match t.firstToken? with
    | some found => some found
    | none => firstTokenOf? ts

end

mutual

/-- The last token of a tree. -/
def lastToken? : Tree → Option Token
  | token t => some t
  | node _ children => lastTokenOf? children

/-- The last token of a list of trees; trees without a token are passed over. -/
def lastTokenOf? : List Tree → Option Token
  | [] => none
  | t :: ts =>
    match lastTokenOf? ts with
    | some found => some found
    | none => t.lastToken?

end

/-- The offset of the first token in the source. -/
def offset? (t : Tree) : Option Nat := t.firstToken?.bind (·.offset)

/-! ### Text -/

/-- The text with all trivia. -/
def fullText (t : Tree) : String := Token.fullTextOf t.tokens

/-- The texts of tokens of which only the last is without its trailing trivia. -/
def innerTexts : List Token → List String
  | [] => []
  | [t] => [Trivia.textOf t.leading, t.value]
  | t :: ts => t.fullText :: innerTexts ts

/-- The text without the outermost leading and trailing trivia. -/
def text (t : Tree) : String :=
  match t.tokens with
  | [] => ""
  | [s] => s.value
  | s :: ts => String.join (s.value :: Trivia.textOf s.trailing :: innerTexts ts)

/-- The trivia before the first token. -/
def leading (t : Tree) : List Trivia := (t.firstToken?.map (·.leading)).getD []

/-- The trivia after the last token. -/
def trailing (t : Tree) : List Trivia := (t.lastToken?.map (·.trailing)).getD []

/-- One line for listings. -/
def describe (t : Tree) : String :=
  match t with
  | token s => s.describe
  | node kind _ => s!"{kind.family}({kind.label}, {Text.quoted t.text})"

/-! ### Nodes -/

/-- The children that are nodes. -/
def childNodes (t : Tree) : List Tree := t.children.filter (·.isNode fun _ => true)

/-- The children that are tokens. -/
def childTokens (t : Tree) : List Token :=
  t.children.filterMap fun c => match c with
    | token s => some s
    | node _ _ => none

/-- The first child node whose kind is in a class. -/
def child? (t : Tree) (p : NodeKind → Bool) : Option Tree := t.children.find? (·.isNode p)

/-- The child nodes whose kind is in a class. -/
def childrenOf (t : Tree) (p : NodeKind → Bool) : List Tree := t.children.filter (·.isNode p)

mutual

/-- The nodes of a tree, itself first, each before the nodes below it. -/
def nodes : Tree → List Tree
  | token _ => []
  | node kind children => node kind children :: nodesAll children

/-- The nodes of a list of trees. -/
def nodesAll : List Tree → List Tree
  | [] => []
  | t :: ts => t.nodes ++ nodesAll ts

end

end Tree

end NullableMarker
