import NullableMarker.Resolve.Scope
import NullableMarker.Symbol.Table

/-!
# Looking names up

A name is looked up frame by frame, outwards. The using directives of a namespace are bound when a
lookup first gets to them, against the types known then; they see the namespace they stand in and
what lies around it, but not each other, except through an alias bound before.

A scope is a list of frames, so looking up is a fold: each frame extends the lookup of the frames
around it.
-/

namespace NullableMarker

/-! ## What is found -/

/-- What a name may stand for. -/
inductive Target where
  | type (s : TypeSymbol)
  | space (name : String)
  deriving Repr, BEq, Inhabited

/-- The type found, if it is one. -/
def Target.type? : Target → Option TypeSymbol
  | type s => some s
  | space _ => none

/-- What a name stands for among the members of a namespace. -/
def SymbolTable.inNamespace? (t : SymbolTable) (space name : String) (arity : Nat) :
    Option Target :=
  match t.lookup space name arity with
  | some s => some (.type s)
  | none =>
    if arity == 0 && t.hasNamespace (joinName space name) then some (.space (joinName space name))
    else none

/-- What a name stands for among the members of a target. -/
def SymbolTable.member (t : SymbolTable) (target : Target) (name : String) (arity : Nat) :
    Except BadReference (Option Target) :=
  match target with
  | .space space => .ok (t.inNamespace? space name arity)
  | .type s => (t.nested s name arity).map (·.map .type)

/-- Follows the segments after the first. -/
def SymbolTable.follow (t : SymbolTable) (target : Option Target) :
    List (String × Nat) → Except BadReference (Option Target)
  | [] => .ok target
  | (name, arity) :: rest =>
    match target with
    | none => .ok none
    | some target => do t.follow (← t.member target name arity) rest

/-! ## State -/

/-- What the using directives of a namespace bring in. -/
structure Bindings where
  aliases : List (String × Target) := []
  imports : List String := []
  statics : List TypeSymbol := []
  deriving Inhabited

/-- The types known, the using directives bound so far, and remarks on what was not found. The
directives of a namespace are told by the offset of the first. -/
structure Resolution where
  table : SymbolTable
  bound : List (Nat × Bindings) := []
  remarks : Array String := #[]
  deriving Inhabited

/-- A computation that may bind using directives, and that ends early at a reference that cannot be
looked up. -/
abbrev Resolve := StateT Resolution (Except BadReference)

namespace Resolution

/-- The bindings of the directives at an offset. -/
def bindings (st : Resolution) (id : Nat) : Bindings := (st.bound.lookup id).getD {}

/-- Changes the bindings of the directives at an offset. -/
def setBindings (st : Resolution) (id : Nat) (b : Bindings) : Resolution :=
  { st with bound := upsert id b st.bound }

end Resolution

/-- Adds a remark. -/
def remark (text : String) : Resolve Unit :=
  modify fun st => { st with remarks := st.remarks.push text }

/-! ## Lookups -/

/-- How names and aliases are looked up from a point of the tree. -/
structure Lookup where
  name : String → Nat → Resolve (Option Target)
  «alias» : String → Resolve (Option Target)

/-- Nothing is found outside all frames. -/
def Lookup.nowhere : Lookup := ⟨fun _ _ => pure none, fun _ => pure none⟩

/-- Resolves a dotted name after an alias, if it has one. The alias `global` stands for the
outermost namespace. -/
def Lookup.qualified (l : Lookup) (aliasName : Option String) (segments : List (String × Nat)) :
    Resolve (Option Target) := do
  match aliasName, segments with
  | some a, segments =>
    let target ← if a == "global" then pure (some (.space "")) else l.alias a
    (← get).table.follow target segments
  | none, [] => return none
  | none, (name, arity) :: rest =>
    let target ← l.name name arity
    (← get).table.follow target rest

/-- Resolves a name node. -/
def Lookup.nameNode (l : Lookup) (t : Tree) : Resolve (Option Target) :=
  l.qualified (t.aliasToken?.map (·.value)) (t.segments.map fun s => (s.name, s.arity))

mutual

/-- A type without the nullable and `ref` marks around it. -/
def Tree.unwrapped? : Tree → Option Tree
  | .token _ => none
  | .node kind children =>
    if kind == .nullableType || kind == .refType then Tree.unwrappedFirst? children
    else some (.node kind children)

/-- The first type of a list of trees, without the marks around it. -/
def Tree.unwrappedFirst? : List Tree → Option Tree
  | [] => none
  | t :: ts => if t.isNode NodeKind.isType then t.unwrapped? else Tree.unwrappedFirst? ts

end

/-- Resolves a type node. A keyword stands for its type, an array for the type of arrays; tuples and
pointers have no symbol. -/
def Lookup.typeNode (l : Lookup) (t : Tree) : Resolve (Option TypeSymbol) := do
  match t.unwrapped? with
  | none => return none
  | some core =>
    if core.isNode (· == .predefinedType) then
      let word := (core.firstToken?.map (·.value)).getD ""
      let table := (← get).table
      return (Special.ofWord? word).bind table.special?
    else if core.isNode (· == .name) then
      return (← l.nameNode core).bind (·.type?)
    else if core.isNode (· == .arrayType) then
      return (← get).table.lookup "System" "Array" 0
    else return none

/-! ## Using directives -/

/-- The name that directives are told by. -/
def usingsId? (usings : List Tree) : Option Nat := usings.head?.bind (·.offset?)

/-- What a directive of the namespace `space` sees: the members of the namespace, the aliases bound
before it, and what lies around. -/
def Lookup.fromUsing (space : String) (id : Nat) (above : Lookup) : Lookup where
  name n arity := do
    match (← get).table.inNamespace? space n arity with
    | some target => return some target
    | none => above.name n arity
  «alias» a := do
    match ((← get).bindings id).aliases.lookup a with
    | some target => return some target
    | none => above.alias a

/-- Adds an alias. -/
def addAlias (id : Nat) (name : String) (target : Target) : Resolve Unit :=
  modify fun st =>
    let b := st.bindings id
    st.setBindings id { b with aliases := upsert name target b.aliases }

/-- Adds a namespace whose types are brought in. -/
def addImport (id : Nat) (name : String) : Resolve Unit :=
  modify fun st =>
    let b := st.bindings id
    st.setBindings id { b with imports := b.imports ++ [name] }

/-- Adds a type whose nested types are brought in. -/
def addStatic (id : Nat) (s : TypeSymbol) : Resolve Unit :=
  modify fun st =>
    let b := st.bindings id
    st.setBindings id { b with statics := b.statics ++ [s] }

/-- Binds one directive. -/
def bindUsing (id : Nat) (l : Lookup) (directive : Tree) : Resolve Unit := do
  match directive.type? with
  | none => return
  | some target =>
    if target.isNode (· == .name) then
      let resolved ← l.nameNode target
      match directive.usingAlias? with
      | some a =>
        match resolved with
        | some found => addAlias id a found
        | none => remark s!"Unresolved using alias {a} = {target.text}"
      | none =>
        if directive.isStaticUsing then
          match resolved with
          | some (.type s) => addStatic id s
          | _ => return
        else
          match resolved with
          | some (.space name) => addImport id name
          | _ => remark s!"Unresolved using directive {target.text}"
    else
      match directive.usingAlias? with
      | none => return
      | some a =>
        match ← l.typeNode target with
        | some s => addAlias id a (.type s)
        | none => return

/-- Binds the directives of a namespace unless they are, and gives what they bring in. -/
def bindUsings (space : String) (usings : List Tree) (above : Lookup) : Resolve Bindings := do
  match usingsId? usings with
  | none => return {}
  | some id =>
    if ((← get).bound.lookup id).isNone then
      modify fun st => st.setBindings id {}
      usings.forM (bindUsing id (.fromUsing space id above))
    return (← get).bindings id

/-! ## Frames -/

/-- The types that the directives of a namespace bring in under a name. -/
def Bindings.candidates (b : Bindings) (t : SymbolTable) (name : String) (arity : Nat) :
    Except BadReference (List TypeSymbol) := do
  let nested ← b.statics.mapM (t.nested · name arity)
  return b.imports.filterMap (t.lookup · name arity) ++ nested.filterMap id

/-- Looks a name up among what the directives of a namespace bring in. The first of several wins. -/
def Bindings.find? (b : Bindings) (name : String) (arity : Nat) : Resolve (Option Target) := do
  match if arity == 0 then b.aliases.lookup name else none with
  | some target => return some target
  | none =>
    let found ← b.candidates (← get).table name arity
    if 1 < found.length then
      let listed := ", ".intercalate (found.map (·.describe))
      remark s!"Ambiguous reference {name}: [{listed}]"
    return found.head?.map .type

/-- The lookup inside a frame, given the one around it. A type parameter hides all that has its
name. -/
def Frame.extend (f : Frame) (above : Lookup) : Lookup :=
  match f with
  | .method ps =>
    { above with name := fun n arity =>
        if arity == 0 && ps.contains n then pure none else above.name n arity }
  | .type key ps =>
    { above with name := fun n arity => do
        if arity == 0 && ps.contains n then return none
        else
          let table := (← get).table
          match table.get? key with
          | none => above.name n arity
          | some container =>
            match ← table.nested container n arity with
            | some s => return some (.type s)
            | none => above.name n arity }
  | .space spaceName usings =>
    { name := fun n arity => do
        match (← get).table.inNamespace? spaceName n arity with
        | some target => return some target
        | none =>
          let b ← bindUsings spaceName usings above
          match ← b.find? n arity with
          | some target => return some target
          | none => above.name n arity
      «alias» := fun a => do
        let b ← bindUsings spaceName usings above
        match b.aliases.lookup a with
        | some target => return some target
        | none => above.alias a }

/-- The lookup from a scope. -/
def Scope.lookup (scope : Scope) : Lookup := scope.foldr Frame.extend Lookup.nowhere

end NullableMarker
