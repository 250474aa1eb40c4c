import NullableMarker.Symbol.Table

/-!
# Reference manifests

A manifest maps namespaces to lists of types. An entry of such a list has a name, and may have a
kind, a keyword, a base, interfaces and nested types. A namespace is taken as it stands, also when it
is no text; only a table has to take it apart.
-/

namespace NullableMarker

/-! ## Faults -/

/-- Why a manifest cannot be used. -/
inductive ManifestFault where
  /-- The file holds no data value. -/
  | data (fault : DataFault)
  | missingNamespaces
  /-- What the type or the namespace holds is no list. -/
  | notAList (owner : Scalar)
  | nameless (entry : Value)
  | badKind (value : Value)
  | badSpecial (value : Value)
  /-- The text after the arity mark is no integer. -/
  | badArity (name : String)
  /-- The interfaces cannot be gone through. -/
  | badInterfaces (value : Value)
  deriving Repr, BEq

/-- The wording of a fault, for those that have one. -/
def ManifestFault.text? : ManifestFault → Option String
  | data (.malformed text) => some text
  | data (.undecodable _) | data (.impossible _) => none
  | missingNamespaces => some "missing 'namespaces' mapping"
  | notAList owner => some s!"expected a list of types in {owner.describe}"
  | nameless entry => some s!"type entry without a name: {entry.describe}"
  | badKind value => some s!"{value.describe} is not a valid TypeKind"
  | badSpecial value => some s!"{value.describe} is not a valid SpecialType"
  | badArity _ => none
  | badInterfaces _ => none

/-- A fault of the manifest at a path. -/
structure ManifestError where
  path : String
  fault : ManifestFault
  deriving Repr, BEq

/-- The whole message, for the faults that have one. -/
def ManifestError.message? (e : ManifestError) : Option String :=
  e.fault.text?.map fun text => s!"Invalid reference manifest {e.path}: {text}"

/-! ## Symbols as they are listed -/

/-- A type that a manifest lists, with the namespace as it stands there. -/
structure ListedSymbol where
  space : Scalar
  symbol : TypeSymbol
  named : symbol.namespaceName = space.plain
  deriving Repr

namespace Manifest

/-! ## Entries -/

/-- The kind of an entry; a class if it says nothing. -/
def kindOf (entry : Value) : Except ManifestFault TypeKind :=
  match entry.get? "kind" with
  | none => .ok .class_
  | some (.text word) => (TypeKind.ofWord? word).elim (.error (.badKind (.text word))) .ok
  | some v => .error (.badKind v)

/-- The keyword of an entry. -/
def specialOf (entry : Value) : Except ManifestFault (Option Special) :=
  match entry.get? "special" with
  | none => .ok none
  | some (.text word) =>
    (Special.ofWord? word).elim (.error (.badSpecial (.text word))) fun s => .ok (some s)
  | some v => .error (.badSpecial v)

/-- The interfaces of an entry: what is found when they are gone through. -/
def interfacesOf (entry : Value) : Except ManifestFault (List TypeRef) :=
  match entry.get? "interfaces" with
  | none => .ok []
  | some v => v.items?.elim (.error (.badInterfaces v)) fun items => .ok (items.map TypeRef.ofValue)

/-- The base of an entry. -/
def baseOf (entry : Value) : Option TypeRef :=
  match entry.get? "base" with
  | none | some .null => none
  | some v => some (TypeRef.ofValue v)

/-- The symbol of an entry, without its nested types. -/
def symbolOf (origin : String) (space : Scalar) (container : Option String) (entry : Value) :
    Except ManifestFault ListedSymbol := do
  let some name := entry.get? "name" | throw (.nameless entry)
  let some (name, arity) := splitMetadataName name.plain | throw (.badArity name.plain)
  let kind ← kindOf entry
  let special ← specialOf entry
  let interfaces ← interfacesOf entry
  return ⟨space, { name, namespaceName := space.plain, kind, arity, containing := container,
                   special, base := baseOf entry, interfaces, origin }, rfl⟩

/-- Who owns a list of entries: the type around it, or else the namespace. -/
def owner (space : Scalar) (container : Option String) : Scalar :=
  if container.any (!·.isEmpty) then .text (container.getD "") else space

mutual

/-- The symbols of a list of entries, each before those nested in it. -/
def symbolsOf (origin : String) (space : Scalar) (container : Option String) :
    Value → Except ManifestFault (List ListedSymbol)
  | .list entries => symbolsOfAll origin space container entries
  | _ => .error (.notAList (owner space container))

/-- The symbols of entries. -/
def symbolsOfAll (origin : String) (space : Scalar) (container : Option String) :
    List Value → Except ManifestFault (List ListedSymbol)
  | [] => .ok []
  | .map fields :: rest => do
    let listed ← symbolOf origin space container (.map fields)
    let nested ← nestedOf origin space listed.symbol.key fields
    let others ← symbolsOfAll origin space container rest
    return listed :: nested ++ others
  | entry :: _ => .error (.nameless entry)

/-- The symbols nested in the type whose entry has the given fields. -/
def nestedOf (origin : String) (space : Scalar) (container : String) :
    List (Scalar × Value) → Except ManifestFault (List ListedSymbol)
  | [] => .ok []
  | (field, value) :: rest =>
    if field == .text "nested" then symbolsOf origin space (some container) value
    else nestedOf origin space container rest

end

/-! ## Manifests -/

/-- The namespace that a key stands for. One that counts as absent is that of no name. -/
def spaceOf (key : Scalar) : Scalar := if key.isPresent then key else .text ""

/-- The symbols of the namespaces of a manifest. -/
def symbolsOfNamespaces (origin : String) :
    List (Scalar × Value) → Except ManifestFault (List ListedSymbol)
  | [] => .ok []
  | (key, entries) :: rest => do
    let symbols ← symbolsOf origin (spaceOf key) none entries
    let others ← symbolsOfNamespaces origin rest
    return symbols ++ others

/-- The symbols of a manifest, whose file name is given. -/
def symbols (fileName : String) (data : Value) : Except ManifestFault (List ListedSymbol) :=
  match data.get? "namespaces" with
  | some (.map spaces) => symbolsOfNamespaces s!"reference:{fileName}" spaces
  | _ => .error .missingNamespaces

end Manifest

/-! ## Tables -/

/-- A namespace that has no parts to enter into a table. -/
structure BadNamespace where
  space : Scalar
  deriving Repr

namespace SymbolTable

/-- Adds a type that a manifest lists. Its namespace has to be a text, unless the type is known
already: the first declaration says what the namespace is. -/
def addListed (t : SymbolTable) (listed : ListedSymbol) : Except BadNamespace SymbolTable :=
  if listed.space.isText || t.contains listed.symbol.key then .ok (t.add listed.symbol).1
  else .error ⟨listed.space⟩

/-- Adds types in order. -/
def addAllListed (t : SymbolTable) (listed : List ListedSymbol) :
    Except BadNamespace SymbolTable :=
  listed.foldlM addListed t

end SymbolTable

end NullableMarker
