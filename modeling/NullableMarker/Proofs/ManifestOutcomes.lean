import NullableMarker.Proofs.CachedTables

/-!
# What becomes of a manifest

The entries of a manifest are read one after another, each before those nested in it, and each
gives one symbol. Most faults of an entry are told by a message. But the arity of a name and the
interfaces are converted without one, and the namespace and the base are taken as they stand,
whatever they are.

* `Manifest.entries` — the entries with their namespaces, in the order in which they are read
* `Manifest.isWellWritten` — entries with a namespace, an arity, a base and interfaces that are what
  they should be
* `Value.Breaks` — entries with faults that are not told
* `Manifest.Accounts` — symbols or a fault, as the entries make them
* `Work.loadManifest_outcome` — what becomes of a manifest
-/

namespace NullableMarker

/-! ## Symbols and entries as they should be -/

/-- The reference is the key of a type. -/
def TypeRef.isKey : TypeRef → Bool
  | key _ => true
  | other _ => false

/-- A symbol that holds keys and the number of its type parameters, in a namespace that is a text.
Its name is a text by its type. -/
def ListedSymbol.isTyped (s : ListedSymbol) : Bool :=
  s.space.isText && decide (0 ≤ s.symbol.arity) && s.symbol.base.all (·.isKey)
    && s.symbol.interfaces.all (·.isKey)

namespace Value

/-- The value is a text. -/
def isText : Value → Bool
  | scalar s => s.isText
  | _ => false

/-- The value is a key, or stands for no base. -/
def isBase : Value → Bool
  | null | text _ => true
  | _ => false

/-- The value can be gone through, and only texts are found. -/
def givesTexts (v : Value) : Bool := v.items?.any (·.all isText)

/-- The value is a name, with the number of type parameters after the arity mark if there is one. -/
def isName (v : Value) : Bool := (splitMetadataName v.plain).any fun parts => decide (0 ≤ parts.2)

/-- An entry with the name, the base and the interfaces of a symbol, as far as it has them. -/
def isWellWritten (e : Value) : Bool :=
  (e.get? "name").all isName && (e.get? "base").all isBase && (e.get? "interfaces").all givesTexts

/-- An entry with a fault that is not told: the text after the arity mark is no integer, or the
interfaces cannot be gone through. -/
def Breaks (e : Value) (fault : ManifestFault) : Prop :=
  (∃ name, e.get? "name" = some name ∧ splitMetadataName name.plain = none
      ∧ fault = .badArity name.plain)
    ∨ ∃ value, e.get? "interfaces" = some value ∧ value.items? = none
      ∧ fault = .badInterfaces value

/-- A well-written entry has no fault that is not told. -/
theorem not_breaks_of_isWellWritten {e : Value} (h : e.isWellWritten = true)
    (fault : ManifestFault) : ¬ e.Breaks fault := by
  rw [isWellWritten, Bool.and_eq_true, Bool.and_eq_true] at h
  obtain ⟨⟨harity, -⟩, hinterfaces⟩ := h
  rintro (⟨name, hname, hsplit, -⟩ | ⟨value, hvalue, hitems, -⟩)
  · rw [hname, Option.all_some, isName, hsplit] at harity
    cases harity
  · rw [hvalue, Option.all_some, givesTexts, hitems] at hinterfaces
    cases hinterfaces

end Value

namespace Manifest

/-! ## Single entries -/

/-- An entry with the namespace it is listed in, both as they should be. -/
def isWellWritten (e : Scalar × Value) : Bool := e.1.isText && e.2.isWellWritten

theorem isKey_ofValue (v : Value) : (TypeRef.ofValue v).isKey = v.isText := by
  cases v with
  | scalar s => cases s <;> rfl
  | _ => rfl

/-- The base of an entry is a key if it is written as one. -/
theorem all_isKey_baseOf (e : Value) :
    (baseOf e).all (·.isKey) = (e.get? "base").all Value.isBase := by
  unfold baseOf
  split
  · next hbase => rw [hbase, Option.all_none, Option.all_none]
  · next hbase => rw [hbase]; rfl
  · next v hnull hbase =>
    rw [hbase, Option.all_some, Option.all_some, isKey_ofValue]
    cases v with
    | scalar s =>
      cases s with
      | null => exact absurd rfl hnull
      | _ => rfl
    | _ => rfl

/-- The interfaces of an entry are keys if they are written as texts. -/
theorem all_isKey_interfacesOf {e : Value} {interfaces : List TypeRef}
    (h : interfacesOf e = .ok interfaces) :
    interfaces.all (·.isKey) = (e.get? "interfaces").all Value.givesTexts := by
  unfold interfacesOf at h
  split at h
  · next hvalue =>
    cases h
    rw [hvalue]
    rfl
  · next v hvalue =>
    rw [hvalue, Option.all_some, Value.givesTexts]
    cases hitems : v.items? with
    | none => rw [hitems] at h; cases h
    | some items =>
      rw [hitems] at h
      cases h
      rw [Option.any_some, List.all_map]
      exact congrArg items.all (funext isKey_ofValue)

theorem interfacesOf_error {e : Value} {fault : ManifestFault} (h : interfacesOf e = .error fault) :
    e.Breaks fault := by
  unfold interfacesOf at h
  split at h
  · cases h
  · next v hvalue =>
    cases hitems : v.items? with
    | none =>
      rw [hitems] at h
      cases h
      exact .inr ⟨v, hvalue, hitems, rfl⟩
    | some items => rw [hitems] at h; cases h

theorem kindOf_error {e : Value} {fault : ManifestFault} (h : kindOf e = .error fault) :
    fault.text?.isSome = true := by
  unfold kindOf at h
  split at h
  · cases h
  · next word hword =>
    cases hkind : TypeKind.ofWord? word with
    | none => rw [hkind] at h; cases h; rfl
    | some kind => rw [hkind] at h; cases h
  · cases h
    rfl

theorem specialOf_error {e : Value} {fault : ManifestFault} (h : specialOf e = .error fault) :
    fault.text?.isSome = true := by
  unfold specialOf at h
  split at h
  · cases h
  · next word hword =>
    cases hspecial : Special.ofWord? word with
    | none => rw [hspecial] at h; cases h; rfl
    | some special => rw [hspecial] at h; cases h
  · cases h
    rfl

/-- What a symbol has of its entry. -/
theorem symbolOf_ok {origin : String} {space : Scalar} {container : Option String} {e : Value}
    {s : ListedSymbol} (h : symbolOf origin space container e = .ok s) :
    s.space = space ∧ ∃ name, e.get? "name" = some name
      ∧ splitMetadataName name.plain = some (s.symbol.name, s.symbol.arity)
      ∧ s.symbol.base = baseOf e ∧ interfacesOf e = .ok s.symbol.interfaces := by
  unfold symbolOf at h
  split at h
  · next name hname =>
    split at h
    · next n arity hsplit =>
      obtain ⟨kind, -, h⟩ := ok_of_bind h
      obtain ⟨special, -, h⟩ := ok_of_bind h
      obtain ⟨interfaces, hinterfaces, h⟩ := ok_of_bind h
      cases h
      exact ⟨rfl, name, hname, hsplit, rfl, hinterfaces⟩
    · cases h
  · cases h

/-- Why an entry gives no symbol. -/
theorem symbolOf_error {origin : String} {space : Scalar} {container : Option String} {e : Value}
    {fault : ManifestFault} (h : symbolOf origin space container e = .error fault) :
    fault.text?.isSome = true ∨ e.Breaks fault := by
  unfold symbolOf at h
  split at h
  · next name hname =>
    split at h
    · rcases error_of_bind h with hkind | ⟨kind, -, h⟩
      · exact .inl (kindOf_error hkind)
      rcases error_of_bind h with hspecial | ⟨special, -, h⟩
      · exact .inl (specialOf_error hspecial)
      rcases error_of_bind h with hinterfaces | ⟨interfaces, -, h⟩
      · exact .inr (interfacesOf_error hinterfaces)
      · cases h
    · next hsplit =>
      cases h
      refine .inr (.inl ⟨name, hname, ?_, rfl⟩)
      cases hparts : splitMetadataName name.plain with
      | none => rfl
      | some parts => exact absurd hparts (hsplit parts.1 parts.2)
  · cases h
    exact .inl rfl

/-! ## The entries of a manifest -/

mutual

/-- The entries of a list, each before those nested in it. -/
def listed (space : Scalar) : Value → List (Scalar × Value)
  | .list entries => listedAll space entries
  | _ => []

/-- The entries among the items of a list. -/
def listedAll (space : Scalar) : List Value → List (Scalar × Value)
  | [] => []
  | .map fields :: rest => (space, .map fields) :: (listedBelow space fields ++ listedAll space rest)
  | _ :: rest => listedAll space rest

/-- The entries nested in the entry with the given fields. -/
def listedBelow (space : Scalar) : List (Scalar × Value) → List (Scalar × Value)
  | [] => []
  | (field, value) :: rest =>
    if field == .text "nested" then listed space value else listedBelow space rest

end

/-- The entries of a manifest with their namespaces, in the order in which they are read. -/
def entries (data : Value) : List (Scalar × Value) :=
  match data.get? "namespaces" with
  | some (.map spaces) => spaces.flatMap fun space => listed (spaceOf space.1) space.2
  | _ => []

/-- The entry gives the symbol. -/
def IsSymbolOf (e : Scalar × Value) (s : ListedSymbol) : Prop :=
  ∃ origin container, symbolOf origin e.1 container e.2 = .ok s

/-- Exactly the well-written entries give symbols as they should be. -/
theorem IsSymbolOf.isTyped_eq {e : Scalar × Value} {s : ListedSymbol} (h : IsSymbolOf e s) :
    s.isTyped = isWellWritten e := by
  obtain ⟨origin, container, h⟩ := h
  obtain ⟨hspace, name, hname, hsplit, hbase, hinterfaces⟩ := symbolOf_ok h
  have harity : decide (0 ≤ s.symbol.arity) = (e.2.get? "name").all Value.isName := by
    rw [hname, Option.all_some, Value.isName, hsplit, Option.any_some]
  rw [ListedSymbol.isTyped, isWellWritten, Value.isWellWritten, hspace, harity, hbase,
    all_isKey_baseOf, all_isKey_interfacesOf hinterfaces, Bool.and_assoc, Bool.and_assoc,
    Bool.and_assoc]

/-- What comes of entries: a symbol of each, or a fault that is told unless an entry breaks with
it. -/
def Accounts (es : List (Scalar × Value)) : Except ManifestFault (List ListedSymbol) → Prop
  | .ok symbols => List.Forall₂ IsSymbolOf es symbols
  | .error fault => fault.text?.isSome = true ∨ ∃ e ∈ es, e.2.Breaks fault

theorem accounts_nil : Accounts [] (.ok []) := .nil

/-- A fault that is told stops the reading, whatever entries there are. -/
theorem accounts_told {es : List (Scalar × Value)} {fault : ManifestFault}
    (h : fault.text?.isSome = true) : Accounts es (.error fault) := .inl h

/-- Entries that are read after others. -/
theorem Accounts.append {es es' : List (Scalar × Value)}
    {x y : Except ManifestFault (List ListedSymbol)}
    (hx : Accounts es x) (hy : Accounts es' y) :
    Accounts (es ++ es') (do
      let as ← x
      let bs ← y
      return as ++ bs) := by
  cases x with
  | error fault =>
    exact hx.imp id fun ⟨e, he, hbreaks⟩ => ⟨e, List.mem_append_left _ he, hbreaks⟩
  | ok as =>
    cases y with
    | error fault =>
      exact hy.imp id fun ⟨e, he, hbreaks⟩ => ⟨e, List.mem_append_right _ he, hbreaks⟩
    | ok bs => exact List.rel_append hx hy

/-- Entries that are read after the one around them. -/
theorem Accounts.cons (origin : String) (space : Scalar) (container : Option String) {e : Value}
    {es : List (Scalar × Value)} {f : ListedSymbol → Except ManifestFault (List ListedSymbol)}
    (h : ∀ s, Accounts es (f s)) :
    Accounts ((space, e) :: es) (do
      let s ← symbolOf origin space container e
      let ss ← f s
      return s :: ss) := by
  cases hs : symbolOf origin space container e with
  | error fault =>
    exact (symbolOf_error hs).imp id fun hbreaks => ⟨(space, e), List.mem_cons_self, hbreaks⟩
  | ok s =>
    rw [ok_bind]
    have hes := h s
    cases hf : f s with
    | error fault =>
      rw [hf] at hes
      exact hes.imp id fun ⟨e', he', hbreaks⟩ => ⟨e', List.mem_cons_of_mem _ he', hbreaks⟩
    | ok ss =>
      rw [hf] at hes
      exact List.Forall₂.cons ⟨origin, container, hs⟩ hes

mutual

/-- A list of entries accounts for the entries in it. -/
theorem accounts_symbolsOf (origin : String) (space : Scalar) (container : Option String) :
    (v : Value) → Accounts (listed space v) (symbolsOf origin space container v)
  | .list items => by
    rw [listed, symbolsOf]
    exact accounts_symbolsOfAll origin space container items
  | .scalar _ | .pair _ _ | .set _ | .map _ => accounts_told rfl

theorem accounts_symbolsOfAll (origin : String) (space : Scalar) (container : Option String) :
    (items : List Value) →
      Accounts (listedAll space items) (symbolsOfAll origin space container items)
  | [] => accounts_nil
  | .map fields :: rest => by
    have hentry := Accounts.cons origin space container (e := .map fields) fun s =>
      (accounts_nestedOf origin space s.symbol.key fields).append
        (accounts_symbolsOfAll origin space container rest)
    simp only [bind_assoc, pure_bind] at hentry
    rw [listedAll, symbolsOfAll]
    exact hentry
  | .scalar _ :: _ | .list _ :: _ | .pair _ _ :: _ | .set _ :: _ => accounts_told rfl

theorem accounts_nestedOf (origin : String) (space : Scalar) (container : String) :
    (fields : List (Scalar × Value)) →
      Accounts (listedBelow space fields) (nestedOf origin space container fields)
  | [] => accounts_nil
  | (field, value) :: rest => by
    rw [listedBelow, nestedOf]
    split
    · exact accounts_symbolsOf origin space (some container) value
    · exact accounts_nestedOf origin space container rest

end

theorem accounts_symbolsOfNamespaces (origin : String) (spaces : List (Scalar × Value)) :
    Accounts (spaces.flatMap fun space => listed (spaceOf space.1) space.2)
      (symbolsOfNamespaces origin spaces) := by
  induction spaces with
  | nil => exact accounts_nil
  | cons space spaces ih =>
    rw [List.flatMap_cons, symbolsOfNamespaces]
    exact (accounts_symbolsOf origin (spaceOf space.1) none space.2).append ih

/-- A manifest accounts for its entries. -/
theorem accounts_symbols (fileName : String) (data : Value) :
    Accounts (entries data) (symbols fileName data) := by
  unfold entries symbols
  cases data.get? "namespaces" with
  | none => exact accounts_told rfl
  | some v =>
    cases v with
    | map spaces => exact accounts_symbolsOfNamespaces _ spaces
    | _ => exact accounts_told rfl

/-- The symbols of entries are as they should be if the entries are. -/
theorem all_isTyped_of_forall₂ {es : List (Scalar × Value)} {symbols : List ListedSymbol}
    (h : List.Forall₂ IsSymbolOf es symbols) :
    symbols.all (·.isTyped) = es.all isWellWritten := by
  induction h with
  | nil => rfl
  | cons hs _ ih => rw [List.all_cons, List.all_cons, hs.isTyped_eq, ih]

end Manifest

/-- A fault has no message exactly if an entry breaks with it. -/
theorem ManifestError.message?_eq_none_iff {es : List (Scalar × Value)} {fault : ManifestFault}
    (h : Manifest.Accounts es (.error fault)) (path : String) :
    (ManifestError.mk path fault).message? = none ↔ ∃ e ∈ es, e.2.Breaks fault := by
  unfold message?
  rw [Option.map_eq_none_iff]
  constructor
  · intro hnone
    refine h.resolve_left fun hsome => ?_
    rw [hnone] at hsome
    cases hsome
  · rintro ⟨e, -, ⟨name, -, -, rfl⟩ | ⟨value, -, -, rfl⟩⟩ <;> rfl

namespace Work

/-- Loading a manifest that holds a data value changes nothing but what is logged. -/
theorem loadManifest_run {w : Workspace} {path : Path} {bytes : ByteArray} {data : Value}
    (hbytes : w.files.readBytes path.text = .ok bytes)
    (hdata : w.files.host.data bytes = .ok data) :
    ∃ log, (loadManifest path).run.run w
      = ((Manifest.symbols path.name data).mapError fun fault => .manifest ⟨path.text, fault⟩,
        { w with log := log }) := by
  obtain ⟨log, hrun⟩ := looks_loadManifest path w
  rw [answer_loadManifest, hbytes, mapError_ok, ok_bind, Manifest.symbolsIn, hdata] at hrun
  exact ⟨log, hrun⟩

/-- Loading a manifest that holds a data value gives a symbol for each entry, or else a fault of
this manifest. The symbols hold keys and numbers of type parameters, in namespaces that are texts,
exactly if all entries are well written, and a fault has no message exactly if an entry breaks with
it; so well-written entries give symbols as they should be, or a fault with a message. -/
theorem loadManifest_outcome {w : Workspace} {path : Path} {bytes : ByteArray} {data : Value}
    (hbytes : w.files.readBytes path.text = .ok bytes)
    (hdata : w.files.host.data bytes = .ok data) :
    ∃ result w', (loadManifest path).run.run w = (result, w') ∧ w'.files = w.files
      ∧ (match result with
        | .ok symbols => List.Forall₂ Manifest.IsSymbolOf (Manifest.entries data) symbols
          ∧ symbols.all (·.isTyped) = (Manifest.entries data).all Manifest.isWellWritten
        | .error e => ∃ m : ManifestError, e = .manifest m ∧ m.path = path.text
          ∧ (m.message? = none ↔ ∃ e ∈ Manifest.entries data, e.2.Breaks m.fault))
      ∧ ((Manifest.entries data).all Manifest.isWellWritten = true →
        match result with
        | .ok symbols => symbols.all (·.isTyped) = true
        | .error e => ∃ m text, e = .manifest m ∧ m.message? = some text) := by
  obtain ⟨log, hrun⟩ := loadManifest_run hbytes hdata
  have haccounts := Manifest.accounts_symbols path.name data
  refine ⟨_, _, hrun, rfl, ?_⟩
  cases hsymbols : Manifest.symbols path.name data with
  | ok symbols =>
    rw [hsymbols] at haccounts
    have htyped := Manifest.all_isTyped_of_forall₂ haccounts
    exact ⟨⟨haccounts, htyped⟩, htyped.trans⟩
  | error fault =>
    rw [hsymbols] at haccounts
    have hnone := ManifestError.message?_eq_none_iff haccounts path.text
    refine ⟨⟨⟨path.text, fault⟩, rfl, rfl, hnone⟩, fun hwritten => ?_⟩
    obtain ⟨text, htext⟩ := Option.ne_none_iff_exists'.mp fun hm => by
      obtain ⟨e, he, hbreaks⟩ := hnone.mp hm
      have he := (Bool.and_eq_true_iff.mp (List.all_eq_true.mp hwritten e he)).2
      exact Value.not_breaks_of_isWellWritten he fault hbreaks
    exact ⟨⟨path.text, fault⟩, text, rfl, htext⟩

/-- A manifest with a nested entry. -/
theorem loadManifest_outcome_nested :
    let data : Value := .map [(.text "namespaces", .map [(.text "A", .list [.map [
      (.text "name", .text "B"), (.text "nested", .list [.map [
        (.text "interfaces", .list [.text "I"]), (.text "name", .text "C")]])]])])]
    let w : Workspace := { files := {
      entries := [(["m.yaml"], .file ⟨Encoding.encode "", .set 0⟩)]
      host := { data := fun _ => .ok data } } }
    ∃ symbols w', (loadManifest (Path.ofString "m.yaml")).run.run w = (.ok symbols, w')
      ∧ symbols.map (·.symbol.key) = ["A.B", "A.B.C"] ∧ symbols.all (·.isTyped) = true := by
  intro data w
  have hbytes : w.files.readBytes (Path.ofString "m.yaml").text = .ok (Encoding.encode "") := by
    decide +kernel
  have hwritten : (Manifest.entries data).all Manifest.isWellWritten = true := by decide +kernel
  have hkeys : (Manifest.symbols "m.yaml" data).toOption.map (·.map (·.symbol.key))
      = some ["A.B", "A.B.C"] := by decide +kernel
  obtain ⟨symbols, hsymbols, hkeys⟩ := Option.map_eq_some_iff.mp hkeys
  obtain ⟨result, w', hrun, -, -, htyped⟩ := loadManifest_outcome hbytes rfl
  obtain ⟨log, hloaded⟩ := loadManifest_run hbytes rfl
  rw [show (Path.ofString "m.yaml").name = "m.yaml" by decide +kernel, ok_of_toOption hsymbols,
    hrun] at hloaded
  obtain ⟨rfl, -⟩ := Prod.mk.inj hloaded
  exact ⟨symbols, w', hrun, hkeys, htyped hwritten⟩

/-- A name with a malformed arity breaks a manifest without a message. -/
theorem loadManifest_malformed_arity :
    let data : Value := .map [(.text "namespaces", .map [(.text "A", .list [.map [
      (.text "name", .text "B\x60x")]])])]
    let w : Workspace := { files := {
      entries := [(["m.yaml"], .file ⟨Encoding.encode "", .set 0⟩)]
      host := { data := fun _ => .ok data } } }
    ∃ m w', (loadManifest (Path.ofString "m.yaml")).run.run w = (.error (.manifest m), w')
      ∧ m.message? = none := by
  intro data w
  have hbytes : w.files.readBytes (Path.ofString "m.yaml").text = .ok (Encoding.encode "") := by
    decide +kernel
  have hfault : Manifest.symbols "m.yaml" data = .error (.badArity "B\x60x") := rfl
  obtain ⟨log, hrun⟩ := loadManifest_run hbytes rfl
  rw [show (Path.ofString "m.yaml").name = "m.yaml" by decide +kernel, hfault] at hrun
  exact ⟨_, _, hrun, rfl⟩

end Work

end NullableMarker
