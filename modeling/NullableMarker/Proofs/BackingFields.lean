import NullableMarker.Proofs.LazyBinding
import NullableMarker.Proofs.OpenFailures
import NullableMarker.Proofs.PartialTables

/-!
# Properties and the fields behind them

What judging one declaration leaves behind does not show in what is decided for another, so a
decision is a function of the declaration and of the environment. Properties and fields have tables
of their own, which ask the same questions about the type in another order, and only a property may
be guarded. So of two declarations with the same type, the field is optional if the property is.

* `Environment.judge` — judging a declaration without a state
* `Environment.decisions_eq` — decisions do not depend on each other
* `Environment.optional_property`, `Environment.optional_field` — when they are optional
* `Tree.judgements_backing_field` — a property beside a field with the same type
-/

namespace NullableMarker

/-! ## Rules -/

/-- Rules that apply alike. -/
theorem firstRule_congr {α : Type} {p : Profile} {x y : α} {rules : List (Rule α)}
    (h : ∀ rule ∈ rules, rule.applies p x = rule.applies p y) :
    firstRule p x rules = firstRule p y rules := by
  induction rules with
  | nil => rfl
  | cons rule rules ih =>
    rw [firstRule, firstRule, h rule List.mem_cons_self,
      ih fun r hr => h r (List.mem_cons_of_mem rule hr)]

/-- The rules about types look nothing up but keys. -/
theorem SiteKind.byType_congr (kind : SiteKind) (p : Profile) {T U : SymbolTable}
    (h : ∀ key, T.get? key = U.get? key) (x : TypeSymbol) :
    ∀ rule ∈ kind.rules.byType, rule.applies p ⟨T, x⟩ = rule.applies p ⟨U, x⟩ := by
  have hmessage : KnownType.isMessage ⟨T, x⟩ p = KnownType.isMessage ⟨U, x⟩ p :=
    SymbolTable.implements_congr h x _ _
  cases kind with
  | property =>
    simpa [rules, propertyRules, KnownType.isString, KnownType.isByteString,
      KnownType.isCollection] using hmessage
  | field =>
    simpa [rules, fieldRules, KnownType.isStringOrByteString, KnownType.isString,
      KnownType.isByteString] using hmessage
  | parameter => simp [rules, parameterRules]

theorem SymbolTable.Alike.get?_eq {T U : SymbolTable} (h : T.Alike Eq U) (key : String) :
    T.get? key = U.get? key := Environment.eq_of_rel_eq (h.get? key)

/-! ## Types that compare equal -/

/-- A type that compares equal to one without a base class, whose interfaces are told by keys, is
that type. -/
theorem TypeSymbol.eq_of_beq {s t : TypeSymbol} {keys : List String} (hbase : t.base = none)
    (hinterfaces : t.interfaces = keys.map .key) (h : (s == t) = true) : s = t := by
  obtain ⟨name, space, kind, arity, containing, special, base, interfaces, origin⟩ := s
  obtain ⟨name', space', kind', arity', containing', special', base', interfaces', origin'⟩ := t
  subst hbase hinterfaces
  have h : (name == name' && (space == space' && (kind == kind' && (arity == arity'
      && (containing == containing' && (special == special' && (base == none
        && (interfaces == keys.map .key && origin == origin')))))))) = true := h
  simp only [Bool.and_eq_true, beq_iff_eq] at h
  obtain ⟨rfl, rfl, rfl, rfl, rfl, rfl, hnone, hrefs, rfl⟩ := h
  rw [TypeRef.eq_keys_of_beq hrefs]
  cases base with
  | none => rfl
  | some r => cases hnone

/-! ## Judging without a state -/

namespace Environment

/-- The declared type of a declaration, before anything else is looked up. -/
def typeOf (env : Environment) (s : Site) : Except BadReference (Option TypeSymbol) :=
  s.declaration.typeOf.run' env.resolution

/-- The setter of a property refuses null. -/
def isGuarded (env : Environment) (p : Profile) (s : Site) : Except BadReference Bool :=
  (p.isGuarded s.declaration).run' env.resolution

/-- The name and the ruling of the first rule that applies. -/
def ruling? (env : Environment) (p : Profile) (s : Site) :
    Except BadReference (Option (String × Ruling)) := do
  match ← firstRule p s s.kind.rules.bySite with
  | some rule => return some (rule.name, rule.ruling)
  | none =>
    if s.kind.rules.byType.isEmpty then return none
    else
      match ← env.typeOf s with
      | none => return none
      | some symbol =>
        return (← firstRule p ⟨env.table, symbol⟩ s.kind.rules.byType).map
          fun r => (r.name, r.ruling)

/-- Whether a ruling makes a declaration optional. -/
def holds (env : Environment) (p : Profile) (s : Site) : Ruling → Except BadReference Bool
  | .optional => return true
  | .required => return false
  | .unlessGuarded => return !(← env.isGuarded p s)

/-- Judges a site. -/
def judge (env : Environment) (p : Profile) (s : Site) : Except BadReference Decision := do
  let undecided : Decision :=
    { kind := s.kind, name := s.name, offset := s.offset?, line := s.line, optional := false }
  match ← env.ruling? p s with
  | none => return undecided
  | some (name, ruling) =>
    let optional ← env.holds p s ruling
    return { undecided with optional, rule := some name }

variable {env : Environment} {p : Profile}

/-! ## What is left behind does not show -/

theorem keeps_qualifier (h : env.Orderly) {n : ScopedNode} (hn : n ∈ env.nodes)
    (aliasName : Option String) (names : List String) :
    ∃ x, Keeps env.Asked Eq (n.qualifier aliasName names) x := by
  obtain ⟨place, hplace⟩ := List.getElem?_of_mem hn
  have hkeeps := keeps_qualifierAt h place aliasName names
  unfold qualifierAt at hkeeps
  rw [hplace] at hkeeps
  exact hkeeps

theorem keeps_typeOf (h : env.Orderly) {s : Site} (hs : s.declaration ∈ env.nodes) :
    Keeps env.Asked Eq s.declaration.typeOf (env.typeOf s) := by
  refine keeps_first ?_
  obtain ⟨place, hplace⟩ := List.getElem?_of_mem hs
  unfold ScopedNode.typeOf typeIn
  cases hinner : s.declaration.inner with
  | none => exact ⟨_, Keeps.pure rfl⟩
  | some scope =>
    cases s.declaration.node.type? with
    | none => exact ⟨_, Keeps.pure rfl⟩
    | some type =>
      have hopens := opens_of_mem h hplace (.inr hinner)
      have hkeeps := keeps_written (I := env.Asked) (fun _ hst => hst.table)
        (lookupKeeps_of_opens h.startsBefore hopens) type.written
      dsimp only
      rw [Lookup.typeNode_eq]
      exact ⟨_, hkeeps.imp fun _ _ => eq_of_rel_eq⟩

/-- A computation that goes on from a result, if it does from every result. -/
theorem exists_keeps_bind {α β : Type} {m : Resolve α} {f : α → Resolve β}
    (hm : ∃ x, Keeps env.Asked Eq m x) (hf : ∀ a, ∃ y, Keeps env.Asked Eq (f a) y) :
    ∃ y, Keeps env.Asked Eq (m >>= f) y := by
  obtain ⟨x, hx⟩ := hm
  choose g hg using hf
  refine ⟨x >>= g, hx.bind ?_⟩
  rintro a _ rfl
  exact hg a

theorem keeps_isGuardCall (h : env.Orderly) {n : ScopedNode} (hn : n ∈ env.nodes)
    (previous : List Token) : ∃ x, Keeps env.Asked Eq (p.isGuardCall n previous) x := by
  unfold Profile.isGuardCall
  cases Qualifier.before [] previous with
  | none => exact ⟨_, Keeps.pure rfl⟩
  | some q =>
    dsimp only
    split
    · exact ⟨_, Keeps.pure rfl⟩
    · refine exists_keeps_bind (keeps_qualifier h hn q.aliasName q.names) fun o => ?_
      split <;> exact ⟨_, Keeps.pure rfl⟩

theorem keeps_hasGuardCall (h : env.Orderly) {n : ScopedNode} (hn : n ∈ env.nodes)
    (previous ts : List Token) :
    ∃ x, Keeps env.Asked Eq (p.hasGuardCall n previous ts) x := by
  induction ts generalizing previous with
  | nil => exact ⟨_, Keeps.pure rfl⟩
  | cons t rest ih =>
    unfold Profile.hasGuardCall
    split
    · refine exists_keeps_bind (keeps_isGuardCall h hn previous) fun guards => ?_
      split
      · exact ⟨_, Keeps.pure rfl⟩
      · exact ih (t :: previous)
    · exact ih (t :: previous)

theorem keeps_isGuarded (h : env.Orderly) {s : Site} (hs : s.declaration ∈ env.nodes) :
    Keeps env.Asked Eq (p.isGuarded s.declaration) (env.isGuarded p s) := by
  refine keeps_first ?_
  unfold Profile.isGuarded
  split
  · exact ⟨_, Keeps.pure rfl⟩
  · exact keeps_hasGuardCall h hs _ _

theorem keeps_ruling (h : env.Orderly) {s : Site} (hs : s.declaration ∈ env.nodes) :
    Keeps env.Asked Eq (s.ruling? p) (env.ruling? p s) := by
  have hagrees : ∀ {α : Type} (x : Except BadReference α), Agrees Eq x x := by
    intro α x
    cases x with
    | error fault => exact .error fault
    | ok a => exact .ok rfl
  unfold Site.ruling? ruling?
  refine (Keeps.lift (hagrees _)).bind ?_
  rintro found _ rfl
  cases found with
  | some rule => exact Keeps.pure rfl
  | none =>
    dsimp only
    split
    · exact Keeps.pure rfl
    · refine (keeps_typeOf h hs).bind ?_
      rintro type _ rfl
      cases type with
      | none => exact Keeps.pure rfl
      | some symbol =>
        refine Keeps.get_bind fun st hst => ?_
        dsimp only
        rw [firstRule_congr (s.kind.byType_congr p hst.table.get?_eq symbol)]
        refine (Keeps.lift (hagrees _)).bind ?_
        rintro found _ rfl
        exact Keeps.pure rfl

theorem keeps_judge_of_mem (h : env.Orderly) {s : Site} (hs : s.declaration ∈ env.nodes) :
    Keeps env.Asked Eq (s.judge p) (env.judge p s) := by
  have hholds : ∀ ruling, Keeps env.Asked Eq (s.holds p ruling) (env.holds p s ruling) := by
    intro ruling
    cases ruling with
    | optional => exact Keeps.pure rfl
    | required => exact Keeps.pure rfl
    | unlessGuarded =>
      refine (keeps_isGuarded h hs).bind ?_
      rintro guarded _ rfl
      exact Keeps.pure rfl
  unfold Site.judge judge
  refine (keeps_ruling h hs).bind ?_
  rintro found _ rfl
  cases found with
  | none => exact Keeps.pure rfl
  | some ruling =>
    refine (hholds ruling.2).bind ?_
    rintro optional _ rfl
    exact Keeps.pure rfl

/-- Nothing is looked up for a parameter. -/
theorem keeps_judge_parameter {s : Site} (h : s.kind = .parameter) :
    Keeps env.Asked Eq (s.judge p) (env.judge p s) := by
  obtain ⟨o, hfirst, hmem⟩ := firstRule_total (SiteKind.bySite_total .parameter p s)
  unfold Site.judge Site.ruling? judge ruling?
  rw [h, hfirst]
  cases o with
  | none => exact Keeps.pure rfl
  | some rule =>
    rcases List.mem_cons.mp (hmem rule rfl) with rfl | hrule
    · exact Keeps.pure rfl
    · rcases List.mem_pair.mp hrule with rfl | rfl <;> exact Keeps.pure rfl

/-- A site is a parameter, or a node of the tree by itself. -/
theorem declaration_mem_nodes {s : Site} (hs : s ∈ env.sites) :
    s.kind = .parameter ∨ s.declaration ∈ env.nodes := by
  obtain ⟨n, hn, hs⟩ := List.mem_flatMap.mp hs
  have hn := List.mem_of_mem_tail hn
  rcases List.mem_append.mp hs with hs | hs
  · refine .inr ?_
    unfold ScopedNode.ownSite at hs
    split at hs
    · rwa [List.mem_singleton.mp hs]
    · split at hs
      · rwa [List.mem_singleton.mp hs]
      · cases hs
  · refine .inl ?_
    unfold ScopedNode.parameterSites at hs
    split at hs
    · cases hs
    · obtain ⟨node, -, rfl⟩ := List.mem_map.mp hs
      rfl

theorem keeps_judgeAloud (h : env.Orderly) {s : Site} (hs : s ∈ env.sites) :
    Keeps env.Asked Eq (s.judgeAloud p) (env.judge p s) := by
  have hjudge : Keeps env.Asked Eq (s.judge p) (env.judge p s) := by
    rcases declaration_mem_nodes hs with hkind | hmem
    · exact keeps_judge_parameter hkind
    · exact keeps_judge_of_mem h hmem
  intro st hst
  have hout := hjudge st hst
  show Agrees _ ((s.judge p).run st >>= fun r =>
    pure (r.1, { r.2 with remarks := r.2.remarks.push r.1.describe })) _
  generalize (s.judge p).run st = x at hout
  generalize env.judge p s = y at hout
  cases hout with
  | ok hr => exact .ok ⟨hr.1, hr.2.table, hr.2.bound⟩
  | error fault => exact .error fault

/-- What is decided for a declaration does not depend on the others. -/
theorem decisions_eq (h : env.Orderly) (p : Profile) :
    env.decisions p = env.sites.mapM (env.judge p) :=
  (Keeps.mapM fun _ hs => keeps_judgeAloud h hs).run'_eq env.asked_resolution

/-! ## When declarations are optional -/

variable {s : Site}

/-- The rules for properties about types. -/
theorem ruling_propertyRules (t : KnownType) :
    (firstRule p t propertyRules.byType).map (·.map (·.ruling))
      = if t.isStringOrByteString p then .ok (some .unlessGuarded)
        else if t.isCollection p then .ok (some .required)
        else (t.isMessage p).map fun message => if message then some .optional else none := by
  unfold KnownType.isStringOrByteString
  cases hstring : t.isString p with
  | true =>
    simp only [propertyRules, firstRule, hstring]
    rfl
  | false =>
    cases hbytes : t.isByteString p with
    | true =>
      simp only [propertyRules, firstRule, hstring, hbytes]
      rfl
    | false =>
      cases hcollection : t.isCollection p with
      | true =>
        simp only [propertyRules, firstRule, hstring, hbytes, hcollection]
        rfl
      | false =>
        simp only [propertyRules, firstRule, hstring, hbytes, hcollection]
        rcases t.isMessage p with fault | _ | _ <;> rfl

/-- The rules for fields about types. -/
theorem ruling_fieldRules (t : KnownType) :
    (firstRule p t fieldRules.byType).map (·.map (·.ruling))
      = (t.isMessage p).map fun message =>
          if message || t.isStringOrByteString p then some .optional else none := by
  cases hmessage : t.isMessage p with
  | error fault =>
    simp only [fieldRules, firstRule, hmessage]
    rfl
  | ok message =>
    cases hstring : t.isStringOrByteString p <;>
      simp only [fieldRules, firstRule, hmessage, hstring] <;> cases message <;> rfl

/-- What is decided is whether the ruling makes the declaration optional. -/
theorem optional_judge (env : Environment) (p : Profile) (s : Site) :
    (env.judge p s).map (·.optional)
      = (env.ruling? p s).map (·.map (·.2)) >>= fun ruling =>
          ruling.elim (.ok false) (env.holds p s) := by
  unfold judge
  cases env.ruling? p s with
  | error fault => rfl
  | ok found =>
    cases found with
    | none => rfl
    | some found =>
      obtain ⟨name, ruling⟩ := found
      show (env.holds p s ruling >>= _).map _ = env.holds p s ruling
      cases env.holds p s ruling <;> rfl

/-- The rules about types are asked when none about declarations applies. -/
theorem ruling_typed (hsite : firstRule p s s.kind.rules.bySite = .ok none)
    (hkind : s.kind.rules.byType.isEmpty = false) :
    (env.ruling? p s).map (·.map (·.2)) = env.typeOf s >>= fun type =>
      match type with
      | none => .ok none
      | some x => (firstRule p ⟨env.table, x⟩ s.kind.rules.byType).map (·.map (·.ruling)) := by
  unfold ruling?
  rw [hsite]
  show Except.map _ (if s.kind.rules.byType.isEmpty then _ else _) = _
  rw [hkind]
  cases env.typeOf s with
  | error fault => rfl
  | ok type =>
    cases type with
    | none => rfl
    | some x =>
      show Except.map _ (firstRule p _ _ >>= _) = Except.map _ (firstRule p _ _)
      cases firstRule p (⟨env.table, x⟩ : KnownType) s.kind.rules.byType with
      | error fault => rfl
      | ok found => cases found <;> rfl

/-- A property that is not static is optional if it is of a string type and has no guard, or if it is
a message and no collection. -/
theorem optional_property (env : Environment) (p : Profile) (hkind : s.kind = .property)
    (hstatic : s.node.isStatic = false) :
    (env.judge p s).map (·.optional) = env.typeOf s >>= fun type =>
      match type with
      | none => .ok false
      | some x =>
        if KnownType.isStringOrByteString ⟨env.table, x⟩ p then (env.isGuarded p s).map (!·)
        else if KnownType.isCollection ⟨env.table, x⟩ p then .ok false
        else KnownType.isMessage ⟨env.table, x⟩ p := by
  have hsite : firstRule p s s.kind.rules.bySite = .ok none := by
    rw [hkind]
    simp only [SiteKind.rules, propertyRules, firstRule, Site.isStatic, hstatic]
    rfl
  rw [optional_judge, ruling_typed hsite (by rw [hkind]; rfl), hkind]
  cases env.typeOf s with
  | error fault => rfl
  | ok type =>
    cases type with
    | none => rfl
    | some x =>
      show Except.map _ (firstRule p _ propertyRules.byType) >>= _ = ite _ _ _
      rw [ruling_propertyRules]
      cases KnownType.isStringOrByteString ⟨env.table, x⟩ p with
      | true =>
        show (env.isGuarded p s >>= fun guarded => pure (!guarded)) = (env.isGuarded p s).map (!·)
        cases env.isGuarded p s <;> rfl
      | false =>
        cases KnownType.isCollection ⟨env.table, x⟩ p with
        | true => rfl
        | false => rcases KnownType.isMessage ⟨env.table, x⟩ p with fault | _ | _ <;> rfl

/-- A field that is not static is optional if it keeps unknown data, or if it is a message or of a
string type. -/
theorem optional_field (env : Environment) (p : Profile) (hkind : s.kind = .field)
    (hstatic : s.node.isStatic = false) :
    (env.judge p s).map (·.optional)
      = if s.keepsUnknownFields p then .ok true
        else env.typeOf s >>= fun type =>
          match type with
          | none => .ok false
          | some x => (KnownType.isMessage ⟨env.table, x⟩ p).map
              (· || KnownType.isStringOrByteString ⟨env.table, x⟩ p) := by
  rw [optional_judge]
  cases hunknown : s.keepsUnknownFields p with
  | true =>
    unfold ruling?
    rw [hkind]
    simp only [SiteKind.rules, fieldRules, firstRule, Site.isStatic, hstatic, hunknown]
    rfl
  | false =>
    have hsite : firstRule p s s.kind.rules.bySite = .ok none := by
      rw [hkind]
      simp only [SiteKind.rules, fieldRules, firstRule, Site.isStatic, hstatic, hunknown]
      rfl
    rw [ruling_typed hsite (by rw [hkind]; rfl), hkind]
    cases env.typeOf s with
    | error fault => rfl
    | ok type =>
      cases type with
      | none => rfl
      | some x =>
        show Except.map _ (firstRule p _ fieldRules.byType) >>= _
          = (KnownType.isMessage ⟨env.table, x⟩ p).map _
        rw [ruling_fieldRules]
        rcases KnownType.isMessage ⟨env.table, x⟩ p with fault | _ | _
        · rfl
        · cases KnownType.isStringOrByteString ⟨env.table, x⟩ p <;> rfl
        · rfl

/-- A property beside a field of the same type: the field is optional if the property is, and both
are if the type is a message and nothing else. -/
theorem optional_field_of_property {s' : Site} {d d' : Decision} {x : TypeSymbol}
    (hkind : s.kind = .property) (hkind' : s'.kind = .field) (hstatic : s.node.isStatic = false)
    (hstatic' : s'.node.isStatic = false) (htype : env.typeOf s = .ok (some x))
    (htype' : env.typeOf s' = .ok (some x)) (hd : env.judge p s = .ok d)
    (hd' : env.judge p s' = .ok d') :
    (d.optional = true → d'.optional = true)
      ∧ (KnownType.isMessage ⟨env.table, x⟩ p = .ok true →
        KnownType.isStringOrByteString ⟨env.table, x⟩ p = false →
        KnownType.isCollection ⟨env.table, x⟩ p = false →
        d.optional = true ∧ d'.optional = true) := by
  have hproperty := optional_property env p hkind hstatic
  have hfield := optional_field env p hkind' hstatic'
  rw [hd, htype] at hproperty
  rw [hd', htype'] at hfield
  have hproperty : Except.ok d.optional = if _ then _ else if _ then _ else _ := hproperty
  have hfield : Except.ok d'.optional = if _ then _ else Except.map _ _ := hfield
  generalize KnownType.isStringOrByteString ⟨env.table, x⟩ p = strings at hproperty hfield ⊢
  generalize KnownType.isMessage ⟨env.table, x⟩ p = message at hproperty hfield ⊢
  constructor
  · intro hoptional
    rw [hoptional] at hproperty
    cases hunknown : s'.keepsUnknownFields p with
    | true =>
      rw [hunknown] at hfield
      exact Except.ok.inj hfield
    | false =>
      rw [hunknown, if_neg Bool.false_ne_true] at hfield
      cases message with
      | error fault => cases hfield
      | ok message =>
        have hfield : d'.optional = (message || strings) := Except.ok.inj hfield
        cases strings with
        | true => rw [hfield, Bool.or_true]
        | false =>
          -- the property is of no string type, so it is optional as a message
          rw [if_neg Bool.false_ne_true] at hproperty
          split at hproperty
          · cases hproperty
          · rw [hfield, ← Except.ok.inj hproperty, Bool.true_or]
  · rintro rfl rfl hcollection
    rw [hcollection] at hproperty
    refine ⟨Except.ok.inj hproperty, ?_⟩
    split at hfield <;> exact Except.ok.inj hfield

/-! ## Units -/

theorem orderly_ofTree {source : String} {root : Tree} (hroot : root.IsTreeOf source)
    {references : SymbolTable} {origin : String} (henv : ofTree references origin root = .ok env) :
    env.Orderly := by
  obtain ⟨hroot', hnodes⟩ := root_of_ofTree henv
  exact ⟨by rw [hnodes, hroot'], by rw [hroot']; exact hroot.startsBefore⟩

/-- Each decision is that of judging its site by itself. -/
theorem judge_of_mem_judgements {source : String} {root : Tree} (hroot : root.IsTreeOf source)
    {references : SymbolTable} (henv : ofUnit references root = .ok env)
    {js : List (Site × Decision)} (hjs : root.judgements references p = .ok js) {s : Site}
    {d : Decision} (hmem : (s, d) ∈ js) : env.judge p s = .ok d := by
  obtain ⟨env', henv', hsites, hdecisions⟩ := judgements_ok hjs
  obtain rfl := Except.ok.inj (henv'.symm.trans henv)
  rw [decisions_eq (orderly_ofTree hroot henv)] at hdecisions
  have hforall := forall₂_of_ok_mapM hdecisions
  rw [hsites, List.forall₂_map_left_iff, List.forall₂_map_right_iff, List.forall₂_same] at hforall
  exact hforall _ hmem

end Environment

/-- Of a property and a field that are not static and have the same type, the field is optional if the
property is; both are if the type is a message, and no string, no byte string and no collection. -/
theorem Tree.judgements_backing_field {source : String} {defined : List String} {root : Tree}
    (hroot : parseUnit source defined = .ok root) (references : SymbolTable) (p : Profile) :
    (references.Proper → ∃ env js, Environment.ofUnit references root = .ok env
        ∧ root.judgements references p = .ok js)
      ∧ ∀ env js, Environment.ofUnit references root = .ok env →
        root.judgements references p = .ok js →
        ∀ s d s' d', (s, d) ∈ js → (s', d') ∈ js → s.kind = .property → s'.kind = .field →
        s.node.isStatic = false → s'.node.isStatic = false →
        ∀ x, env.typeOf s = .ok (some x) → env.typeOf s' = .ok (some x) →
          (d.optional = true → d'.optional = true)
          ∧ (env.table.implements x p.coreNamespace p.messageInterface = .ok true →
            KnownType.isString ⟨env.table, x⟩ p = false →
            KnownType.isByteString ⟨env.table, x⟩ p = false →
            KnownType.isCollection ⟨env.table, x⟩ p = false →
            d.optional = true ∧ d'.optional = true) := by
  have htree := (Tree.isUnitOf_of_parseUnit hroot).toIsTreeOf
  refine ⟨fun hproper => ?_, fun env js henv hjs s d s' d' hd hd' hkind hkind' hstatic hstatic' x
    htype htype' => ?_⟩
  · obtain ⟨env, henv, hresolution⟩ := Environment.ofTree_total hproper "source" root
    obtain ⟨ds, hds⟩ := Environment.decisions_total hresolution p
    refine ⟨env, env.sites.zip ds, henv, ?_⟩
    rw [judgements, Environment.ofUnit, henv]
    show (env.decisions p >>= _) = _
    rw [hds]
    rfl
  · have hjudge := Environment.judge_of_mem_judgements htree henv hjs hd
    have hjudge' := Environment.judge_of_mem_judgements htree henv hjs hd'
    obtain ⟨himp, hboth⟩ := Environment.optional_field_of_property hkind hkind' hstatic hstatic'
      htype htype' hjudge hjudge'
    refine ⟨himp, fun hmessage hstring hbytes hcollection => hboth hmessage ?_ hcollection⟩
    rw [KnownType.isStringOrByteString, hstring, hbytes]
    rfl

/-- A property of a message type, beside its field. -/
theorem Tree.judgements_backing_field_message :
    ∃ references profile root env js s d s' d' x,
      references = SymbolTable.ofList [{ name := "I", kind := .interface }]
      ∧ profile = { coreNamespace := "", messageInterface := "I" }
      ∧ parseUnit "class M:I{M P{get;}M f;}" [] = .ok root
      ∧ Environment.ofUnit references root = .ok env ∧ root.judgements references profile = .ok js
      ∧ (s, d) ∈ js ∧ (s', d') ∈ js ∧ s.kind = .property ∧ s'.kind = .field
      ∧ env.typeOf s = .ok (some x) ∧ env.typeOf s' = .ok (some x) ∧ x.name = "M"
      ∧ d.optional = true ∧ d'.optional = true := by
  let references := SymbolTable.ofList [{ name := "I", kind := .interface }]
  let profile : Profile := { coreNamespace := "", messageInterface := "I" }
  let x : TypeSymbol := { name := "M", interfaces := [.key "I"], origin := "source" }
  have hproper : references.Proper :=
    SymbolTable.proper_empty.addAll (List.all_eq_true.mp (by decide))
  have hrun : (parseUnit "class M:I{M P{get;}M f;}" []).toOption.bind
      (fun root => (Environment.ofUnit references root).toOption.bind fun env =>
        env.sites[0]?.bind fun s => env.sites[1]?.map fun s' =>
          ((s.kind, s.node.isStatic, (env.typeOf s).toOption.any (·.any (· == x))),
            (s'.kind, s'.node.isStatic, (env.typeOf s').toOption.any (·.any (· == x))),
            (env.table.implements x "" "I").toOption))
      = some ((.property, false, true), (.field, false, true), some true) := by
    decide +kernel
  obtain ⟨root, hroot, hrun⟩ := Option.bind_eq_some_iff.mp hrun
  obtain ⟨env, henv, hrun⟩ := Option.bind_eq_some_iff.mp hrun
  obtain ⟨s, hs, hrun⟩ := Option.bind_eq_some_iff.mp hrun
  obtain ⟨s', hs', hrun⟩ := Option.map_eq_some_iff.mp hrun
  simp only [Prod.mk.injEq] at hrun
  obtain ⟨⟨hkind, hstatic, htype⟩, ⟨hkind', hstatic', htype'⟩, hmessage⟩ := hrun
  have hinterfaces : x.interfaces = ["I"].map .key := rfl
  have hfound : ∀ {found : Except BadReference (Option TypeSymbol)},
      found.toOption.any (·.any (· == x)) = true → found = .ok (some x) := fun h => by
    obtain ⟨_, hok, h⟩ := (Option.any_eq_true _ _).mp h
    obtain ⟨t, rfl, ht⟩ := (Option.any_eq_true _ _).mp h
    rw [ok_of_toOption hok, TypeSymbol.eq_of_beq rfl hinterfaces ht]
  have htype := hfound htype
  have htype' := hfound htype'
  have hroot := ok_of_toOption hroot
  have henv := ok_of_toOption henv
  obtain ⟨htotal, hjudged⟩ := Tree.judgements_backing_field hroot references profile
  obtain ⟨_, js, -, hjs⟩ := htotal hproper
  obtain ⟨_, henv', hsites, -⟩ := judgements_ok hjs
  obtain rfl := Except.ok.inj (henv.symm.trans henv')
  rw [hsites, List.getElem?_map] at hs hs'
  obtain ⟨⟨_, d⟩, hmem, rfl⟩ := Option.map_eq_some_iff.mp hs
  obtain ⟨⟨_, d'⟩, hmem', rfl⟩ := Option.map_eq_some_iff.mp hs'
  have hmem := List.mem_of_getElem? hmem
  have hmem' := List.mem_of_getElem? hmem'
  obtain ⟨-, hboth⟩ := hjudged env js henv hjs _ d _ d' hmem hmem' hkind hkind' hstatic hstatic' x
    htype htype'
  obtain ⟨hoptional, hoptional'⟩ := hboth (ok_of_toOption hmessage) rfl rfl rfl
  exact ⟨references, profile, root, env, js, _, d, _, d', x, rfl, rfl, hroot, henv, hjs, hmem,
    hmem', hkind, hkind', htype, htype', rfl, hoptional, hoptional'⟩

end NullableMarker
