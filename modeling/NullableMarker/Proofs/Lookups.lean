import NullableMarker.Proofs.ExactOutput

/-!
# Lookups side by side

Two resolutions of trees that say the same go alike: they find the same types, bind the same using
directives and fail together. What is found has a property that the table and the aliases have.
Where the two resolutions are one and the same, this is a statement about what names are found to
stand for.

* `Alike` — two computations with related states and results
* `Coupling` — what is kept between the states of two resolutions
* `Tree.written` — all that the resolution of a type reads of it
* `Coupling.alike_lookup` — lookups from scopes that say the same
-/

namespace NullableMarker

/-! ## Two computations -/

section Computations

variable {R : Resolution → Resolution → Prop} {α β γ δ : Type}

/-- From related states both computations fail, or both succeed with related results and states. -/
def Alike (R : Resolution → Resolution → Prop) (post : α → β → Prop) (m : Resolve α)
    (m' : Resolve β) : Prop :=
  ∀ st st', R st st' → match m.run st, m'.run st' with
    | .ok (a, s), .ok (b, s') => post a b ∧ R s s'
    | .error _, .error _ => True
    | _, _ => False

theorem Alike.ok {post : α → β → Prop} {m : Resolve α} {m' : Resolve β} (h : Alike R post m m')
    {st st' s : Resolution} {a : α} (hst : R st st') (hm : m.run st = .ok (a, s)) :
    ∃ b s', m'.run st' = .ok (b, s') ∧ post a b ∧ R s s' := by
  have hruns := h st st' hst
  rw [hm] at hruns
  cases hm' : m'.run st' with
  | error e => rw [hm'] at hruns; cases hruns
  | ok r =>
    rw [hm'] at hruns
    exact ⟨r.1, r.2, rfl, hruns⟩

theorem Alike.imp {post post' : α → β → Prop} {m : Resolve α} {m' : Resolve β}
    (h : Alike R post m m') (himp : ∀ a b, post a b → post' a b) : Alike R post' m m' := by
  intro st st' hst
  have hruns := h st st' hst
  split at hruns
  · exact ⟨himp _ _ hruns.1, hruns.2⟩
  · trivial
  · exact hruns.elim

theorem Alike.pure {post : α → β → Prop} {a : α} {b : β} (h : post a b) :
    Alike R post (Pure.pure a) (Pure.pure b) := fun _ _ hst => ⟨h, hst⟩

theorem Alike.bind {P : α → β → Prop} {Q : γ → δ → Prop} {m : Resolve α} {m' : Resolve β}
    {f : α → Resolve γ} {f' : β → Resolve δ} (h : Alike R P m m')
    (hf : ∀ a b, P a b → Alike R Q (f a) (f' b)) : Alike R Q (m >>= f) (m' >>= f') := by
  intro st st' hst
  have hruns := h st st' hst
  show match (m.run st >>= fun r => (f r.1).run r.2), (m'.run st' >>= fun r => (f' r.1).run r.2) with
    | .ok (a, s), .ok (b, s') => Q a b ∧ R s s'
    | .error _, .error _ => True
    | _, _ => False
  split at hruns
  · next a s b s' hm hm' =>
    rw [hm, hm']
    exact hf a b hruns.1 s s' hruns.2
  · next hm hm' =>
    rw [hm, hm']
    trivial
  · exact hruns.elim

theorem Alike.get : Alike R R get get := fun _ _ hst => ⟨hst, hst⟩

theorem Alike.modify {f f' : Resolution → Resolution} (h : ∀ st st', R st st' → R (f st) (f' st')) :
    Alike R (fun _ _ => True) (modify f) (modify f') := fun st st' hst => ⟨trivial, h st st' hst⟩

/-- The same outcome on both sides. -/
theorem Alike.lift {post : α → α → Prop} {x : Except BadReference α}
    (h : ∀ a, x = .ok a → post a a) :
    Alike R post (liftM x : Resolve α) (liftM x : Resolve α) := by
  intro st st' hst
  cases x with
  | error e => trivial
  | ok a => exact ⟨h a rfl, hst⟩

theorem Alike.lift_self (x : Except BadReference α) :
    Alike R Eq (liftM x : Resolve α) (liftM x : Resolve α) := Alike.lift fun _ _ => rfl

theorem Alike.forM {P : α → β → Prop} {xs : List α} {ys : List β} {f : α → Resolve PUnit}
    {g : β → Resolve PUnit} (h : List.Forall₂ P xs ys)
    (hf : ∀ a b, P a b → Alike R (fun _ _ => True) (f a) (g b)) :
    Alike R (fun _ _ => True) (xs.forM f) (ys.forM g) := by
  induction h with
  | nil => exact Alike.pure trivial
  | cons hab _ ih => exact (hf _ _ hab).bind fun _ _ _ => ih

theorem Alike.foldlM {P : α → β → Prop} {Q : γ → δ → Prop} {xs : List α} {ys : List β}
    {f : γ → α → Resolve γ} {g : δ → β → Resolve δ} (h : List.Forall₂ P xs ys)
    (hf : ∀ c d, Q c d → ∀ a b, P a b → Alike R Q (f c a) (g d b)) {c : γ} {d : δ} (hcd : Q c d) :
    Alike R Q (xs.foldlM f c) (ys.foldlM g d) := by
  induction h generalizing c d with
  | nil => exact Alike.pure hcd
  | cons hab _ ih => exact (hf c d hcd _ _ hab).bind fun _ _ h => ih h

theorem Alike.mapM {P : α → β → Prop} {Q : γ → δ → Prop} {xs : List α} {ys : List β}
    {f : α → Resolve γ} {g : β → Resolve δ} (h : List.Forall₂ P xs ys)
    (hf : ∀ a b, P a b → Alike R Q (f a) (g b)) :
    Alike R (List.Forall₂ Q) (xs.mapM f) (ys.mapM g) := by
  induction h with
  | nil => exact Alike.pure .nil
  | cons hab _ ih =>
    rw [List.mapM_cons, List.mapM_cons]
    refine (hf _ _ hab).bind fun c d hcd => ih.bind fun cs ds hcds => ?_
    exact Alike.pure (.cons hcd hcds)

end Computations

/-! ## Tables with an entry replaced -/

section Upsert

variable {α β : Type} [BEq α] [LawfulBEq α]

theorem lookup_upsert_self (k : α) (v : β) (l : List (α × β)) :
    (upsert k v l).lookup k = some v := by
  induction l with
  | nil => simp [upsert]
  | cons e l ih =>
    obtain ⟨k', v'⟩ := e
    unfold upsert
    by_cases h : k' == k
    · simp [eq_of_beq h]
    · have h' : (k == k') = false := by
        rw [Bool.not_eq_true] at h
        rw [Bool.beq_comm, h]
      simp [h, List.lookup_cons, h', ih]

theorem lookup_upsert_of_ne {k k' : α} (h : k' ≠ k) (v : β) (l : List (α × β)) :
    (upsert k v l).lookup k' = l.lookup k' := by
  have hk' : (k' == k) = false := beq_false_of_ne h
  induction l with
  | nil => simp [upsert, List.lookup_cons, hk']
  | cons e l ih =>
    obtain ⟨k₁, v₁⟩ := e
    unfold upsert
    by_cases h₁ : k₁ == k
    · have : k₁ = k := eq_of_beq h₁
      subst this
      simp [List.lookup_cons, hk']
    · simp [h₁, List.lookup_cons, ih]

end Upsert

namespace Resolution

theorem bindings_setBindings_self (st : Resolution) (id : Nat) (b : Bindings) :
    (st.setBindings id b).bindings id = b := by
  rw [bindings, setBindings, lookup_upsert_self]
  rfl

end Resolution

/-! ## What a type says -/

/-- All that the resolution of a type reads of it. -/
inductive Written where
  | keyword (word : String)
  | name (aliasName : Option String) (segments : List (String × Nat))
  | array
  | other
  deriving DecidableEq

/-- A keyword, or a name of a single word. -/
def Written.isOneWord : Written → Bool
  | keyword _ => true
  | name none [(_, arity)] => arity == 0
  | name (some _) [] => true
  | _ => false

namespace Tree

/-- What a name says: its alias, and its segments with their arities. -/
def writtenName (t : Tree) : Option String × List (String × Nat) :=
  (t.aliasToken?.map (·.value), t.segments.map fun s => (s.name, s.arity))

/-- What a type says, without the marks around it. -/
def written (t : Tree) : Written :=
  match t.unwrapped? with
  | none => .other
  | some core =>
    if core.isNode (· == .predefinedType) then .keyword ((core.firstToken?.map (·.value)).getD "")
    else if core.isNode (· == .name) then .name core.writtenName.1 core.writtenName.2
    else if core.isNode (· == .arrayType) then .array
    else .other

end Tree

/-- Resolves what a type says. -/
def Lookup.written (l : Lookup) : Written → Resolve (Option TypeSymbol)
  | .keyword word => do
    let table := (← get).table
    return (Special.ofWord? word).bind table.special?
  | .name aliasName segments => do return (← l.qualified aliasName segments).bind (·.type?)
  | .array => do return (← get).table.lookup "System" "Array" 0
  | .other => return none

theorem Lookup.typeNode_eq (l : Lookup) (t : Tree) : l.typeNode t = l.written t.written := by
  unfold Lookup.typeNode Tree.written
  cases t.unwrapped? with
  | none => rfl
  | some core =>
    dsimp only
    split
    · rfl
    · split
      · rfl
      · split <;> rfl

/-- Using directives that say the same. -/
structure UsingAlike (d d' : Tree) : Prop where
  usingAlias : d'.usingAlias? = d.usingAlias?
  isStatic : d'.isStaticUsing = d.isStaticUsing
  target : d'.type?.map (fun t => (t.isNode (· == .name), t.writtenName, t.written))
    = d.type?.map (fun t => (t.isNode (· == .name), t.writtenName, t.written))

theorem UsingAlike.refl (d : Tree) : UsingAlike d d := ⟨rfl, rfl, rfl⟩

/-! ## What is asked for -/

theorem exists_of_mem_mapM {α β ε : Type} {f : α → Except ε β} {xs : List α} {ys : List β} {y : β}
    (h : xs.mapM f = .ok ys) (hy : y ∈ ys) : ∃ x ∈ xs, f x = .ok y :=
  exists_of_forall₂ (forall₂_of_ok_mapM h).flip hy

theorem mapM_congr {α β ε : Type} {f g : α → Except ε β} {xs : List α} (h : ∀ x ∈ xs, f x = g x) :
    xs.mapM f = xs.mapM g := by
  induction xs with
  | nil => rfl
  | cons x xs ih =>
    rw [List.mapM_cons, List.mapM_cons, h x List.mem_cons_self,
      ih fun y hy => h y (List.mem_cons_of_mem x hy)]

/-- The names that are looked up for a type, or the keyword that it is. -/
def Written.names : Written → List String
  | keyword word => [word]
  | name _ segments => segments.map (·.1)
  | array => ["Array"]
  | other => []

/-- A name says what it is written as. -/
theorem Tree.written_of_isName {t : Tree} (h : t.isNode (· == .name) = true) :
    t.written = .name t.writtenName.1 t.writtenName.2 := by
  cases t with
  | token s => cases h
  | node kind cs =>
    obtain rfl : kind = .name := eq_of_beq h
    rfl

/-- The names that are looked up to bind a using directive. -/
def Tree.targetNames (directive : Tree) : List String :=
  (directive.type?.map (·.written.names)).getD []

/-- The names that are looked up to bind the using directives of a frame. -/
def Frame.names : Frame → List String
  | space _ usings => usings.flatMap (·.targetNames)
  | type _ _ | method _ => []

/-- What is asked of tables, and which types come out. -/
structure Inquiry where
  /-- The names that are looked up. -/
  asked : String → Prop
  /-- The keys that types are looked up under. -/
  keys : String → Prop
  /-- The types in which nested types are looked up. -/
  entered : TypeSymbol → Prop
  /-- What names may be found to stand for. -/
  found : TypeSymbol → Prop
  /-- What is found in the table. -/
  current : TypeSymbol → Prop
  found_of_current : ∀ {s}, current s → found s
  entered_of_found : ∀ {s}, found s → entered s

/-- Two tables give the same answers to what is asked. -/
structure Inquiry.Answers (Q : Inquiry) (T U : SymbolTable) : Prop where
  get? : ∀ {key}, Q.keys key →
    U.get? key = T.get? key ∧ ∀ s, T.get? key = some s → Q.current s
  lookup : ∀ {name}, Q.asked name → ∀ space arity,
    U.lookup space name arity = T.lookup space name arity
      ∧ ∀ s, T.lookup space name arity = some s → Q.current s
  nested : ∀ {c name}, Q.entered c → Q.asked name → ∀ arity,
    U.nested c name arity = T.nested c name arity
      ∧ ∀ s, T.nested c name arity = .ok (some s) → Q.current s
  hasNamespace : ∀ {name}, Q.asked name → ∀ space,
    U.hasNamespace (joinName space name) = T.hasNamespace (joinName space name)
  special? : ∀ {word}, Q.asked word → ∀ w, Special.ofWord? word = some w →
    U.special? w = T.special? w ∧ ∀ s, T.special? w = some s → Q.found s

/-- What is found in a type or its base classes is nested in one of them by its key. -/
theorem SymbolTable.exists_of_nested {T : SymbolTable} {c s : TypeSymbol} {name : String}
    {arity : Int} (h : T.nested c name arity = .ok (some s)) :
    ∃ container : TypeSymbol,
      T.get? (container.key ++ "." ++ metadataName name arity) = some s := by
  unfold nested Ancestry.findSome? at h
  split at h
  · next found _ hfound =>
    cases h
    obtain ⟨b, -, hb⟩ := List.exists_of_findSome?_eq_some hfound
    exact ⟨b, hb⟩
  · cases h
  · cases h

namespace Inquiry

variable {Q : Inquiry} {T U : SymbolTable}

/-- Any table answers as it does itself. -/
theorem answers_refl (hcurrent : ∀ key s, T.get? key = some s → Q.current s)
    (hfound : ∀ w s, T.special? w = some s → Q.found s) : Q.Answers T T where
  get? _ := ⟨rfl, hcurrent _⟩
  lookup _ _ _ := ⟨rfl, hcurrent _⟩
  nested _ _ _ := ⟨rfl, fun s hs => (SymbolTable.exists_of_nested hs).elim fun _ => hcurrent _ s⟩
  hasNamespace _ _ := rfl
  special? _ w _ := ⟨rfl, hfound w⟩

namespace Answers

theorem inNamespace? (h : Q.Answers T U) {name : String} (hname : Q.asked name) (space : String)
    (arity : Nat) :
    U.inNamespace? space name arity = T.inNamespace? space name arity
      ∧ ∀ s, T.inNamespace? space name arity = some (.type s) → Q.current s := by
  obtain ⟨hlookup, hcurrent⟩ := h.lookup hname space arity
  unfold SymbolTable.inNamespace?
  rw [hlookup, h.hasNamespace hname]
  refine ⟨rfl, fun s hs => ?_⟩
  split at hs
  · next t ht =>
    cases hs
    exact hcurrent s ht
  · split at hs <;> cases hs

theorem member (h : Q.Answers T U) {target : Target} (htarget : ∀ s, target = .type s → Q.entered s)
    {name : String} (hname : Q.asked name) (arity : Nat) :
    U.member target name arity = T.member target name arity
      ∧ ∀ s, T.member target name arity = .ok (some (.type s)) → Q.current s := by
  cases target with
  | space space =>
    obtain ⟨heq, hcurrent⟩ := h.inNamespace? hname space arity
    exact ⟨congrArg Except.ok heq, fun s hs => hcurrent s (Except.ok.inj hs)⟩
  | type c =>
    obtain ⟨heq, hcurrent⟩ := h.nested (htarget c rfl) hname arity
    unfold SymbolTable.member
    dsimp only
    rw [heq]
    refine ⟨rfl, fun s hs => ?_⟩
    obtain ⟨o, ho, hmap⟩ := ok_of_map hs
    obtain ⟨u, rfl, hu⟩ := Option.map_eq_some_iff.mp hmap
    cases hu
    exact hcurrent _ ho

/-- What a member of a target stands for is in the table. -/
theorem follow (h : Q.Answers T U) {target : Option Target}
    (htarget : ∀ s, target = some (.type s) → Q.entered s) {segments : List (String × Nat)}
    (hsegments : ∀ n ∈ segments.map (·.1), Q.asked n) :
    U.follow target segments = T.follow target segments
      ∧ ∀ s, T.follow target segments = .ok (some (.type s)) →
        (segments = [] → ∀ u, target = some (.type u) → Q.current u) → Q.current s := by
  induction segments generalizing target with
  | nil =>
    refine ⟨rfl, fun s hs hcurrent => hcurrent rfl s ?_⟩
    exact Except.ok.inj hs
  | cons segment segments ih =>
    obtain ⟨name, arity⟩ := segment
    cases target with
    | none => exact ⟨rfl, fun s hs => by cases hs⟩
    | some target =>
      obtain ⟨heq, hmember⟩ := h.member (fun s hs => htarget s (congrArg some hs))
        (hsegments name List.mem_cons_self) arity
      unfold SymbolTable.follow
      dsimp only
      rw [heq]
      cases hnext : T.member target name arity with
      | error fault => exact ⟨rfl, fun s hs => by cases hs⟩
      | ok next =>
        have hcurrent : ∀ s, next = some (.type s) → Q.current s := by
          rintro s rfl
          exact hmember s hnext
        obtain ⟨hrest, hfollow⟩ := ih
          (fun s hs => Q.entered_of_found (Q.found_of_current (hcurrent s hs)))
          fun n hn => hsegments n (List.mem_cons_of_mem name hn)
        exact ⟨hrest, fun s hs _ => hfollow s hs fun _ => hcurrent⟩

theorem candidates (h : Q.Answers T U) {b : Bindings} (hstatics : ∀ s ∈ b.statics, Q.entered s)
    {name : String} (hname : Q.asked name) (arity : Nat) :
    b.candidates U name arity = b.candidates T name arity
      ∧ ∀ found, b.candidates T name arity = .ok found → ∀ s ∈ found, Q.current s := by
  have himports : b.imports.filterMap (U.lookup · name arity)
      = b.imports.filterMap (T.lookup · name arity) :=
    List.filterMap_congr fun space _ => (h.lookup hname space arity).1
  have hnested : b.statics.mapM (U.nested · name arity)
      = b.statics.mapM (T.nested · name arity) :=
    mapM_congr fun c hc => (h.nested (hstatics c hc) hname arity).1
  unfold Bindings.candidates
  rw [himports, hnested]
  refine ⟨rfl, fun found hfound s hs => ?_⟩
  obtain ⟨os, hos, hfound⟩ := ok_of_bind hfound
  cases hfound
  rcases List.mem_append.mp hs with hs | hs
  · obtain ⟨space, -, hs⟩ := List.mem_filterMap.mp hs
    exact (h.lookup hname space arity).2 s hs
  · obtain ⟨o, ho, hs⟩ := List.mem_filterMap.mp hs
    obtain rfl : o = some s := hs
    obtain ⟨c, hc, heq⟩ := exists_of_mem_mapM hos ho
    exact (h.nested (hstatics c hc) hname arity).2 s heq

end Answers

end Inquiry

/-! ## Two resolutions -/

/-- What is kept between the states of two resolutions, whose tables give the same answers. -/
structure Coupling extends Inquiry where
  states : Resolution → Resolution → Prop
  /-- The names that directives are told by, on both sides. -/
  ids : Nat → Nat → Prop
  answers : ∀ {st st'}, states st st' → toInquiry.Answers st.table st'.table
  bound_eq : ∀ {st st' i i'}, states st st' → ids i i' → st'.bound.lookup i' = st.bound.lookup i
  found_alias : ∀ {st st' i i' a s}, states st st' → ids i i' →
    (st.bindings i).aliases.lookup a = some (.type s) → found s
  entered_static : ∀ {st st' i i' s}, states st st' → ids i i' → s ∈ (st.bindings i).statics →
    entered s
  states_setBindings : ∀ {st st' i i' b}, states st st' → ids i i' →
    (∀ a s, b.aliases.lookup a = some (.type s) → found s) → (∀ s ∈ b.statics, entered s) →
    states (st.setBindings i b) (st'.setBindings i' b)
  states_remark : ∀ {st st'} (r r' : Array String), states st st' →
    states { st with remarks := r } { st' with remarks := r' }

namespace Coupling

variable (C : Coupling)

/-- The same was found on both sides, and it may be found. -/
def Finds (o o' : Option Target) : Prop := o' = o ∧ ∀ s, o = some (.type s) → C.found s

/-- The same was found on both sides, and it is in the table. -/
def FindsCurrent (o o' : Option Target) : Prop := o' = o ∧ ∀ s, o = some (.type s) → C.current s

/-- Frames that say the same, of which no more is asked than what is answered alike. -/
inductive FrameAlike : Frame → Frame → Prop
  | space (name : String) {us us' : List Tree} (hus : List.Forall₂ UsingAlike us us')
      (hid : Option.Rel C.ids (usingsId? us) (usingsId? us'))
      (hasked : ∀ n ∈ (Frame.space name us).names, C.asked n) :
      FrameAlike (.space name us) (.space name us')
  | type {key : String} (hkey : C.keys key) (ps : List String) :
      FrameAlike (.type key ps) (.type key ps)
  | method (ps : List String) : FrameAlike (.method ps) (.method ps)

/-- Lookups that go alike. A name with type arguments is no alias. -/
structure LookupAlike (l l' : Lookup) : Prop where
  name : ∀ n arity, C.asked n →
    Alike C.states (fun o o' => C.Finds o o' ∧ (arity ≠ 0 → C.FindsCurrent o o'))
      (l.name n arity) (l'.name n arity)
  aliasName : ∀ a, Alike C.states C.Finds (l.alias a) (l'.alias a)

variable {C}

theorem finds_none : C.Finds none none := ⟨rfl, fun _ h => by cases h⟩

theorem findsCurrent_none : C.FindsCurrent none none := ⟨rfl, fun _ h => by cases h⟩

theorem FindsCurrent.finds {o o' : Option Target} (h : C.FindsCurrent o o') : C.Finds o o' :=
  ⟨h.1, fun s hs => C.found_of_current (h.2 s hs)⟩

theorem FindsCurrent.named {o o' : Option Target} (h : C.FindsCurrent o o') (arity : Nat) :
    C.Finds o o' ∧ (arity ≠ 0 → C.FindsCurrent o o') := ⟨h.finds, fun _ => h⟩

theorem named_none (arity : Nat) :
    C.Finds none none ∧ (arity ≠ 0 → C.FindsCurrent none none) := findsCurrent_none.named arity

/-! ### The table -/

theorem alike_follow {target target' : Option Target} {segments : List (String × Nat)}
    (htarget : C.Finds target target') (hsegments : ∀ n ∈ segments.map (·.1), C.asked n)
    {st st' : Resolution} (h : C.states st st') :
    Alike C.states (fun o o' => C.Finds o o'
        ∧ ((segments = [] → C.FindsCurrent target target') → C.FindsCurrent o o'))
      (liftM (st.table.follow target segments)) (liftM (st'.table.follow target' segments)) := by
  obtain ⟨rfl, hfound⟩ := htarget
  obtain ⟨heq, hcurrent⟩ := (C.answers h).follow (fun s hs => C.entered_of_found (hfound s hs))
    hsegments
  rw [heq]
  refine Alike.lift fun o ho => ⟨⟨rfl, ?_⟩, fun hnil => ⟨rfl, ?_⟩⟩
  · rintro s rfl
    cases segments with
    | nil => exact hfound s (Except.ok.inj ho)
    | cons segment segments => exact C.found_of_current (hcurrent s ho fun hnil => by cases hnil)
  · rintro s rfl
    exact hcurrent s ho fun h => (hnil h).2

/-! ### Names and types -/

section Names

variable {l l' : Lookup}

/-- What a name of more than one word stands for is in the table. -/
theorem alike_qualified (hl : C.LookupAlike l l') (aliasName : Option String)
    {segments : List (String × Nat)} (hsegments : ∀ n ∈ segments.map (·.1), C.asked n) :
    Alike C.states (fun o o' => C.Finds o o'
        ∧ ((Written.name aliasName segments).isOneWord = false → C.FindsCurrent o o'))
      (l.qualified aliasName segments) (l'.qualified aliasName segments) := by
  unfold Lookup.qualified
  cases aliasName with
  | some a =>
    have hafter : ∀ o o' : Option Target, C.Finds o o' →
        Alike C.states (fun o o' => C.Finds o o'
            ∧ ((Written.name (some a) segments).isOneWord = false → C.FindsCurrent o o'))
          (do liftM ((← get).table.follow o segments))
          (do liftM ((← get).table.follow o' segments)) := by
      intro o o' ho
      refine Alike.get.bind fun st st' hst => (alike_follow ho hsegments hst).imp ?_
      rintro x x' ⟨hfinds, hcurrent⟩
      refine ⟨hfinds, fun hword => hcurrent ?_⟩
      rintro rfl
      cases hword
    dsimp only
    split
    · refine (Alike.pure ?_).bind hafter
      exact ⟨rfl, fun s hs => by cases hs⟩
    · exact (hl.aliasName a).bind hafter
  | none =>
    cases segments with
    | nil => exact Alike.pure ⟨finds_none, fun _ => findsCurrent_none⟩
    | cons segment rest =>
      obtain ⟨n, arity⟩ := segment
      refine (hl.name n arity (hsegments n List.mem_cons_self)).bind ?_
      rintro o o' ⟨hfinds, hcurrent⟩
      refine Alike.get.bind fun st st' hst => (alike_follow hfinds
        (fun m hm => hsegments m (List.mem_cons_of_mem n hm)) hst).imp ?_
      rintro x x' ⟨hfinds', hcurrent'⟩
      refine ⟨hfinds', fun hword => hcurrent' ?_⟩
      rintro rfl
      refine hcurrent ?_
      rintro rfl
      cases hword

/-- The same type was found on both sides; one that is not told by a single word is in the table. -/
def FindsType (C : Coupling) (x : Written) (o o' : Option TypeSymbol) : Prop :=
  o' = o ∧ ∀ s, o = some s → C.found s ∧ (x.isOneWord = false → C.current s)

theorem alike_written (hl : C.LookupAlike l l') {x : Written} (hx : ∀ n ∈ x.names, C.asked n) :
    Alike C.states (C.FindsType x) (l.written x) (l'.written x) := by
  cases x with
  | keyword word =>
    refine Alike.get.bind fun st st' hst => ?_
    have hanswers := (C.answers hst).special? (hx word List.mem_cons_self)
    dsimp only
    cases hword : Special.ofWord? word with
    | none => exact Alike.pure ⟨rfl, fun s hs => by cases hs⟩
    | some w =>
      obtain ⟨heq, hfound⟩ := hanswers w hword
      exact Alike.pure ⟨heq, fun s hs => ⟨hfound s hs, fun hword => by cases hword⟩⟩
  | name aliasName segments =>
    refine (alike_qualified hl aliasName hx).bind ?_
    rintro o o' ⟨⟨rfl, hfound⟩, hcurrent⟩
    refine Alike.pure ⟨rfl, fun s hs => ?_⟩
    obtain ⟨target, rfl, hs⟩ := Option.bind_eq_some_iff.mp hs
    cases target with
    | space name => cases hs
    | type u =>
      cases hs
      exact ⟨hfound _ rfl, fun hword => (hcurrent hword).2 _ rfl⟩
  | array =>
    refine Alike.get.bind fun st st' hst => ?_
    obtain ⟨heq, hcurrent⟩ := (C.answers hst).lookup (hx "Array" List.mem_cons_self) "System" 0
    exact Alike.pure ⟨heq, fun s hs => ⟨C.found_of_current (hcurrent s hs), fun _ => hcurrent s hs⟩⟩
  | other => exact Alike.pure ⟨rfl, fun s hs => by cases hs⟩

/-- Types that say the same are resolved alike. -/
theorem alike_typeNode (hl : C.LookupAlike l l') {t t' : Tree} (ht : t'.written = t.written)
    (hasked : ∀ n ∈ t.written.names, C.asked n) :
    Alike C.states (C.FindsType t.written) (l.typeNode t) (l'.typeNode t') := by
  rw [Lookup.typeNode_eq, Lookup.typeNode_eq, ht]
  exact alike_written hl hasked

end Names

/-! ### Using directives -/

theorem alike_remark (text text' : String) :
    Alike C.states (fun _ _ => True) (remark text) (remark text') :=
  Alike.modify fun _ _ hst => C.states_remark _ _ hst

section Usings

variable {i i' : Nat}

theorem bindings_eq {st st' : Resolution} (hst : C.states st st') (hid : C.ids i i') :
    st'.bindings i' = st.bindings i := by
  rw [Resolution.bindings, Resolution.bindings, C.bound_eq hst hid]

/-- What the directives bring in, changed alike. -/
theorem alike_setBindings (hid : C.ids i i') {f : Bindings → Bindings}
    (hfound : ∀ st st', C.states st st' → ∀ a s,
      (f (st.bindings i)).aliases.lookup a = some (.type s) → C.found s)
    (hentered : ∀ st st', C.states st st' → ∀ s ∈ (f (st.bindings i)).statics, C.entered s) :
    Alike C.states (fun _ _ => True)
      (modify fun st => st.setBindings i (f (st.bindings i)))
      (modify fun st => st.setBindings i' (f (st.bindings i'))) := by
  refine Alike.modify fun st st' hst => ?_
  rw [bindings_eq hst hid]
  exact C.states_setBindings hst hid (hfound st st' hst) (hentered st st' hst)

theorem alike_addAlias (hid : C.ids i i') (a : String) {target : Target}
    (htarget : ∀ s, target = .type s → C.found s) :
    Alike C.states (fun _ _ => True) (addAlias i a target) (addAlias i' a target) := by
  refine alike_setBindings hid (f := fun b => { b with aliases := upsert a target b.aliases }) ?_
    fun _ _ hst _ hs => C.entered_static hst hid hs
  intro st st' hst c s hs
  by_cases hc : c = a
  · subst hc
    rw [lookup_upsert_self] at hs
    cases hs
    exact htarget s rfl
  · rw [lookup_upsert_of_ne hc] at hs
    exact C.found_alias hst hid hs

theorem alike_addImport (hid : C.ids i i') (name : String) :
    Alike C.states (fun _ _ => True) (addImport i name) (addImport i' name) :=
  alike_setBindings hid (f := fun b => { b with imports := b.imports ++ [name] })
    (fun _ _ hst _ _ hs => C.found_alias hst hid hs) fun _ _ hst _ hs => C.entered_static hst hid hs

theorem alike_addStatic (hid : C.ids i i') {s : TypeSymbol} (hs : C.entered s) :
    Alike C.states (fun _ _ => True) (addStatic i s) (addStatic i' s) := by
  refine alike_setBindings hid (f := fun b => { b with statics := b.statics ++ [s] })
    (fun _ _ hst _ _ hs => C.found_alias hst hid hs) fun st st' hst u hu => ?_
  rcases List.mem_append.mp hu with hu | hu
  · exact C.entered_static hst hid hu
  · exact List.mem_singleton.mp hu ▸ hs

theorem lookupAlike_fromUsing (hid : C.ids i i') {l l' : Lookup} (hl : C.LookupAlike l l')
    (space : String) :
    C.LookupAlike (Lookup.fromUsing space i l) (Lookup.fromUsing space i' l') where
  name n arity hn := by
    refine Alike.get.bind fun st st' hst => ?_
    obtain ⟨heq, hcurrent⟩ := (C.answers hst).inNamespace? hn space arity
    rw [heq]
    split
    · next target htarget =>
      refine Alike.pure (FindsCurrent.named ⟨rfl, ?_⟩ arity)
      rintro s ⟨rfl⟩
      exact hcurrent s htarget
    · exact hl.name n arity hn
  aliasName a := by
    refine Alike.get.bind fun st st' hst => ?_
    rw [bindings_eq hst hid]
    split
    · next target htarget =>
      refine Alike.pure ⟨rfl, ?_⟩
      rintro s ⟨rfl⟩
      exact C.found_alias hst hid htarget
    · exact hl.aliasName a

theorem alike_bindUsing (hid : C.ids i i') {l l' : Lookup} (hl : C.LookupAlike l l') {d d' : Tree}
    (hd : UsingAlike d d') (hasked : ∀ n ∈ d.targetNames, C.asked n) :
    Alike C.states (fun _ _ => True) (bindUsing i l d) (bindUsing i' l' d') := by
  have htarget := hd.target
  unfold bindUsing
  cases ht : d.type? with
  | none =>
    rw [ht, Option.map_none, Option.map_eq_none_iff] at htarget
    rw [htarget]
    exact Alike.pure trivial
  | some t =>
    rw [ht, Option.map_some] at htarget
    obtain ⟨t', ht', heq⟩ := Option.map_eq_some_iff.mp htarget
    obtain ⟨hkind, hrest⟩ := Prod.mk.inj heq
    obtain ⟨hname, hwritten⟩ := Prod.mk.inj hrest
    have hasked : ∀ n ∈ t.written.names, C.asked n := by
      rwa [Tree.targetNames, ht] at hasked
    rw [ht']
    dsimp only
    rw [hkind, hd.usingAlias, hd.isStatic]
    split
    · next hisName =>
      have hresolved : Alike C.states C.Finds (l.nameNode t) (l'.nameNode t') := by
        have hname' : (t'.aliasToken?.map (·.value), t'.segments.map fun s => (s.name, s.arity))
            = (t.aliasToken?.map (·.value), t.segments.map fun s => (s.name, s.arity)) := hname
        obtain ⟨halias, hsegments⟩ := Prod.mk.inj hname'
        rw [Tree.written_of_isName hisName] at hasked
        rw [Lookup.nameNode, Lookup.nameNode, halias, hsegments]
        exact (alike_qualified hl _ hasked).imp fun _ _ h => h.1
      refine hresolved.bind ?_
      rintro o o' ⟨rfl, hfound⟩
      split
      · split
        · next found =>
          refine alike_addAlias hid _ ?_
          rintro s rfl
          exact hfound s rfl
        · exact alike_remark _ _
      · split
        · split
          · exact alike_addStatic hid (C.entered_of_found (hfound _ rfl))
          · exact Alike.pure trivial
        · split
          · exact alike_addImport hid _
          · exact alike_remark _ _
    · split
      · exact Alike.pure trivial
      · refine (alike_typeNode hl hwritten hasked).bind ?_
        rintro o o' ⟨rfl, hfound⟩
        split
        · next s =>
          refine alike_addAlias hid _ ?_
          rintro u ⟨rfl⟩
          exact (hfound s rfl).1
        · exact Alike.pure trivial

/-- The same is brought in on both sides; its aliases may be found, and its static types entered. -/
def Brings (C : Coupling) (b b' : Bindings) : Prop :=
  b' = b ∧ (∀ a s, b.aliases.lookup a = some (.type s) → C.found s) ∧ ∀ s ∈ b.statics, C.entered s

theorem alike_bindUsings (space : String) {us us' : List Tree}
    (hus : List.Forall₂ UsingAlike us us')
    (hid : Option.Rel C.ids (usingsId? us) (usingsId? us')) {l l' : Lookup}
    (hl : C.LookupAlike l l') (hasked : ∀ n ∈ (Frame.space space us).names, C.asked n) :
    Alike C.states C.Brings (bindUsings space us l) (bindUsings space us' l') := by
  unfold bindUsings
  generalize usingsId? us = o at hid
  generalize usingsId? us' = o' at hid
  cases hid with
  | none => exact Alike.pure ⟨rfl, by simp, by simp⟩
  | some hid =>
    rename_i i i'
    have hread : Alike C.states C.Brings (do return (← get).bindings i)
        (do return (← get).bindings i') := by
      refine Alike.get.bind fun st st' hst => Alike.pure ⟨bindings_eq hst hid, ?_, ?_⟩
      · exact fun a s hs => C.found_alias hst hid hs
      · exact fun s hs => C.entered_static hst hid hs
    refine Alike.get.bind fun st st' hst => ?_
    rw [C.bound_eq hst hid]
    dsimp only
    split
    · refine (Alike.modify fun st st' hst => C.states_setBindings hst hid ?_ ?_).bind
        fun _ _ _ => ?_
      · intro a s hs
        cases hs
      · intro s hs
        cases hs
      · have hus := (List.forall₂_and_left us us').mpr
          ⟨fun d hd n hn => hasked n (List.mem_flatMap.mpr ⟨d, hd, hn⟩), hus⟩
        refine (Alike.forM hus fun d d' hd => ?_).bind fun _ _ _ => hread
        exact alike_bindUsing hid (lookupAlike_fromUsing hid hl space) hd.2 hd.1
    · exact hread

end Usings

/-! ### Frames -/

theorem alike_find {b b' : Bindings} (hb : C.Brings b b') {name : String} (hname : C.asked name)
    (arity : Nat) :
    Alike C.states (fun o o' => C.Finds o o' ∧ (arity ≠ 0 → C.FindsCurrent o o'))
      (b.find? name arity) (b'.find? name arity) := by
  obtain ⟨rfl, hfound, hentered⟩ := hb
  unfold Bindings.find?
  split
  · next target htarget =>
    split at htarget
    · next hzero =>
      -- what an alias stands for was found once and need not be current
      refine Alike.pure ⟨⟨rfl, ?_⟩, fun hne => absurd (by simpa using hzero) hne⟩
      rintro s ⟨rfl⟩
      exact hfound name s htarget
    · cases htarget
  · refine Alike.get.bind fun st st' hst => ?_
    obtain ⟨heq, hcurrent⟩ := (C.answers hst).candidates hentered hname arity
    rw [heq]
    have hcandidates : Alike C.states (fun found found' => found' = found ∧ ∀ s ∈ found, C.current s)
        (liftM (b'.candidates st.table name arity)) (liftM (b'.candidates st.table name arity)) :=
      Alike.lift fun found hfound => ⟨rfl, hcurrent found hfound⟩
    refine hcandidates.bind ?_
    rintro _ symbols ⟨rfl, hcurrent⟩
    have hend : Alike C.states (fun o o' => C.Finds o o' ∧ (arity ≠ 0 → C.FindsCurrent o o'))
        (pure (symbols.head?.map Target.type)) (pure (symbols.head?.map Target.type)) := by
      refine Alike.pure (FindsCurrent.named ⟨rfl, fun s hs => ?_⟩ arity)
      obtain ⟨t, ht, hs⟩ := Option.map_eq_some_iff.mp hs
      cases hs
      exact hcurrent _ (List.mem_of_head? ht)
    dsimp only
    split
    · exact (alike_remark _ _).bind fun _ _ _ => hend
    · exact hend

theorem lookupAlike_extend {f f' : Frame} (hf : C.FrameAlike f f') {l l' : Lookup}
    (hl : C.LookupAlike l l') : C.LookupAlike (f.extend l) (f'.extend l') := by
  cases hf with
  | method ps =>
    refine ⟨fun n arity hn => ?_, hl.aliasName⟩
    dsimp only [Frame.extend]
    split
    · exact Alike.pure (named_none arity)
    · exact hl.name n arity hn
  | @type key hkey ps =>
    refine ⟨fun n arity hn => ?_, hl.aliasName⟩
    dsimp only [Frame.extend]
    split
    · exact Alike.pure (named_none arity)
    · refine Alike.get.bind fun st st' hst => ?_
      obtain ⟨heq, hcontainer⟩ := (C.answers hst).get? hkey
      rw [heq]
      split
      · exact hl.name n arity hn
      · next container hfound =>
        have hentered := C.entered_of_found (C.found_of_current (hcontainer container hfound))
        obtain ⟨heq, hcurrent⟩ := (C.answers hst).nested hentered hn arity
        rw [heq]
        have hnested : Alike C.states (fun o o' => o' = o ∧ ∀ s, o = some s → C.current s)
            (liftM (st.table.nested container n arity))
            (liftM (st.table.nested container n arity)) := by
          refine Alike.lift fun o ho => ⟨rfl, ?_⟩
          rintro s rfl
          exact hcurrent s ho
        refine hnested.bind ?_
        rintro o _ ⟨rfl, hcurrent⟩
        split
        · next s =>
          refine Alike.pure (FindsCurrent.named ⟨rfl, ?_⟩ arity)
          rintro u ⟨rfl⟩
          exact hcurrent s rfl
        · exact hl.name n arity hn
  | space name hus hid hasked =>
    -- the directives are bound by lookups from outside, which go alike
    have hbind := alike_bindUsings name hus hid hl hasked
    constructor
    · intro n arity hn
      refine Alike.get.bind fun st st' hst => ?_
      obtain ⟨heq, hcurrent⟩ := (C.answers hst).inNamespace? hn name arity
      rw [heq]
      split
      · next target htarget =>
        refine Alike.pure (FindsCurrent.named ⟨rfl, ?_⟩ arity)
        rintro s ⟨rfl⟩
        exact hcurrent s htarget
      · refine hbind.bind fun b b' hb => (alike_find hb hn arity).bind ?_
        rintro o _ ⟨⟨rfl, hfinds⟩, hcurrent⟩
        split
        · exact Alike.pure ⟨⟨rfl, hfinds⟩, hcurrent⟩
        · exact hl.name n arity hn
    · intro a
      refine hbind.bind ?_
      rintro b _ ⟨rfl, hfound, -⟩
      split
      · next target htarget =>
        refine Alike.pure ⟨rfl, ?_⟩
        rintro s ⟨rfl⟩
        exact hfound a s htarget
      · exact hl.aliasName a

/-- Lookups from scopes that say the same go alike. -/
theorem alike_lookup {scope scope' : Scope} (h : List.Forall₂ C.FrameAlike scope scope') :
    C.LookupAlike scope.lookup scope'.lookup := by
  induction h with
  | nil =>
    exact ⟨fun n arity _ => Alike.pure (named_none arity), fun a => Alike.pure finds_none⟩
  | cons hf _ ih => exact lookupAlike_extend hf ih

/-! ### The same on both sides -/

/-- No more is asked of a frame than what is answered alike. -/
structure Spans (C : Coupling) (f : Frame) : Prop where
  names : ∀ n ∈ f.names, C.asked n
  key : ∀ key ps, f = .type key ps → C.keys key

/-- One scope on both sides. -/
theorem alike_lookup_self (hids : ∀ i, C.ids i i) {scope : Scope} (h : ∀ f ∈ scope, C.Spans f) :
    C.LookupAlike scope.lookup scope.lookup := by
  refine alike_lookup (List.forall₂_same.mpr fun f hf => ?_)
  cases f with
  | space name us =>
    refine .space name (List.forall₂_same.mpr fun d _ => .refl d) ?_ (h _ hf).names
    cases usingsId? us with
    | none => exact .none
    | some i => exact .some (hids i)
  | type key ps => exact .type ((h _ hf).key key ps rfl) ps
  | method ps => exact .method ps

/-- The base class that is found may be found, and it is known by its key. -/
def FindsBase (C : Coupling) (l l' : BaseList) : Prop :=
  l' = l ∧ ∀ r, l.base = some r → ∃ s, C.found s ∧ r = .key s.key

/-- One base list on both sides. -/
theorem alike_resolveBaseList_self (hids : ∀ i, C.ids i i) {d : ScopedNode}
    (hscope : ∀ scope, d.inner = some scope → ∀ f ∈ scope, C.Spans f)
    (hbases : ∀ base ∈ d.node.baseTypes, ∀ n ∈ base.written.names, C.asked n) :
    Alike C.states C.FindsBase (resolveBaseList d) (resolveBaseList d) := by
  unfold resolveBaseList
  cases hinner : d.inner with
  | none => exact Alike.pure ⟨rfl, fun r hr => by cases hr⟩
  | some scope =>
    have hlookup := alike_lookup_self hids (hscope scope hinner)
    have hbases : List.Forall₂
        (fun base base' => base' = base ∧ ∀ n ∈ base.written.names, C.asked n)
        d.node.baseTypes d.node.baseTypes :=
      List.forall₂_same.mpr fun base hbase => ⟨rfl, hbases base hbase⟩
    refine Alike.foldlM hbases (fun l l' hl base base' hbase => ?_) ⟨rfl, fun r hr => by cases hr⟩
    obtain ⟨rfl, hl⟩ := hl
    obtain ⟨rfl, hasked⟩ := hbase
    refine (alike_typeNode hlookup rfl hasked).bind ?_
    rintro o _ ⟨rfl, hfound⟩
    refine Alike.pure ⟨rfl, fun r hr => ?_⟩
    unfold BaseList.add at hr
    split at hr
    · exact hl r hr
    · next s =>
      split at hr
      · exact hl r hr
      · split at hr
        · cases hr
          exact ⟨s, (hfound s rfl).1, rfl⟩
        · exact hl r hr

end Coupling

end NullableMarker
