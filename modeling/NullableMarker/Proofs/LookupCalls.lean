import Mathlib.Data.List.Perm.Subperm
import NullableMarker.Proofs.BoundDirectives
import NullableMarker.Proofs.InterfaceClosure

/-!
# The calls of a lookup

A lookup has the using directives that it gets to bound, unless they are. To bind them the names in
them are looked up, in the same namespace and around it, and that may have further directives bound.
Directives count as bound from the moment their binding begins, so each call that begins a binding
leaves fewer directives to be bound: however the directives refer to one another, the calls nest only
so deep.

This module says how the calls nest, with a limit on their depth and a record of what is done about
directives, and that lookups with enough depth come out as they do.

* `Traced` — computations with calls of limited depth, and a record of what they do
* `bindFrame`, `Caller.fromScope` — lookups that call one another
* `Ends` — a traced computation has depth enough, and its record fits a scope
* `Local` — what a computation depends on and changes
* `lookups_end` — calls one after another
-/

namespace NullableMarker

/-! ## Traced computations -/

/-- Something done about the directives told by `id`: they begin to be bound, or what they bring in
is read. Meanwhile the directives told by `within` are being bound, the innermost first. -/
structure Access where
  within : List Nat
  id : Nat
  begins : Bool
  deriving Repr, DecidableEq

/-- A computation that records what it does about directives. It has no outcome if its calls nest too
deep. -/
abbrev Traced := StateT Resolution (ExceptT BadReference (StateT (List Access) Option))

namespace Traced

/-- Calls nest too deep. -/
def tooDeep {α : Type} : Traced α := fun _ _ => none

/-- A computation that does nothing about directives. -/
def plain {α : Type} (m : Resolve α) : Traced α := fun st log => some (m.run st, log)

/-- Records something. -/
def note (a : Access) : Traced Unit := fun st log => some (.ok ((), st), log ++ [a])

end Traced

/-! ## Lookups that call one another -/

/-- How names and aliases are looked up. -/
structure Caller where
  name : String → Nat → Traced (Option Target)
  «alias» : String → Traced (Option Target)

/-- What a directive that names something does once it is resolved. -/
def settleName (id : Nat) (directive target : Tree) (resolved : Option Target) : Resolve Unit :=
  match directive.usingAlias? with
  | some a =>
    match resolved with
    | some found => addAlias id a found
    | none => remark s!"Unresolved using alias {a} = {target.text}"
  | none =>
    if directive.isStaticUsing then
      match resolved with
      | some (.type s) => addStatic id s
      | _ => return
    else
      match resolved with
      | some (.space name) => addImport id name
      | _ => remark s!"Unresolved using directive {target.text}"

/-- What an alias of a type does once the type is resolved. -/
def settleType (id : Nat) (a : String) (resolved : Option TypeSymbol) : Resolve Unit :=
  match resolved with
  | some s => addAlias id a (.type s)
  | none => return

namespace Caller

/-- Resolves a dotted name after an alias, if it has one. -/
def qualified (l : Caller) (aliasName : Option String) (segments : List (String × Nat)) :
    Traced (Option Target) := do
  match aliasName, segments with
  | some a, segments =>
    let target ← if a == "global" then pure (some (.space "")) else l.alias a
    Traced.plain (liftM ((← get).table.follow target segments))
  | none, [] => return none
  | none, (name, arity) :: rest =>
    let target ← l.name name arity
    Traced.plain (liftM ((← get).table.follow target rest))

/-- Resolves what a type says. -/
def written (l : Caller) : Written → Traced (Option TypeSymbol)
  | .keyword word => do
    let table := (← get).table
    return (Special.ofWord? word).bind table.special?
  | .name aliasName segments => do return (← l.qualified aliasName segments).bind (·.type?)
  | .array => do return (← get).table.lookup "System" "Array" 0
  | .other => return none

/-- Binds one directive. -/
def bindUsing (l : Caller) (id : Nat) (directive : Tree) : Traced Unit := do
  match directive.type? with
  | none => return
  | some target =>
    if target.isNode (· == .name) then
      let resolved ← l.qualified target.writtenName.1 target.writtenName.2
      Traced.plain (settleName id directive target resolved)
    else
      match directive.usingAlias? with
      | none => return
      | some a =>
        let resolved ← l.written target.written
        Traced.plain (settleType id a resolved)

/-- Looks a name up from a scope, frame by frame. `binder` has the directives of a frame bound; those
of the innermost are left out if `skip`. -/
def nameFrom (binder : Scope → Traced Bindings) (n : String) (arity : Nat) :
    Bool → Scope → Traced (Option Target)
  | _, [] => pure none
  | _, .method ps :: above =>
    if arity == 0 && ps.contains n then pure none else nameFrom binder n arity false above
  | _, .type key ps :: above => do
    if arity == 0 && ps.contains n then return none
    else
      let table := (← get).table
      match table.get? key with
      | none => nameFrom binder n arity false above
      | some container =>
        match ← Traced.plain (liftM (table.nested container n arity)) with
        | some s => return some (.type s)
        | none => nameFrom binder n arity false above
  | skip, .space space usings :: above => do
    match (← get).table.inNamespace? space n arity with
    | some target => return some target
    | none =>
      if skip then nameFrom binder n arity false above
      else
        let b ← binder (.space space usings :: above)
        match ← Traced.plain (b.find? n arity) with
        | some target => return some target
        | none => nameFrom binder n arity false above

/-- Looks an alias up from a scope, frame by frame. -/
def aliasFrom (binder : Scope → Traced Bindings) (a : String) : Scope → Traced (Option Target)
  | [] => pure none
  | .space space usings :: above => do
    let b ← binder (.space space usings :: above)
    match b.aliases.lookup a with
    | some target => return some target
    | none => aliasFrom binder a above
  | _ :: above => aliasFrom binder a above

/-- How names and aliases are looked up from a scope. -/
def fromScope (binder : Scope → Traced Bindings) (skip : Bool) (scope : Scope) : Caller where
  name n arity := nameFrom binder n arity skip scope
  «alias» a := aliasFrom binder a scope

end Caller

/-- Has the directives of the innermost frame of a scope bound, unless they are, and reads what they
bring in. The directives told by `within` are being bound meanwhile. -/
def bindFrame : Nat → List Nat → Scope → Traced Bindings
  | 0, _, _ => Traced.tooDeep
  | depth + 1, within, scope =>
    match scope with
    | .space _ usings :: _ =>
      match usingsId? usings with
      | none => pure {}
      | some id => do
        if ((← get).bound.lookup id).isNone then
          Traced.note ⟨within, id, true⟩
          modify fun st => st.setBindings id {}
          usings.forM
            ((Caller.fromScope (bindFrame depth (id :: within)) true scope).bindUsing id)
        Traced.note ⟨within, id, false⟩
        return (← get).bindings id
    | _ => pure {}

theorem bindUsing_eq (id : Nat) (l : Lookup) (directive : Tree) :
    bindUsing id l directive =
      match directive.type? with
      | none => pure ()
      | some target =>
        if target.isNode (· == .name) then
          l.qualified target.writtenName.1 target.writtenName.2 >>= settleName id directive target
        else
          match directive.usingAlias? with
          | none => pure ()
          | some a => l.written target.written >>= settleType id a := by
  unfold bindUsing
  cases directive.type? with
  | none => rfl
  | some target =>
    dsimp only
    split
    · rfl
    · cases directive.usingAlias? with
      | none => rfl
      | some a =>
        dsimp only
        rw [Lookup.typeNode_eq]
        rfl

/-! ## Records that fit a scope -/

/-- The directives that begin to be bound. -/
def begun (log : List Access) : List Nat := (log.filter (·.begins)).map (·.id)

theorem begun_append (log log' : List Access) : begun (log ++ log') = begun log ++ begun log' := by
  simp [begun]

/-- While directives of the scope are being bound, only those of their frame and of the frames around it
are concerned. Others are being bound meanwhile, as `within` tells. -/
def Inward (scope : Scope) (within : List Nat) (e : Access) : Prop :=
  scope.Binds e.id ∧ ∃ inner, e.within = inner ++ within
    ∧ ∀ j ∈ inner, ∃ x : Scope, x <:+ scope ∧ x.id? = some j ∧ x.Binds e.id

theorem Scope.Binds.of_suffix {x scope : Scope} {i : Nat} (h : x.Binds i) (hx : x <:+ scope) :
    scope.Binds i := by
  obtain ⟨y, hy, hi⟩ := h
  exact ⟨y, hy.trans hx, hi⟩

namespace Inward

variable {scope x : Scope} {within : List Nat} {e : Access}

theorem of_suffix (h : Inward x within e) (hx : x <:+ scope) : Inward scope within e := by
  obtain ⟨hbinds, inner, hwithin, hinner⟩ := h
  refine ⟨hbinds.of_suffix hx, inner, hwithin, fun j hj => ?_⟩
  obtain ⟨y, hy, hrest⟩ := hinner j hj
  exact ⟨y, hy.trans hx, hrest⟩

/-- What is done while directives of the scope are being bound is done in the scope. -/
theorem of_within {i : Nat} (h : Inward scope (i :: within) e) (hi : scope.id? = some i) :
    Inward scope within e := by
  obtain ⟨hbinds, inner, hwithin, hinner⟩ := h
  refine ⟨hbinds, inner ++ [i], by rw [hwithin, List.append_assoc]; rfl, fun j hj => ?_⟩
  rcases List.mem_append.mp hj with hj | hj
  · exact hinner j hj
  · rw [List.mem_singleton.mp hj]
    exact ⟨scope, List.suffix_rfl, hi, hbinds⟩

theorem here {i : Nat} (hi : scope.Binds i) (begins : Bool) :
    Inward scope within ⟨within, i, begins⟩ := ⟨hi, [], rfl, fun j hj => by cases hj⟩

end Inward

/-- What is done about directives from a state on: none begins to be bound twice, nor if it is bound,
and those that begin are bound afterwards. -/
structure Fits {α : Type} (P : Access → Prop) (st : Resolution)
    (outcome : Except BadReference (α × Resolution)) (log : List Access) : Prop where
  once : (begun log).Nodup
  fresh : ∀ i ∈ begun log, st.bound.lookup i = none
  bound : ∀ a st', outcome = .ok (a, st') → ∀ i,
    (st'.bound.lookup i).isSome ↔ (st.bound.lookup i).isSome ∨ i ∈ begun log
  each : ∀ e ∈ log, P e

/-- From the state the traced computation has depth enough: it comes out as the one that is not
traced. All that it does about directives is of a kind. -/
def EndsAt {α : Type} (P : Access → Prop) (st : Resolution) (t : Traced α) (m : Resolve α) : Prop :=
  ∃ log, (∀ prior, t st prior = some (m.run st, prior ++ log)) ∧ Fits P st (m.run st) log

namespace EndsAt

variable {α β : Type} {P Q : Access → Prop} {st : Resolution}

/-- Nothing is done about directives, and those that are bound stay the same. -/
theorem plain {m : Resolve α} (h : ∀ a st', m.run st = .ok (a, st') →
    ∀ i, (st'.bound.lookup i).isSome ↔ (st.bound.lookup i).isSome) :
    EndsAt P st (Traced.plain m) m := by
  refine ⟨[], fun prior => by rw [List.append_nil]; rfl, List.nodup_nil, ?_, ?_, ?_⟩
  · intro i hi
    cases hi
  · intro a st' hm i
    simp [h a st' hm i, begun]
  · intro e he
    cases he

theorem pure (a : α) : EndsAt P st (Pure.pure a) (Pure.pure a) := by
  refine plain (m := Pure.pure a) ?_
  rintro _ _ ⟨⟩ i
  rfl

theorem bind {t : Traced α} {m : Resolve α} {f : α → Traced β} {g : α → Resolve β}
    (h : EndsAt P st t m)
    (hf : ∀ a st', m.run st = .ok (a, st') →
      (∀ i, (st.bound.lookup i).isSome → (st'.bound.lookup i).isSome) →
      EndsAt P st' (f a) (g a)) :
    EndsAt P st (t >>= f) (m >>= g) := by
  obtain ⟨log, hrun, hfits⟩ := h
  have hleft : ∀ prior, (t >>= f) st prior = match t st prior with
      | none => none
      | some (.error e, log) => some (.error e, log)
      | some (.ok (a, st'), log) => f a st' log := by
    intro prior
    show (t st prior >>= fun r =>
      ExceptT.bindCont (fun r : α × Resolution => f r.1 r.2) r.1 r.2) = _
    rcases t st prior with _ | ⟨_ | ⟨a, st'⟩, log'⟩ <;> rfl
  have hright : (m >>= g).run st = m.run st >>= fun r => (g r.1).run r.2 := rfl
  rw [EndsAt, hright]
  cases hm : m.run st with
  | error e =>
    rw [hm] at hrun hfits
    refine ⟨log, fun prior => by rw [hleft, hrun]; rfl, hfits.once, hfits.fresh, ?_, hfits.each⟩
    rintro _ _ ⟨⟩
  | ok r =>
    obtain ⟨a, st'⟩ := r
    rw [hm] at hrun hfits
    have hbound := hfits.bound a st' rfl
    obtain ⟨log', hrun', hfits'⟩ := hf a st' hm fun i hi => (hbound i).mpr (.inl hi)
    refine ⟨log ++ log', fun prior => ?_, ?_, ?_, ?_, ?_⟩
    · rw [hleft, hrun, ← List.append_assoc]
      exact hrun' _
    · rw [begun_append]
      refine List.nodup_append.mpr ⟨hfits.once, hfits'.once, ?_⟩
      rintro i hi _ hi' rfl
      have hsome := (hbound i).mpr (.inr hi)
      rw [hfits'.fresh i hi'] at hsome
      cases hsome
    · intro i hi
      rw [begun_append] at hi
      rcases List.mem_append.mp hi with hi | hi
      · exact hfits.fresh i hi
      · by_contra hne
        have hsome := (hbound i).mpr (.inl (Option.isSome_iff_ne_none.mpr hne))
        rw [hfits'.fresh i hi] at hsome
        cases hsome
    · intro b st'' hout i
      rw [hfits'.bound b st'' hout i, hbound i, begun_append, List.mem_append, or_assoc]
    · intro e he
      rcases List.mem_append.mp he with he | he
      · exact hfits.each e he
      · exact hfits'.each e he

theorem get_bind {f : Resolution → Traced β} {g : Resolution → Resolve β}
    (h : EndsAt P st (f st) (g st)) : EndsAt P st (get >>= f) (get >>= g) := h

theorem imp {t : Traced α} {m : Resolve α} (h : EndsAt P st t m) (himp : ∀ e, P e → Q e) :
    EndsAt Q st t m := by
  obtain ⟨log, hrun, hfits⟩ := h
  exact ⟨log, hrun, hfits.once, hfits.fresh, hfits.bound, fun e he => himp e (hfits.each e he)⟩

/-- What directives bring in is read. -/
theorem read {within : List Nat} {i : Nat} (h : P ⟨within, i, false⟩) :
    EndsAt P st (Traced.note ⟨within, i, false⟩) (Pure.pure ()) := by
  refine ⟨[⟨within, i, false⟩], fun prior => rfl, List.nodup_nil, ?_, ?_, ?_⟩
  · intro j hj
    cases hj
  · rintro _ _ ⟨⟩ j
    simp [begun]
  · intro e he
    rwa [List.mem_singleton.mp he]

/-- Directives that are not bound begin to be bound. -/
theorem starts {within : List Nat} {i : Nat} (hP : P ⟨within, i, true⟩)
    (hnone : st.bound.lookup i = none) {t : Traced α} {m : Resolve α}
    (h : EndsAt P (st.setBindings i {}) t m) :
    EndsAt P st (do Traced.note ⟨within, i, true⟩; modify fun st => st.setBindings i {}; t)
      (do modify fun st => st.setBindings i {}; m) := by
  have hbegin : EndsAt P st
      (do Traced.note ⟨within, i, true⟩; modify fun st => st.setBindings i {})
      (modify fun st => st.setBindings i {}) := by
    refine ⟨[⟨within, i, true⟩], fun prior => rfl, List.nodup_singleton i, ?_, ?_, ?_⟩
    · intro j hj
      rw [List.mem_singleton.mp hj]
      exact hnone
    · rintro _ _ ⟨⟩ j
      show ((upsert i {} st.bound).lookup j).isSome ↔ _ ∨ j ∈ [i]
      by_cases hji : j = i
      · rw [hji, lookup_upsert_self]
        simp
      · rw [lookup_upsert_of_ne hji]
        simp [hji]
    · intro e he
      rwa [List.mem_singleton.mp he]
  have hwhole := hbegin.bind (f := fun _ => t) (g := fun _ => m) fun _ st' hm _ => by
    cases hm
    exact h
  rwa [bind_assoc] at hwhole

end EndsAt

/-- The traced computation has depth enough from all states in which the directives told by `known`
are bound. -/
def Ends {α : Type} (known : List Nat) (P : Access → Prop) (t : Traced α) (m : Resolve α) : Prop :=
  ∀ st, (∀ i ∈ known, (st.bound.lookup i).isSome) → EndsAt P st t m

namespace Ends

variable {α β : Type} {known : List Nat} {P Q : Access → Prop}

theorem pure (a : α) : Ends known P (Pure.pure a) (Pure.pure a) :=
  fun _ _ => EndsAt.pure a

theorem bind {t : Traced α} {m : Resolve α} {f : α → Traced β} {g : α → Resolve β}
    (h : Ends known P t m) (hf : ∀ a, Ends known P (f a) (g a)) :
    Ends known P (t >>= f) (m >>= g) :=
  fun st hst => (h st hst).bind fun a st' _ hle => hf a st' fun i hi => hle i (hst i hi)

theorem get_bind {f : Resolution → Traced β} {g : Resolution → Resolve β}
    (h : ∀ s, Ends known P (f s) (g s)) :
    Ends known P (get >>= f) (get >>= g) :=
  fun st hst => EndsAt.get_bind (h st st hst)

theorem lift (y : Except BadReference α) :
    Ends known P (Traced.plain (liftM y)) (liftM y) := by
  refine fun st _ => EndsAt.plain fun a st' hm i => ?_
  obtain ⟨b, -, heq⟩ := ok_of_bind (show (y >>= fun b => Pure.pure (b, st)) = _ from hm)
  cases heq
  rfl

theorem imp {t : Traced α} {m : Resolve α} (h : Ends known P t m) (himp : ∀ e, P e → Q e) :
    Ends known Q t m := fun st hst => (h st hst).imp himp

theorem forM {γ : Type} {f : γ → Traced PUnit} {g : γ → Resolve PUnit}
    (h : ∀ c, Ends known P (f c) (g c)) (cs : List γ) :
    Ends known P (cs.forM f) (cs.forM g) := by
  induction cs with
  | nil => exact pure _
  | cons c cs ih => exact (h c).bind fun _ => ih

theorem mapM {γ : Type} {cs : List γ} {f : γ → Traced β} {g : γ → Resolve β}
    (h : ∀ c ∈ cs, Ends known P (f c) (g c)) :
    Ends known P (cs.mapM f) (cs.mapM g) := by
  induction cs with
  | nil => exact pure _
  | cons c cs ih =>
    rw [List.mapM_cons, List.mapM_cons]
    refine (h c List.mem_cons_self).bind fun b => ?_
    exact (ih fun d hd => h d (List.mem_cons_of_mem c hd)).bind fun bs => pure _

end Ends

/-! ## Lookups have depth enough -/

/-- Lookups that have depth enough. -/
structure CallerEnds (known : List Nat) (P : Access → Prop) (l : Caller) (k : Lookup) :
    Prop where
  name : ∀ n arity, Ends known P (l.name n arity) (k.name n arity)
  aliasName : ∀ a, Ends known P (l.alias a) (k.alias a)

section Names

variable {known : List Nat} {P : Access → Prop} {l : Caller} {k : Lookup}

theorem ends_qualified (h : CallerEnds known P l k) (aliasName : Option String)
    (segments : List (String × Nat)) :
    Ends known P (l.qualified aliasName segments) (k.qualified aliasName segments) := by
  have hfollow : ∀ (target : Option Target) (rest : List (String × Nat)),
      Ends known P (do Traced.plain (liftM ((← get).table.follow target rest)))
        (do liftM ((← get).table.follow target rest)) :=
    fun target rest => .get_bind fun st => .lift _
  unfold Caller.qualified Lookup.qualified
  cases aliasName with
  | some a =>
    dsimp only
    split
    · exact (Ends.pure _).bind fun target => hfollow target segments
    · exact (h.aliasName a).bind fun target => hfollow target segments
  | none =>
    cases segments with
    | nil => exact .pure none
    | cons segment rest => exact (h.name _ _).bind fun target => hfollow target rest

theorem ends_written (h : CallerEnds known P l k) (w : Written) :
    Ends known P (l.written w) (k.written w) := by
  cases w with
  | keyword word => exact .get_bind fun st => .pure _
  | name aliasName segments => exact (ends_qualified h aliasName segments).bind fun o => .pure _
  | array => exact .get_bind fun st => .pure _
  | other => exact .pure none

/-- What directives that are bound bring in may change. -/
theorem ends_change {i : Nat} (hi : i ∈ known) (f : Bindings → Bindings) :
    Ends known P
      (Traced.plain (modify fun st => st.setBindings i (f (st.bindings i))))
      (modify fun st => st.setBindings i (f (st.bindings i))) := by
  intro st hst
  refine EndsAt.plain ?_
  rintro _ _ ⟨⟩ j
  show ((upsert i _ st.bound).lookup j).isSome ↔ _
  by_cases hji : j = i
  · rw [hji, lookup_upsert_self]
    simp [hst i hi]
  · rw [lookup_upsert_of_ne hji]

theorem ends_remark (text : String) :
    Ends known P (Traced.plain (remark text)) (remark text) := by
  refine fun st _ => EndsAt.plain ?_
  rintro _ _ ⟨⟩ i
  rfl

theorem ends_settleName {i : Nat} (hi : i ∈ known) (directive target : Tree)
    (resolved : Option Target) :
    Ends known P (Traced.plain (settleName i directive target resolved))
      (settleName i directive target resolved) := by
  have hnothing : Ends known P (Traced.plain (pure ())) (pure ()) :=
    fun st _ => EndsAt.pure ()
  unfold settleName
  cases directive.usingAlias? with
  | some a =>
    cases resolved with
    | some found => exact ends_change hi fun b => { b with aliases := upsert a found b.aliases }
    | none => exact ends_remark _
  | none =>
    dsimp only
    split
    · cases resolved with
      | none => exact hnothing
      | some found =>
        cases found with
        | type s => exact ends_change hi fun b => { b with statics := b.statics ++ [s] }
        | space name => exact hnothing
    · cases resolved with
      | none => exact ends_remark _
      | some found =>
        cases found with
        | type s => exact ends_remark _
        | space name => exact ends_change hi fun b => { b with imports := b.imports ++ [name] }

theorem ends_bindUsing {i : Nat} (hi : i ∈ known) (h : CallerEnds known P l k)
    (directive : Tree) :
    Ends known P (l.bindUsing i directive) (bindUsing i k directive) := by
  rw [bindUsing_eq]
  unfold Caller.bindUsing
  cases directive.type? with
  | none => exact .pure ()
  | some target =>
    dsimp only
    split
    · exact (ends_qualified h _ _).bind fun resolved => ends_settleName hi directive target resolved
    · cases directive.usingAlias? with
      | none => exact .pure ()
      | some a =>
        refine (ends_written h target.written).bind fun resolved => ?_
        cases resolved with
        | some s => exact ends_change hi fun b => { b with aliases := upsert a (.type s) b.aliases }
        | none => exact fun st _ => EndsAt.pure ()

theorem ends_find (b : Bindings) (n : String) (arity : Nat) :
    Ends known P (Traced.plain (b.find? n arity)) (b.find? n arity) := by
  refine fun st _ => EndsAt.plain fun o st' hm i => ?_
  unfold Bindings.find? at hm
  split at hm
  · cases hm
    rfl
  · obtain ⟨⟨found, s⟩, hfound, hm⟩ := ok_of_bind
      (show ((liftM (b.candidates st.table n arity) : Resolve _).run st >>= fun r => _) = _ from hm)
    obtain ⟨_, -, heq⟩ := ok_of_bind hfound
    cases heq
    dsimp only at hm
    split at hm <;> cases hm <;> rfl

end Names

/-- Binds the directives of the innermost frame unless they are, and gives what they bring in. -/
def Scope.bindInnermost : Scope → Resolve Bindings
  | .space space usings :: above => bindUsings space usings (Scope.lookup above)
  | _ => pure {}

section Scopes

variable {known : List Nat} {P : Access → Prop} {binder : Scope → Traced Bindings}

theorem ends_nameFrom {scope : Scope}
    (hbinder : ∀ x : Scope, x <:+ scope → Ends known P (binder x) x.bindInnermost)
    (n : String) (arity : Nat) :
    Ends known P (Caller.nameFrom binder n arity false scope)
      (scope.lookup.name n arity) := by
  induction scope with
  | nil => exact .pure none
  | cons f above ih =>
    have hsuffix : above <:+ f :: above := List.suffix_cons f above
    have habove := ih fun x hx => hbinder x (hx.trans hsuffix)
    cases f with
    | method ps =>
      show Ends _ _ (if _ then _ else _) (if _ then _ else _)
      split
      · exact .pure none
      · exact habove
    | type key ps =>
      show Ends _ _ (if _ then _ else _) (if _ then _ else _)
      split
      · exact .pure none
      · refine .get_bind fun st => ?_
        dsimp only
        cases st.table.get? key with
        | none => exact habove
        | some container =>
          refine (Ends.lift _).bind fun o => ?_
          cases o with
          | some s => exact .pure _
          | none => exact habove
    | space space usings =>
      refine .get_bind fun st => ?_
      cases st.table.inNamespace? space n arity with
      | some target => exact .pure (some target)
      | none =>
        refine (hbinder _ List.suffix_rfl).bind fun b => (ends_find b n arity).bind fun o => ?_
        cases o with
        | some target => exact .pure (some target)
        | none => exact habove

theorem ends_aliasFrom {scope : Scope}
    (hbinder : ∀ x : Scope, x <:+ scope → Ends known P (binder x) x.bindInnermost)
    (a : String) :
    Ends known P (Caller.aliasFrom binder a scope) (scope.lookup.alias a) := by
  induction scope with
  | nil => exact .pure none
  | cons f above ih =>
    have hsuffix : above <:+ f :: above := List.suffix_cons f above
    have habove := ih fun x hx => hbinder x (hx.trans hsuffix)
    cases f with
    | method ps => exact habove
    | type key ps => exact habove
    | space space usings =>
      refine (hbinder _ List.suffix_rfl).bind fun b => ?_
      cases b.aliases.lookup a with
      | some target => exact .pure (some target)
      | none => exact habove

/-- Directives that are bound are not bound again. -/
theorem run_bindInnermost_of_bound {scope : Scope} {i : Nat} (hi : scope.id? = some i)
    {st : Resolution} (hst : (st.bound.lookup i).isSome) :
    scope.bindInnermost.run st = .ok (st.bindings i, st) := by
  unfold Scope.id? at hi
  split at hi
  · have hnone : ¬ (st.bound.lookup i).isNone = true := by simp [Option.isSome_iff_ne_none.mp hst]
    unfold Scope.bindInnermost bindUsings
    dsimp only
    rw [hi]
    show (if (st.bound.lookup i).isNone = true then _ else _ : Resolve Bindings).run st = _
    rw [if_neg hnone]
    rfl
  · cases hi

/-- What a directive sees. -/
theorem callerEnds_fromUsing {space : String} {usings : List Tree} {above : Scope} {i : Nat}
    (hi : usingsId? usings = some i) (hmem : i ∈ known)
    (hbinder : ∀ x : Scope, x <:+ .space space usings :: above →
      Ends known P (binder x) x.bindInnermost) :
    CallerEnds known P (Caller.fromScope binder true (.space space usings :: above))
      (Lookup.fromUsing space i (Scope.lookup above)) where
  name n arity := by
    refine .get_bind fun st => ?_
    cases st.table.inNamespace? space n arity with
    | some target => exact .pure (some target)
    | none =>
      exact ends_nameFrom (fun x hx => hbinder x (hx.trans (List.suffix_cons _ above))) n arity
  aliasName a := by
    intro st hst
    have hends := ends_aliasFrom hbinder a st hst
    -- the directives count as bound, so looking the alias up does not bind them
    have hrun : ((Scope.lookup (.space space usings :: above)).alias a).run st
        = ((Lookup.fromUsing space i (Scope.lookup above)).alias a).run st := by
      have hid : Scope.id? (.space space usings :: above) = some i := hi
      have hbind : (bindUsings space usings (Scope.lookup above)).run st = .ok (st.bindings i, st) :=
        run_bindInnermost_of_bound hid (hst i hmem)
      show (bindUsings space usings (Scope.lookup above)).run st >>= _ = _
      rw [hbind]
      rfl
    unfold EndsAt at hends ⊢
    rw [← hrun]
    exact hends

end Scopes

/-! ## Depth -/

/-- The number of frames with directives that `known` does not tell. -/
def Scope.unbound (known : List Nat) : Scope → Nat
  | [] => 0
  | f :: above =>
    unbound known above + match Scope.id? (f :: above) with
      | none => 0
      | some i => if i ∈ known then 0 else 1

theorem Scope.unbound_le_of_suffix {known : List Nat} {x scope : Scope} (h : x <:+ scope) :
    x.unbound known ≤ scope.unbound known := by
  induction scope with
  | nil => rw [List.suffix_nil.mp h]
  | cons f above ih =>
    rcases Scope.suffix_of_cons h with rfl | h
    · exact Nat.le_refl _
    · exact (ih h).trans (Nat.le_add_right _ _)

theorem Scope.unbound_cons_le (known : List Nat) (i : Nat) (scope : Scope) :
    scope.unbound (i :: known) ≤ scope.unbound known := by
  induction scope with
  | nil => exact Nat.le_refl _
  | cons f above ih =>
    rw [unbound, unbound]
    refine Nat.add_le_add ih ?_
    cases Scope.id? (f :: above) with
    | none => exact Nat.le_refl _
    | some j =>
      dsimp only
      split
      · exact Nat.zero_le _
      · next hj => rw [if_neg fun hmem => hj (List.mem_cons_of_mem i hmem)]

/-- Directives that begin to be bound leave fewer to be bound. -/
theorem Scope.unbound_cons_lt {known : List Nat} {i : Nat} {scope : Scope} (hi : scope.id? = some i)
    (hnew : i ∉ known) : scope.unbound (i :: known) < scope.unbound known := by
  cases scope with
  | nil => cases hi
  | cons f above =>
    have hle := unbound_cons_le known i above
    rw [unbound, unbound, hi]
    dsimp only
    rw [if_pos List.mem_cons_self, if_neg hnew]
    omega

/-- The depth that is needed to bind directives is at most the number of frames whose directives are
not bound yet. -/
theorem ends_bindFrame {depth : Nat} {known within : List Nat} {scope : Scope}
    (h : scope.unbound known < depth) :
    Ends known (Inward scope within) (bindFrame depth within scope) scope.bindInnermost := by
  induction depth generalizing known within scope with
  | zero => exact absurd h (Nat.not_lt_zero _)
  | succ depth ih =>
    cases scope with
    | nil => exact .pure _
    | cons f above =>
      cases f with
      | method ps => exact .pure _
      | type key ps => exact .pure _
      | space space usings =>
        intro st hst
        unfold bindFrame Scope.bindInnermost bindUsings
        dsimp only
        cases hid : usingsId? usings with
        | none => exact .pure _
        | some i =>
          have hhead : Scope.id? (.space space usings :: above) = some i := hid
          have hbinds : Scope.Binds (.space space usings :: above) i := ⟨_, List.suffix_rfl, hhead⟩
          have hread : ∀ st, EndsAt (Inward (.space space usings :: above) within) st
              (do Traced.note ⟨within, i, false⟩; return (← get).bindings i)
              (do return (← get).bindings i) :=
            fun st => (EndsAt.read (.here hbinds false)).bind fun _ st' _ _ => .get_bind (.pure _)
          refine .get_bind ?_
          split
          · next hnone =>
            have hnone := Option.isNone_iff_eq_none.mp hnone
            have hnew : i ∉ known := fun hmem => by
              have hsome := hst i hmem
              rw [hnone] at hsome
              cases hsome
            have hfewer : Scope.unbound (i :: known) (.space space usings :: above) < depth :=
              (Scope.unbound_cons_lt hhead hnew).trans_le (Nat.le_of_lt_succ h)
            have hinner : ∀ x : Scope, x <:+ .space space usings :: above →
                Ends (i :: known) (Inward (.space space usings :: above) within)
                  (bindFrame depth (i :: within) x) x.bindInnermost := fun x hx =>
              (ih ((Scope.unbound_le_of_suffix hx).trans_lt hfewer)).imp fun e he =>
                (he.of_suffix hx).of_within hhead
            have hcaller := callerEnds_fromUsing hid List.mem_cons_self hinner
            have hloop := Ends.forM (ends_bindUsing List.mem_cons_self hcaller) usings
            refine EndsAt.starts (.here hbinds true) hnone ?_
            refine (hloop _ ?_).bind fun _ st' _ _ => hread st'
            intro j hj
            show ((upsert i {} st.bound).lookup j).isSome
            by_cases hji : j = i
            · rw [hji, lookup_upsert_self]
              rfl
            · rw [lookup_upsert_of_ne hji]
              exact hst j ((List.mem_cons.mp hj).resolve_left hji)
          · exact hread st

/-! ## What a lookup depends on -/

/-- States that differ only in directives that are not of the scope. -/
structure SameFor (scope : Scope) (st st' : Resolution) : Prop where
  table : st.table = st'.table
  remarks : st.remarks = st'.remarks
  bound : ∀ i, scope.Binds i → st.bound.lookup i = st'.bound.lookup i

theorem SameFor.bindings {scope : Scope} {st st' : Resolution} (h : SameFor scope st st') {i : Nat}
    (hi : scope.Binds i) : st.bindings i = st'.bindings i :=
  congrArg (·.getD {}) (h.bound i hi)

/-- Directives that are not of the scope are bound as they were. -/
def KeepsOthers (scope : Scope) (st s : Resolution) : Prop :=
  ∀ i, ¬ scope.Binds i → s.bound.lookup i = st.bound.lookup i

/-- From states that are the same for the scope the computation comes out in the same way, and leaves
such states. It leaves other directives alone. -/
def Local {α : Type} (scope : Scope) (m : Resolve α) : Prop :=
  ∀ st st', SameFor scope st st' →
    Agrees (fun r r' => r.1 = r'.1 ∧ SameFor scope r.2 r'.2
      ∧ KeepsOthers scope st r.2 ∧ KeepsOthers scope st' r'.2) (m.run st) (m.run st')

namespace Local

variable {α β : Type} {scope x : Scope}

theorem pure (a : α) : Local scope (Pure.pure a) :=
  fun _ _ hsame => .ok ⟨rfl, hsame, fun _ _ => rfl, fun _ _ => rfl⟩

theorem bind {m : Resolve α} {f : α → Resolve β} (h : Local scope m)
    (hf : ∀ a, Local scope (f a)) : Local scope (m >>= f) := by
  intro st st' hsame
  refine (h st st' hsame).bind ?_
  rintro ⟨a, s⟩ ⟨_, s'⟩ ⟨rfl, hsame', hkept, hkept'⟩
  refine (hf a s s' hsame').imp ?_
  rintro r r' ⟨heq, hsame'', hlater, hlater'⟩
  exact ⟨heq, hsame'', fun i hi => (hlater i hi).trans (hkept i hi),
    fun i hi => (hlater' i hi).trans (hkept' i hi)⟩

theorem lift (y : Except BadReference α) : Local scope (liftM y) := by
  intro st st' hsame
  cases y with
  | error e => exact .error e
  | ok a => exact .ok ⟨rfl, hsame, fun _ _ => rfl, fun _ _ => rfl⟩

/-- Only what is the same for the scope is read. -/
theorem get_bind {f : Resolution → Resolve α} (h : ∀ st, Local scope (f st))
    (hreads : ∀ st st', SameFor scope st st' → f st = f st') : Local scope (get >>= f) := by
  intro st st' hsame
  show Agrees _ ((f st).run st) ((f st').run st')
  rw [hreads st st' hsame]
  exact h st' st st' hsame

/-- What directives of the scope bring in may be changed. -/
theorem change {i : Nat} (hi : scope.Binds i) (f : Option Bindings → Bindings) :
    Local scope (modify fun st => st.setBindings i (f (st.bound.lookup i))) := by
  intro st st' hsame
  have hothers : ∀ (st : Resolution) (b : Bindings), KeepsOthers scope st (st.setBindings i b) := by
    intro st b j hj
    refine lookup_upsert_of_ne ?_ _ _
    rintro rfl
    exact hj hi
  refine .ok ⟨rfl, ⟨hsame.table, hsame.remarks, fun j hj => ?_⟩, hothers _ _, hothers _ _⟩
  show (upsert i _ st.bound).lookup j = (upsert i _ st'.bound).lookup j
  by_cases hji : j = i
  · rw [hji, lookup_upsert_self, lookup_upsert_self, hsame.bound i hi]
  · rw [lookup_upsert_of_ne hji, lookup_upsert_of_ne hji, hsame.bound j hj]

theorem remark (text : String) : Local scope (remark text) := by
  intro st st' hsame
  refine .ok ⟨rfl, ⟨hsame.table, ?_, hsame.bound⟩, fun _ _ => rfl, fun _ _ => rfl⟩
  exact congrArg (·.push text) hsame.remarks

theorem of_suffix {m : Resolve α} (h : Local x m) (hx : x <:+ scope) : Local scope m := by
  intro st st' hsame
  have hinside : SameFor x st st' :=
    ⟨hsame.table, hsame.remarks, fun i hi => hsame.bound i (hi.of_suffix hx)⟩
  refine (h st st' hinside).imp ?_
  rintro r r' ⟨heq, hsame', hkept, hkept'⟩
  refine ⟨heq, ⟨hsame'.table, hsame'.remarks, fun i hi => ?_⟩,
    fun i hi => hkept i fun hxi => hi (hxi.of_suffix hx),
    fun i hi => hkept' i fun hxi => hi (hxi.of_suffix hx)⟩
  by_cases hxi : x.Binds i
  · exact hsame'.bound i hxi
  · rw [hkept i hxi, hkept' i hxi, hsame.bound i hi]

theorem forM {γ : Type} {f : γ → Resolve PUnit} (h : ∀ c, Local scope (f c)) (cs : List γ) :
    Local scope (cs.forM f) := by
  induction cs with
  | nil => exact pure _
  | cons c cs ih => exact (h c).bind fun _ => ih

end Local

/-- Lookups that depend only on the directives of a scope. -/
structure LookupLocal (scope : Scope) (l : Lookup) : Prop where
  name : ∀ n arity, Local scope (l.name n arity)
  aliasName : ∀ a, Local scope (l.alias a)

section Locality

variable {scope above : Scope} {l : Lookup}

theorem LookupLocal.of_suffix (h : LookupLocal above l) (hx : above <:+ scope) :
    LookupLocal scope l := ⟨fun n arity => (h.name n arity).of_suffix hx,
      fun a => (h.aliasName a).of_suffix hx⟩

theorem local_qualified (h : LookupLocal scope l) (aliasName : Option String)
    (segments : List (String × Nat)) : Local scope (l.qualified aliasName segments) := by
  have hfollow : ∀ (target : Option Target) (rest : List (String × Nat)),
      Local scope (do liftM ((← get).table.follow target rest)) :=
    fun target rest => .get_bind (fun st => .lift _) fun st st' hsame => by rw [hsame.table]
  unfold Lookup.qualified
  cases aliasName with
  | some a =>
    dsimp only
    split
    · exact (Local.pure _).bind fun target => hfollow target segments
    · exact (h.aliasName a).bind fun target => hfollow target segments
  | none =>
    cases segments with
    | nil => exact .pure none
    | cons segment rest => exact (h.name _ _).bind fun target => hfollow target rest

theorem local_written (h : LookupLocal scope l) (w : Written) : Local scope (l.written w) := by
  cases w with
  | keyword word => exact .get_bind (fun st => .pure _) fun st st' hsame => by rw [hsame.table]
  | name aliasName segments => exact (local_qualified h aliasName segments).bind fun o => .pure _
  | array => exact .get_bind (fun st => .pure _) fun st st' hsame => by rw [hsame.table]
  | other => exact .pure none

theorem local_settleName {i : Nat} (hi : scope.Binds i) (directive target : Tree)
    (resolved : Option Target) : Local scope (settleName i directive target resolved) := by
  have hchange : ∀ f : Bindings → Bindings,
      Local scope (modify fun st => st.setBindings i (f (st.bindings i))) :=
    fun f => .change hi fun o => f (o.getD {})
  unfold settleName
  cases directive.usingAlias? with
  | some a =>
    cases resolved with
    | some found => exact hchange fun b => { b with aliases := upsert a found b.aliases }
    | none => exact .remark _
  | none =>
    dsimp only
    split
    · cases resolved with
      | none => exact .pure ()
      | some found =>
        cases found with
        | type s => exact hchange fun b => { b with statics := b.statics ++ [s] }
        | space name => exact .pure ()
    · cases resolved with
      | none => exact .remark _
      | some found =>
        cases found with
        | type s => exact .remark _
        | space name => exact hchange fun b => { b with imports := b.imports ++ [name] }

theorem local_bindUsing {i : Nat} (hi : scope.Binds i) (h : LookupLocal scope l)
    (directive : Tree) : Local scope (bindUsing i l directive) := by
  rw [bindUsing_eq]
  cases directive.type? with
  | none => exact .pure ()
  | some target =>
    dsimp only
    split
    · exact (local_qualified h _ _).bind fun resolved => local_settleName hi directive target resolved
    · cases directive.usingAlias? with
      | none => exact .pure ()
      | some a =>
        refine (local_written h target.written).bind fun resolved => ?_
        cases resolved with
        | some s =>
          exact .change hi fun o =>
            { o.getD {} with aliases := upsert a (.type s) (o.getD {}).aliases }
        | none => exact .pure ()

theorem local_find (b : Bindings) (n : String) (arity : Nat) : Local scope (b.find? n arity) := by
  unfold Bindings.find?
  split
  · exact .pure _
  · refine .get_bind (fun st => (Local.lift _).bind fun found => ?_)
      fun st st' hsame => by rw [hsame.table]
    dsimp only
    split
    · exact (Local.remark _).bind fun _ => .pure _
    · exact .pure _

theorem local_fromUsing {space : String} {usings : List Tree} {i : Nat}
    (hi : Scope.Binds (.space space usings :: above) i)
    (h : LookupLocal (.space space usings :: above) l) :
    LookupLocal (.space space usings :: above) (Lookup.fromUsing space i l) where
  name n arity := by
    refine .get_bind (fun st => ?_) fun st st' hsame => by rw [hsame.table]
    cases st.table.inNamespace? space n arity with
    | some target => exact .pure _
    | none => exact h.name n arity
  aliasName a := by
    refine .get_bind (fun st => ?_) fun st st' hsame => by rw [hsame.bindings hi]
    cases (st.bindings i).aliases.lookup a with
    | some target => exact .pure _
    | none => exact h.aliasName a

theorem local_bindUsings (space : String) (usings : List Tree)
    (h : LookupLocal above l) : Local (.space space usings :: above) (bindUsings space usings l) := by
  unfold bindUsings
  cases hid : usingsId? usings with
  | none => exact .pure _
  | some i =>
    have hbinds : Scope.Binds (.space space usings :: above) i := ⟨_, List.suffix_rfl, hid⟩
    have hread : Local (.space space usings :: above) (do return (← get).bindings i) :=
      .get_bind (fun st => .pure _) fun st st' hsame => by rw [hsame.bindings hbinds]
    have hcaller := local_fromUsing hbinds (h.of_suffix (List.suffix_cons _ above))
    refine .get_bind (fun st => ?_) fun st st' hsame => by rw [hsame.bound i hbinds]
    split
    · exact (Local.change hbinds fun _ => {}).bind fun _ =>
        (Local.forM (local_bindUsing hbinds hcaller) usings).bind fun _ => hread
    · exact hread

/-- A lookup depends only on the directives of its scope, and changes no others. -/
theorem local_lookup (scope : Scope) : LookupLocal scope scope.lookup := by
  induction scope with
  | nil => exact ⟨fun _ _ => .pure none, fun _ => .pure none⟩
  | cons f above ih =>
    have habove := ih.of_suffix (List.suffix_cons f above)
    cases f with
    | method ps =>
      refine ⟨fun n arity => ?_, habove.aliasName⟩
      show Local _ (if _ then _ else _)
      split
      · exact .pure none
      · exact habove.name n arity
    | type key ps =>
      refine ⟨fun n arity => ?_, habove.aliasName⟩
      show Local _ (if _ then _ else _)
      split
      · exact .pure none
      · refine .get_bind (fun st => ?_) fun st st' hsame => by rw [hsame.table]
        dsimp only
        cases st.table.get? key with
        | none => exact habove.name n arity
        | some container =>
          refine (Local.lift _).bind fun o => ?_
          cases o with
          | some s => exact .pure _
          | none => exact habove.name n arity
    | space space usings =>
      have hbind := local_bindUsings space usings ih
      constructor
      · intro n arity
        refine .get_bind (fun st => ?_) fun st st' hsame => by rw [hsame.table]
        cases st.table.inNamespace? space n arity with
        | some target => exact .pure _
        | none =>
          refine hbind.bind fun b => (local_find b n arity).bind fun o => ?_
          cases o with
          | some target => exact .pure _
          | none => exact habove.name n arity
      · intro a
        refine hbind.bind fun b => ?_
        cases b.aliases.lookup a with
        | some target => exact .pure _
        | none => exact habove.aliasName a

end Locality

/-! ## Base classes -/

namespace SymbolTable

/-- The base classes that are walked have keys of their own, none of which was seen, and all of which
are of types in the table. -/
theorem keys_of_basesFrom (T : SymbolTable) (seen : List String) (base : Option TypeRef) :
    ((T.basesFrom seen base).types.map (·.key)).Nodup
      ∧ ∀ s ∈ (T.basesFrom seen base).types, s.key ∉ seen ∧ s.key ∈ T.types.map (·.2.key) := by
  fun_induction basesFrom T seen base with
  | case1 => simp
  | case2 => simp
  | case3 => simp
  | case4 => simp
  | case5 seen r s hfind hnew ih =>
    obtain ⟨hnodup, hkeys⟩ := ih
    obtain ⟨key, hmem⟩ := exists_mem_types_of_find hfind
    have hnew : s.key ∉ seen := fun hseen => hnew (List.contains_iff_mem.mpr hseen)
    constructor
    · refine List.nodup_cons.mpr ⟨fun hkey => ?_, hnodup⟩
      obtain ⟨c, hc, heq⟩ := List.mem_map.mp hkey
      exact (hkeys c hc).1 (heq ▸ List.mem_cons_self)
    · rintro c (_ | ⟨_, hc⟩)
      · exact ⟨hnew, List.mem_map.mpr ⟨_, hmem, rfl⟩⟩
      · obtain ⟨hfresh, hknown⟩ := hkeys c hc
        exact ⟨fun hseen => hfresh (List.mem_cons_of_mem _ hseen), hknown⟩

/-- The walk to the base classes meets no key twice, however these refer to one another. -/
theorem ancestry_ends (T : SymbolTable) (s : TypeSymbol) :
    ((T.ancestry s).types.map (·.key)).Nodup ∧ (T.ancestry s).types.length ≤ T.size + 1 := by
  obtain ⟨hnodup, hkeys⟩ := T.keys_of_basesFrom [s.key] s.base
  constructor
  · refine List.nodup_cons.mpr ⟨fun hkey => ?_, hnodup⟩
    obtain ⟨c, hc, heq⟩ := List.mem_map.mp hkey
    exact (hkeys c hc).1 (heq ▸ List.mem_cons_self)
  · have hsubset : (T.basesFrom [s.key] s.base).types.map (·.key) ⊆ T.types.map (·.2.key) := by
      intro key hkey
      obtain ⟨c, hc, rfl⟩ := List.mem_map.mp hkey
      exact (hkeys c hc).2
    have hle := (List.subperm_of_subset hnodup hsubset).length_le
    rw [List.length_map, List.length_map] at hle
    exact Nat.succ_le_succ hle

end SymbolTable

/-! ## Calls one after another -/

/-- What may be asked for in a scope: what a name or an alias stands for, or what the directives of the
innermost frame bring in. -/
inductive Call where
  | name (n : String) (arity : Nat)
  | «alias» (a : String)
  | usings

/-- What is found. -/
def Call.run (scope : Scope) : Call → Resolve (Option Target ⊕ Bindings)
  | .name n arity => do return .inl (← scope.lookup.name n arity)
  | .alias a => do return .inl (← scope.lookup.alias a)
  | .usings => do return .inr (← scope.bindInnermost)

/-- What is found by calls of limited depth. -/
def Call.traced (depth : Nat) (scope : Scope) : Call → Traced (Option Target ⊕ Bindings)
  | .name n arity => do
    return .inl (← Caller.nameFrom (bindFrame depth []) n arity false scope)
  | .alias a => do return .inl (← Caller.aliasFrom (bindFrame depth []) a scope)
  | .usings => do return .inr (← bindFrame depth [] scope)

theorem ends_call {known : List Nat} {scope : Scope} {depth : Nat}
    (h : scope.unbound known < depth) (c : Call) :
    Ends known (Inward scope []) (c.traced depth scope) (c.run scope) := by
  have hbinder : ∀ x : Scope, x <:+ scope →
      Ends known (Inward scope []) (bindFrame depth [] x) x.bindInnermost := fun x hx =>
    (ends_bindFrame ((Scope.unbound_le_of_suffix hx).trans_lt h)).imp fun e he => he.of_suffix hx
  cases c with
  | name n arity => exact (ends_nameFrom hbinder n arity).bind fun o => .pure _
  | «alias» a => exact (ends_aliasFrom hbinder a).bind fun o => .pure _
  | usings => exact (hbinder scope List.suffix_rfl).bind fun b => .pure _

theorem local_call (scope : Scope) (c : Call) : Local scope (c.run scope) := by
  cases c with
  | name n arity => exact ((local_lookup scope).name n arity).bind fun o => .pure _
  | «alias» a => exact ((local_lookup scope).aliasName a).bind fun o => .pure _
  | usings =>
    refine Local.bind ?_ fun b => .pure _
    unfold Scope.bindInnermost
    split
    · exact local_bindUsings _ _ (local_lookup _)
    · exact .pure _

/-- A call in a scope, before which more may become known of the types. -/
structure Request where
  learn : SymbolTable → SymbolTable
  scope : Scope
  call : Call

/-- What is found, with what is known then. -/
def Request.run (r : Request) : Resolve (Option Target ⊕ Bindings) := do
  modify fun st => { st with table := r.learn st.table }
  r.call.run r.scope

/-- What is found by calls of limited depth. -/
def Request.traced (depth : Nat) (r : Request) : Traced (Option Target ⊕ Bindings) := do
  Traced.plain (modify fun st => { st with table := r.learn st.table })
  r.call.traced depth r.scope

/-- Calls in the scopes of a tree, one after another, come to an end, whatever is known of the types
before each of them, and however directives and base classes refer to one another. At no time are
more calls under way that bind directives than there are frames around with directives that are not
bound yet. All in all no directives are bound twice; and while some are being bound, only directives
of their frame and of those around it are bound or read, so that what is found depends on no others.
Walks to base classes meet no key twice. -/
theorem lookups_end {source : String} {defined : List String} {root : Tree}
    (hroot : parseUnit source defined = .ok root ∨ parseFragment source defined = .ok root)
    {requests : List Request} (hopens : ∀ r ∈ requests, root.Opens r.scope) {st : Resolution}
    {depth : Nat} (hdepth : ∀ r ∈ requests, r.scope.unbound (st.bound.map (·.1)) < depth) :
    (∃ log, requests.mapM (Request.traced depth) st [] = some ((requests.mapM Request.run).run st, log)
        ∧ (begun log).Nodup
        ∧ (∀ i ∈ begun log, st.bound.lookup i = none)
        ∧ ∀ e ∈ log, ∀ j ∈ e.within, ∀ x : Scope, root.Opens x → x.id? = some j → x.Binds e.id)
      ∧ (∀ r ∈ requests, Local r.scope (r.call.run r.scope))
      ∧ ∀ (T : SymbolTable) (s : TypeSymbol), ((T.ancestry s).types.map (·.key)).Nodup
        ∧ (T.ancestry s).types.length ≤ T.size + 1 := by
  refine ⟨?_, fun r _ => local_call r.scope r.call, SymbolTable.ancestry_ends⟩
  have htree : root.tokens.Pairwise Token.StartsBefore := by
    rcases hroot with hroot | hroot
    · exact (Tree.isUnitOf_of_parseUnit hroot).startsBefore
    · exact (Tree.isTreeOf_of_parseFragment hroot).startsBefore
  -- an offset tells one scope of the tree
  have hinward : ∀ {scope : Scope}, root.Opens scope → ∀ e, Inward scope [] e →
      ∀ j ∈ e.within, ∀ x : Scope, root.Opens x → x.id? = some j → x.Binds e.id := by
    rintro scope hscope e ⟨-, inner, hwithin, hinner⟩ j hj x hx hxj
    rw [hwithin, List.append_nil] at hj
    obtain ⟨y, hy, hyj, hbinds⟩ := hinner j hj
    rwa [hx.eq_of_id? htree (hscope.of_suffix hy) hxj hyj]
  have hends : Ends (st.bound.map (·.1))
      (fun e => ∀ j ∈ e.within, ∀ x : Scope, root.Opens x → x.id? = some j → x.Binds e.id)
      (requests.mapM (Request.traced depth)) (requests.mapM Request.run) := by
    refine Ends.mapM fun r hr => Ends.bind ?_ fun _ =>
      (ends_call (hdepth r hr) r.call).imp (hinward (hopens r hr))
    refine fun st _ => EndsAt.plain ?_
    rintro _ _ ⟨⟩ i
    rfl
  have hknown : ∀ i ∈ st.bound.map (·.1), (st.bound.lookup i).isSome := by
    intro i hi
    obtain ⟨e, he, rfl⟩ := List.mem_map.mp hi
    exact SymbolTable.isSome_lookup_of_mem he
  obtain ⟨log, hrun, hfits⟩ := hends st hknown
  exact ⟨log, hrun [], hfits.once, hfits.fresh, hfits.each⟩

/-- Aliases that refer to one another, and a class that is its own base class. -/
theorem lookups_end_circular :
    ∃ root scope log,
      parseUnit "using A=B;namespace N\x7busing B=A::C;class D:D\x7b\x7d\x7d" [] = .ok root
        ∧ root.Opens scope ∧ scope.unbound [] = 2
        ∧ [⟨id, scope, .name "A" 0⟩, ⟨id, scope, .alias "B"⟩].mapM (Request.traced 3)
            { table := .ofList [] } []
          = some (([⟨id, scope, .name "A" 0⟩, ⟨id, scope, .alias "B"⟩].mapM Request.run).run
            { table := .ofList [] }, log)
        ∧ begun log = [22, 0] ∧ (begun log).Nodup := by
  have hrun : ((parseUnit
      "using A=B;namespace N\x7busing B=A::C;class D:D\x7b\x7d\x7d" []).toOption.bind
      fun root => ((root.scoped [])[10]?.bind (·.outer)).map fun scope => (scope.unbound [],
        ([⟨id, scope, .name "A" 0⟩, ⟨id, scope, .alias "B"⟩].mapM (Request.traced 3)
          { table := .ofList [] } []).map fun r => begun r.2)) = some (2, some [22, 0]) := by
    decide +kernel
  obtain ⟨root, hroot, hrun⟩ := Option.bind_eq_some_iff.mp hrun
  obtain ⟨scope, hscope, hrun⟩ := Option.map_eq_some_iff.mp hrun
  obtain ⟨n, hn, houter⟩ := Option.bind_eq_some_iff.mp hscope
  obtain ⟨hunbound, hrun⟩ := Prod.mk.inj hrun
  have hroot := ok_of_toOption hroot
  have hopens : root.Opens scope :=
    ⟨n, List.mem_of_getElem? hn, scope, .inl houter, List.suffix_rfl⟩
  have hrequests : ∀ r ∈ [⟨id, scope, .name "A" 0⟩, Request.mk id scope (.alias "B")],
      root.Opens r.scope := by simp [hopens]
  have hdepth : ∀ r ∈ [⟨id, scope, .name "A" 0⟩, Request.mk id scope (.alias "B")],
      r.scope.unbound ((Resolution.mk (.ofList []) [] #[]).bound.map (·.1)) < 3 := by
    simp [hunbound]
  obtain ⟨log, htraced, honce, -⟩ := (lookups_end (.inl hroot) hrequests hdepth).1
  rw [htraced] at hrun
  exact ⟨root, scope, log, hroot, hopens, hunbound, htraced, Option.some.inj hrun, honce⟩

end NullableMarker
