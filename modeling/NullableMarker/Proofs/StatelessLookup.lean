import NullableMarker.Proofs.Lookups
import NullableMarker.Proofs.OpenedScopes

/-!
# Looking names up without a state

Using directives are bound when a lookup first gets to them, and what they bring in is kept. What
they bring in is a function of the table and of the scope, and so is what a name is found to stand
for. This module says what these functions are, and that over tables of types that are alike they
give targets that are. In which sense types are alike is a parameter.

* `Scope.finder` — looking names up without a state
* `Agrees` — two outcomes, both faults or both results
* `SymbolTable.Alike` — tables of types that are alike
-/

namespace NullableMarker

/-! ## Outcomes -/

/-- Both fail in the same way, or both succeed with related results. -/
inductive Agrees {α β : Type} (R : α → β → Prop) :
    Except BadReference α → Except BadReference β → Prop
  | ok {a : α} {b : β} (h : R a b) : Agrees R (.ok a) (.ok b)
  | error (fault : BadReference) : Agrees R (.error fault) (.error fault)

namespace Agrees

variable {α β γ δ : Type} {R : α → β → Prop} {S : γ → δ → Prop}

theorem bind {x : Except BadReference α} {y : Except BadReference β} (h : Agrees R x y)
    {f : α → Except BadReference γ} {g : β → Except BadReference δ}
    (hf : ∀ a b, R a b → Agrees S (f a) (g b)) : Agrees S (x >>= f) (y >>= g) := by
  cases h with
  | ok h => exact hf _ _ h
  | error fault => exact .error fault

theorem map {x : Except BadReference α} {y : Except BadReference β} (h : Agrees R x y) {f : α → γ}
    {g : β → δ} (hf : ∀ a b, R a b → S (f a) (g b)) : Agrees S (x.map f) (y.map g) := by
  cases h with
  | ok h => exact .ok (hf _ _ h)
  | error fault => exact .error fault

theorem imp {R' : α → β → Prop} {x : Except BadReference α} {y : Except BadReference β}
    (h : Agrees R x y) (himp : ∀ a b, R a b → R' a b) : Agrees R' x y := by
  cases h with
  | ok h => exact .ok (himp _ _ h)
  | error fault => exact .error fault

theorem mapM {xs : List α} {ys : List β} {f : α → Except BadReference γ}
    {g : β → Except BadReference δ} (h : List.Forall₂ R xs ys)
    (hf : ∀ a b, R a b → Agrees S (f a) (g b)) :
    Agrees (List.Forall₂ S) (xs.mapM f) (ys.mapM g) := by
  induction h with
  | nil => exact .ok .nil
  | cons hab _ ih =>
    rw [List.mapM_cons, List.mapM_cons]
    refine (hf _ _ hab).bind fun c d hcd => ih.bind fun cs ds hcds => ?_
    exact .ok (.cons hcd hcds)

end Agrees

/-! ## Looking up without a state -/

/-- How names and aliases are looked up, without a state. -/
structure Finder where
  name : String → Nat → Except BadReference (Option Target)
  «alias» : String → Except BadReference (Option Target)

namespace Finder

/-- Nothing is found outside all frames. -/
def nowhere : Finder := ⟨fun _ _ => pure none, fun _ => pure none⟩

/-- Resolves a dotted name after an alias, if it has one. -/
def qualified (l : Finder) (T : SymbolTable) (aliasName : Option String)
    (segments : List (String × Nat)) : Except BadReference (Option Target) := do
  match aliasName, segments with
  | some a, segments =>
    let target ← if a == "global" then pure (some (.space "")) else l.alias a
    T.follow target segments
  | none, [] => return none
  | none, (name, arity) :: rest =>
    let target ← l.name name arity
    T.follow target rest

/-- Resolves what a type says. -/
def written (l : Finder) (T : SymbolTable) : Written → Except BadReference (Option TypeSymbol)
  | .keyword word => return (Special.ofWord? word).bind T.special?
  | .name aliasName segments => return (← l.qualified T aliasName segments).bind (·.type?)
  | .array => return T.lookup "System" "Array" 0
  | .other => return none

/-- What a directive of the namespace `space` sees, given what those before it brought in. -/
def fromUsing (T : SymbolTable) (space : String) (b : Bindings) (above : Finder) : Finder where
  name n arity :=
    match T.inNamespace? space n arity with
    | some target => pure (some target)
    | none => above.name n arity
  «alias» a :=
    match b.aliases.lookup a with
    | some target => pure (some target)
    | none => above.alias a

/-- What the directives before one and that one bring in. -/
def bindUsing (l : Finder) (T : SymbolTable) (b : Bindings) (directive : Tree) :
    Except BadReference Bindings := do
  match directive.type? with
  | none => return b
  | some target =>
    if target.isNode (· == .name) then
      let resolved ← l.qualified T target.writtenName.1 target.writtenName.2
      match directive.usingAlias? with
      | some a =>
        match resolved with
        | some found => return { b with aliases := upsert a found b.aliases }
        | none => return b
      | none =>
        if directive.isStaticUsing then
          match resolved with
          | some (.type s) => return { b with statics := b.statics ++ [s] }
          | _ => return b
        else
          match resolved with
          | some (.space name) => return { b with imports := b.imports ++ [name] }
          | _ => return b
    else
      match directive.usingAlias? with
      | none => return b
      | some a =>
        match ← l.written T target.written with
        | some s => return { b with aliases := upsert a (.type s) b.aliases }
        | none => return b

/-- What the directives of a namespace bring in. Those at an offset in `known` are bound already. -/
def bindUsings (T : SymbolTable) (known : Nat → Option Bindings) (space : String)
    (usings : List Tree) (above : Finder) : Except BadReference Bindings :=
  match usingsId? usings with
  | none => pure {}
  | some id =>
    match known id with
    | some b => pure b
    | none => usings.foldlM (fun b d => (fromUsing T space b above).bindUsing T b d) {}

end Finder

/-- What a name stands for among what the directives of a namespace bring in. -/
def Bindings.found (b : Bindings) (T : SymbolTable) (name : String) (arity : Nat) :
    Except BadReference (Option Target) := do
  match if arity == 0 then b.aliases.lookup name else none with
  | some target => return some target
  | none => return (← b.candidates T name arity).head?.map .type

/-- Looking names up inside a frame, given how it is done around it. -/
def Frame.finder (T : SymbolTable) (known : Nat → Option Bindings) (f : Frame) (above : Finder) :
    Finder :=
  match f with
  | .method ps =>
    { above with name := fun n arity =>
        if arity == 0 && ps.contains n then pure none else above.name n arity }
  | .type key ps =>
    { above with name := fun n arity => do
        if arity == 0 && ps.contains n then return none
        else
          match T.get? key with
          | none => above.name n arity
          | some container =>
            match ← T.nested container n arity with
            | some s => return some (.type s)
            | none => above.name n arity }
  | .space spaceName usings =>
    { name := fun n arity => do
        match T.inNamespace? spaceName n arity with
        | some target => return some target
        | none =>
          let b ← Finder.bindUsings T known spaceName usings above
          match ← b.found T n arity with
          | some target => return some target
          | none => above.name n arity
      «alias» := fun a => do
        let b ← Finder.bindUsings T known spaceName usings above
        match b.aliases.lookup a with
        | some target => return some target
        | none => above.alias a }

namespace Scope

/-- Looking names up from a scope. -/
def finder (T : SymbolTable) (known : Nat → Option Bindings) (scope : Scope) : Finder :=
  scope.foldr (Frame.finder T known) Finder.nowhere

/-- What the directives of the innermost frame bring in. -/
def bindings (T : SymbolTable) (known : Nat → Option Bindings) :
    Scope → Except BadReference Bindings
  | .space space usings :: above => Finder.bindUsings T known space usings (finder T known above)
  | _ => pure {}

theorem bindings_of_known {T : SymbolTable} {known : Nat → Option Bindings} {x : Scope} {i : Nat}
    {b : Bindings} (hi : x.id? = some i) (hb : known i = some b) : x.bindings T known = .ok b := by
  unfold Scope.id? at hi
  split at hi
  · rw [bindings, Finder.bindUsings, hi]
    dsimp only
    rw [hb]
    rfl
  · cases hi

end Scope

/-! ## Types that are alike -/

/-- Targets that are alike: types that are, and the same namespaces. -/
inductive Target.Alike (like : TypeSymbol → TypeSymbol → Prop) : Target → Target → Prop
  | type {s t : TypeSymbol} (h : like s t) : Alike like (.type s) (.type t)
  | space (name : String) : Alike like (.space name) (.space name)

/-- Tables of types that are alike. -/
structure SymbolTable.Alike (like : TypeSymbol → TypeSymbol → Prop) (T U : SymbolTable) : Prop where
  get? : ∀ key, Option.Rel like (T.get? key) (U.get? key)
  special? : ∀ word, Option.Rel like (T.special? word) (U.special? word)
  hasNamespace : ∀ name, T.hasNamespace name = U.hasNamespace name
  nested : ∀ {s t}, like s t → ∀ name arity,
    Agrees (Option.Rel like) (T.nested s name arity) (U.nested t name arity)

/-- Bindings of types that are alike. -/
structure Bindings.Alike (like : TypeSymbol → TypeSymbol → Prop) (b c : Bindings) : Prop where
  aliases : ∀ a, Option.Rel (Target.Alike like) (b.aliases.lookup a) (c.aliases.lookup a)
  imports : b.imports = c.imports
  statics : List.Forall₂ like b.statics c.statics

section Alike

variable {like : TypeSymbol → TypeSymbol → Prop}

theorem Bindings.alike_empty : Bindings.Alike like {} {} := ⟨fun _ => .none, rfl, .nil⟩

theorem Bindings.alike_refl (b : Bindings) : Bindings.Alike Eq b b where
  aliases a := by
    cases b.aliases.lookup a with
    | none => exact .none
    | some t =>
      cases t with
      | type s => exact .some (.type rfl)
      | space name => exact .some (.space name)
  imports := rfl
  statics := List.forall₂_same.mpr fun _ _ => rfl

theorem Bindings.Alike.withAlias {b c : Bindings} (h : b.Alike like c) (a : String) {t u : Target}
    (ht : t.Alike like u) :
    Bindings.Alike like { b with aliases := upsert a t b.aliases }
      { c with aliases := upsert a u c.aliases } where
  aliases a' := by
    by_cases ha : a' = a
    · rw [ha, lookup_upsert_self, lookup_upsert_self]
      exact .some ht
    · rw [lookup_upsert_of_ne ha, lookup_upsert_of_ne ha]
      exact h.aliases a'
  imports := h.imports
  statics := h.statics

theorem SymbolTable.alike_refl (T : SymbolTable) : SymbolTable.Alike Eq T T := by
  have hrel : ∀ o : Option TypeSymbol, Option.Rel Eq o o := by
    intro o
    cases o with
    | none => exact .none
    | some s => exact .some rfl
  refine ⟨fun key => hrel _, fun word => hrel _, fun _ => rfl, ?_⟩
  rintro s _ rfl name arity
  cases T.nested s name arity with
  | error fault => exact .error fault
  | ok o => exact .ok (hrel o)

namespace SymbolTable.Alike

variable {T U : SymbolTable}

theorem lookup (h : T.Alike like U) (space name : String) (arity : Int) :
    Option.Rel like (T.lookup space name arity) (U.lookup space name arity) := h.get? _

theorem inNamespace? (h : T.Alike like U) (space name : String) (arity : Nat) :
    Option.Rel (Target.Alike like) (T.inNamespace? space name arity)
      (U.inNamespace? space name arity) := by
  unfold SymbolTable.inNamespace?
  have hlookup := h.lookup space name arity
  rw [h.hasNamespace]
  generalize T.lookup space name arity = o at hlookup
  generalize U.lookup space name arity = o' at hlookup
  cases hlookup with
  | some hs => exact .some (.type hs)
  | none =>
    dsimp only
    split
    · exact .some (.space _)
    · exact .none

theorem member (h : T.Alike like U) {t u : Target} (ht : t.Alike like u) (name : String)
    (arity : Nat) :
    Agrees (Option.Rel (Target.Alike like)) (T.member t name arity) (U.member u name arity) := by
  cases ht with
  | space space => exact .ok (h.inNamespace? space name arity)
  | type hs =>
    refine (h.nested hs name arity).map ?_
    rintro _ _ (hs | _)
    · exact .some (.type hs)
    · exact .none

theorem follow (h : T.Alike like U) {o o' : Option Target}
    (ho : Option.Rel (Target.Alike like) o o') (segments : List (String × Nat)) :
    Agrees (Option.Rel (Target.Alike like)) (T.follow o segments) (U.follow o' segments) := by
  induction segments generalizing o o' with
  | nil => exact .ok ho
  | cons segment segments ih =>
    obtain ⟨name, arity⟩ := segment
    cases ho with
    | none => exact .ok .none
    | some ht => exact (h.member ht name arity).bind fun _ _ hnext => ih hnext

theorem candidates (h : T.Alike like U) {b c : Bindings} (hb : b.Alike like c) (name : String)
    (arity : Nat) :
    Agrees (List.Forall₂ like) (b.candidates T name arity) (c.candidates U name arity) := by
  have hfound : ∀ {γ : Type} (f g : γ → Option TypeSymbol) (xs : List γ),
      (∀ x, Option.Rel like (f x) (g x)) →
      List.Forall₂ like (xs.filterMap f) (xs.filterMap g) := by
    intro γ f g xs hfg
    induction xs with
    | nil => exact .nil
    | cons x xs ih =>
      have hx := hfg x
      rw [List.filterMap_cons, List.filterMap_cons]
      generalize f x = o at hx
      generalize g x = o' at hx
      cases hx with
      | none => exact ih
      | some hs => exact .cons hs ih
  unfold Bindings.candidates
  refine (Agrees.mapM hb.statics fun s t hs => h.nested hs name arity).bind ?_
  intro os os' hos
  refine .ok (List.rel_append ?_ ?_)
  · rw [hb.imports]
    exact hfound _ _ _ fun space => h.lookup space name arity
  · induction hos with
    | nil => exact .nil
    | cons ho _ ih =>
      cases ho with
      | none => exact ih
      | some hs => exact .cons hs ih

end SymbolTable.Alike

end Alike

end NullableMarker
