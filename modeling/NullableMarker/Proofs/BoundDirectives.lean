import NullableMarker.Proofs.StatelessLookup

/-!
# States in which directives are bound

A lookup binds the directives that it gets to, those of outer namespaces first, and an alias may be
looked up among directives that are bound only in part. Whatever is bound on the way, a lookup from
a scope finds what it finds without a state, as long as each directive of the scope is unbound or
bound to what it brings in.

* `Resolves`, `Keeps` — a computation with a state beside one without
* `Stands`, `StandsIn` — the states in which the directives of a scope, or of a tree, may be bound
* `lookupKeeps_lookup` — lookups from a scope
* `lookupKeeps_of_opens` — lookups from the scopes of a tree
-/

namespace NullableMarker

/-! ## With a state and without -/

/-- From a state with the first property, the computation with a state comes out as the one without;
then the second property holds of the results and of the state left. -/
def Resolves {α β : Type} (P : Resolution → Prop) (m : Resolve α) (x : Except BadReference β)
    (Q : α → β → Resolution → Prop) : Prop :=
  ∀ st, P st → Agrees (fun r b => Q r.1 b r.2) (m.run st) x

namespace Resolves

variable {α β γ δ : Type} {P P' : Resolution → Prop} {Q : α → β → Resolution → Prop}
  {R : γ → δ → Resolution → Prop}

theorem pure {a : α} {b : β} (h : ∀ st, P st → Q a b st) :
    Resolves P (Pure.pure a) (Pure.pure b) Q := fun st hst => .ok (h st hst)

theorem bind {m : Resolve α} {x : Except BadReference β} {f : α → Resolve γ}
    {g : β → Except BadReference δ} (h : Resolves P m x Q)
    (hf : ∀ a b, Resolves (Q a b) (f a) (g b) R) : Resolves P (m >>= f) (x >>= g) R :=
  fun st hst => (h st hst).bind fun r b hr => hf r.1 b r.2 hr

/-- Something is made of the result. -/
theorem bind_pure {m : Resolve α} {x : Except BadReference β} (h : Resolves P m x Q) {f : α → γ}
    {R : γ → β → Resolution → Prop} (hR : ∀ a b st, Q a b st → R (f a) b st) :
    Resolves P (m >>= fun a => Pure.pure (f a)) x R := by
  intro st hst
  have hout := h st hst
  show Agrees _ (m.run st >>= fun r => Pure.pure (f r.1, r.2)) x
  generalize m.run st = y at hout
  cases hout with
  | ok hQ => exact .ok (hR _ _ _ hQ)
  | error fault => exact .error fault

theorem of_imp {m : Resolve α} {x : Except BadReference β} (h : Resolves P' m x Q)
    (himp : ∀ st, P st → P' st) : Resolves P m x Q := fun st hst => h st (himp st hst)

/-- The result is that of the computation without a state. -/
theorem with_eq {m : Resolve α} {x : Except BadReference β} (h : Resolves P m x Q) :
    Resolves P m x fun a b st => x = .ok b ∧ Q a b st := by
  intro st hst
  have hout := h st hst
  generalize m.run st = y at hout
  cases hout with
  | ok hQ => exact .ok ⟨rfl, hQ⟩
  | error fault => exact .error fault

/-- Reading the state. -/
theorem get_bind {f : Resolution → Resolve γ} {x : Except BadReference δ}
    (h : ∀ st, P st → Resolves (· = st) (f st) x R) : Resolves P (get >>= f) x R :=
  fun st hst => h st hst st rfl

/-- Changing the state. -/
theorem modify_bind {change : Resolution → Resolution} {f : PUnit → Resolve γ}
    {x : Except BadReference δ} (hP : ∀ st, P st → P' (change st)) (h : Resolves P' (f ⟨⟩) x R) :
    Resolves P (modify change >>= f) x R := fun st hst => h (change st) (hP st hst)

theorem lift {y : Except BadReference α} {x : Except BadReference β} {S : α → β → Prop}
    (hy : Agrees S y x) (h : ∀ a b st, S a b → P st → Q a b st) :
    Resolves P (liftM y : Resolve α) x Q := by
  intro st hst
  cases hy with
  | ok hab => exact .ok (h _ _ st hab hst)
  | error fault => exact .error fault

/-- A loop with a state beside a fold without: what the fold has come to says what the state is. -/
theorem forM {I : δ → Resolution → Prop} {f : γ → Resolve PUnit}
    {g : δ → γ → Except BadReference δ}
    (h : ∀ d c, Resolves (I d) (f c) (g d c) fun _ d' => I d') (cs : List γ) (d : δ) :
    Resolves (I d) (cs.forM f) (cs.foldlM g d) fun _ d' => I d' := by
  induction cs generalizing d with
  | nil => exact pure fun _ hst => hst
  | cons c cs ih =>
    rw [List.foldlM_cons]
    exact (h d c).bind fun _ d' => ih d'

end Resolves

/-! ## Lookups that keep an invariant -/

/-- A computation that comes out as one without a state, with related results, and keeps an
invariant. -/
def Keeps {α β : Type} (I : Resolution → Prop) (R : α → β → Prop) (m : Resolve α)
    (x : Except BadReference β) : Prop := Resolves I m x fun a b st => R a b ∧ I st

namespace Keeps

variable {α β γ δ : Type} {I : Resolution → Prop} {R : α → β → Prop} {S : γ → δ → Prop}

theorem pure {a : α} {b : β} (h : R a b) : Keeps I R (Pure.pure a) (Pure.pure b) :=
  Resolves.pure fun _ hst => ⟨h, hst⟩

/-- What comes after may change the state. -/
theorem andThen {m : Resolve α} {x : Except BadReference β} (h : Keeps I R m x) {f : α → Resolve γ}
    {g : β → Except BadReference δ} {Q : γ → δ → Resolution → Prop}
    (hf : ∀ a b, R a b → Resolves I (f a) (g b) Q) : Resolves I (m >>= f) (x >>= g) Q :=
  Resolves.bind h fun a b st hst => hf a b hst.1 st hst.2

theorem bind {m : Resolve α} {x : Except BadReference β} (h : Keeps I R m x) {f : α → Resolve γ}
    {g : β → Except BadReference δ} (hf : ∀ a b, R a b → Keeps I S (f a) (g b)) :
    Keeps I S (m >>= f) (x >>= g) := h.andThen hf

theorem imp {R' : α → β → Prop} {m : Resolve α} {x : Except BadReference β} (h : Keeps I R m x)
    (himp : ∀ a b, R a b → R' a b) : Keeps I R' m x :=
  fun st hst => (h st hst).imp fun r b hr => ⟨himp r.1 b hr.1, hr.2⟩

theorem get_bind {f : Resolution → Resolve γ} {x : Except BadReference δ}
    (h : ∀ st, I st → Keeps I S (f st) x) : Keeps I S (get >>= f) x :=
  Resolves.get_bind fun st hst => (h st hst).of_imp fun _ heq => heq ▸ hst

theorem lift {y : Except BadReference α} {x : Except BadReference β} (h : Agrees R y x) :
    Keeps I R (liftM y : Resolve α) x := Resolves.lift h fun _ _ _ hab hst => ⟨hab, hst⟩

theorem mapM {xs : List α} {f : α → Resolve β} {g : α → Except BadReference β}
    (h : ∀ a ∈ xs, Keeps I Eq (f a) (g a)) : Keeps I Eq (xs.mapM f) (xs.mapM g) := by
  induction xs with
  | nil => exact Keeps.pure rfl
  | cons a xs ih =>
    rw [List.mapM_cons, List.mapM_cons]
    refine (h a List.mem_cons_self).bind ?_
    rintro b _ rfl
    refine (ih fun c hc => h c (List.mem_cons_of_mem a hc)).bind ?_
    rintro bs _ rfl
    exact Keeps.pure rfl

theorem foldlM {xs : List α} {f : β → α → Resolve β} {g : β → α → Except BadReference β}
    (h : ∀ b a, Keeps I Eq (f b a) (g b a)) {b : β} :
    Keeps I Eq (xs.foldlM f b) (xs.foldlM g b) := by
  induction xs generalizing b with
  | nil => exact Keeps.pure rfl
  | cons a xs ih =>
    rw [List.foldlM_cons, List.foldlM_cons]
    refine (h b a).bind ?_
    rintro c _ rfl
    exact ih

theorem of_run {m : Resolve α} {x : Except BadReference α} (h : Keeps I Eq m x)
    {st st' : Resolution} {a : α} (hst : I st) (hm : m.run st = .ok (a, st')) :
    x = .ok a ∧ I st' := by
  have hout := h st hst
  rw [hm] at hout
  cases hout with
  | ok hr => exact ⟨congrArg Except.ok hr.1.symm, hr.2⟩

theorem exists_run {m : Resolve α} {a : α} (h : Keeps I Eq m (.ok a)) {st : Resolution}
    (hst : I st) : ∃ st', m.run st = .ok (a, st') ∧ I st' := by
  have hout := h st hst
  generalize m.run st = y at hout
  cases hout with
  | ok hr => exact ⟨_, by rw [← hr.1], hr.2⟩

/-- From every state with the invariant, the result is that of the computation without a state. -/
theorem run'_eq {m : Resolve α} {x : Except BadReference α} (h : Keeps I Eq m x) {st : Resolution}
    (hst : I st) : m.run' st = x := by
  have hout := h st hst
  show Prod.fst <$> m.run st = x
  generalize m.run st = y at hout
  cases hout with
  | ok hr => exact congrArg Except.ok hr.1
  | error fault => rfl

end Keeps

/-- Lookups that come out as without a state, and keep an invariant. -/
structure LookupKeeps (like : TypeSymbol → TypeSymbol → Prop) (I : Resolution → Prop) (l : Lookup)
    (k : Finder) : Prop where
  name : ∀ n arity, Keeps I (Option.Rel (Target.Alike like)) (l.name n arity) (k.name n arity)
  aliasName : ∀ a, Keeps I (Option.Rel (Target.Alike like)) (l.alias a) (k.alias a)

section Names

variable {like : TypeSymbol → TypeSymbol → Prop} {U : SymbolTable} {I : Resolution → Prop}
  {l : Lookup} {k : Finder}

theorem keeps_qualified (hI : ∀ st, I st → st.table.Alike like U) (hl : LookupKeeps like I l k)
    (aliasName : Option String) (segments : List (String × Nat)) :
    Keeps I (Option.Rel (Target.Alike like)) (l.qualified aliasName segments)
      (k.qualified U aliasName segments) := by
  have hafter : ∀ (rest : List (String × Nat)) (o o' : Option Target),
      Option.Rel (Target.Alike like) o o' → Keeps I (Option.Rel (Target.Alike like))
        (do liftM ((← get).table.follow o rest)) (U.follow o' rest) :=
    fun rest o o' ho => Keeps.get_bind fun st hst => Keeps.lift ((hI st hst).follow ho rest)
  unfold Lookup.qualified Finder.qualified
  cases aliasName with
  | some a =>
    dsimp only
    split
    · exact (Keeps.pure (.some (.space ""))).bind (hafter segments)
    · exact (hl.aliasName a).bind (hafter segments)
  | none =>
    cases segments with
    | nil => exact Keeps.pure .none
    | cons segment rest => exact (hl.name _ _).bind (hafter rest)

theorem keeps_written (hI : ∀ st, I st → st.table.Alike like U) (hl : LookupKeeps like I l k)
    (x : Written) : Keeps I (Option.Rel like) (l.written x) (k.written U x) := by
  cases x with
  | keyword word =>
    refine Keeps.get_bind fun st hst => Keeps.pure ?_
    cases Special.ofWord? word with
    | none => exact .none
    | some special => exact (hI st hst).special? special
  | name aliasName segments =>
    refine (keeps_qualified hI hl aliasName segments).bind ?_
    rintro o o' (ht | _)
    · cases ht with
      | type hs => exact Keeps.pure (.some hs)
      | space name => exact Keeps.pure .none
    · exact Keeps.pure .none
  | array => exact Keeps.get_bind fun st hst => Keeps.pure ((hI st hst).lookup _ _ _)
  | other => exact Keeps.pure .none

theorem keeps_found (hI : ∀ st, I st → st.table.Alike like U)
    (hremark : ∀ st r, I st → I { st with remarks := r }) {b c : Bindings} (hb : b.Alike like c)
    (name : String) (arity : Nat) :
    Keeps I (Option.Rel (Target.Alike like)) (b.find? name arity) (c.found U name arity) := by
  have halias : Option.Rel (Target.Alike like) (if arity == 0 then b.aliases.lookup name else none)
      (if arity == 0 then c.aliases.lookup name else none) := by
    split
    · exact hb.aliases name
    · exact .none
  unfold Bindings.find? Bindings.found
  generalize (if arity == 0 then b.aliases.lookup name else none) = o at halias
  generalize (if arity == 0 then c.aliases.lookup name else none) = o' at halias
  cases halias with
  | some ht => exact Keeps.pure (.some ht)
  | none =>
    refine Keeps.get_bind fun st hst => ?_
    refine (Keeps.lift ((hI st hst).candidates hb name arity)).bind fun found found' hfound => ?_
    have hend : Keeps I (Option.Rel (Target.Alike like)) (pure (found.head?.map Target.type))
        (pure (found'.head?.map Target.type)) := by
      refine Keeps.pure ?_
      cases hfound with
      | nil => exact .none
      | cons hs _ => exact .some (.type hs)
    dsimp only
    split
    · exact Resolves.modify_bind (fun st hst => hremark st _ hst) hend
    · exact hend

end Names

/-! ## States -/

namespace Scope

/-- Directives of the scope are told by the offset. -/
def Binds (scope : Scope) (i : Nat) : Prop := ∃ x : Scope, x <:+ scope ∧ x.id? = some i

/-- The directives of different frames are told by different offsets. -/
def Distinct (scope : Scope) : Prop :=
  ∀ (x y : Scope) (i : Nat), x <:+ scope → y <:+ scope → x.id? = some i → y.id? = some i → x = y

theorem Distinct.of_cons {f : Frame} {above : Scope} (h : Distinct (f :: above)) :
    above.Distinct := fun x y i hx hy => h x y i (hx.trans (List.suffix_cons f above))
      (hy.trans (List.suffix_cons f above))

/-- The directives of a frame are not told by an offset that tells directives around it. -/
theorem Distinct.not_binds {f : Frame} {above : Scope} (h : Distinct (f :: above)) {i : Nat}
    (hi : Scope.id? (f :: above) = some i) : ¬ above.Binds i := by
  rintro ⟨x, hx, hxi⟩
  have heq := h x _ i (hx.trans (List.suffix_cons f above)) List.suffix_rfl hxi hi
  have hlength := hx.length_le
  rw [heq, List.length_cons] at hlength
  omega

end Scope

/-- What may be bound to the directives of the innermost frame, told by `i`. -/
inductive Scope.Holds (like : TypeSymbol → TypeSymbol → Prop) (U : SymbolTable)
    (known : Nat → Option Bindings) (x : Scope) (i : Nat) : Option Bindings → Prop
  | unbound (h : known i = none) : Holds like U known x i none
  | bound {b c : Bindings} (hc : x.bindings U known = .ok c) (hb : b.Alike like c) :
      Holds like U known x i (some b)

/-- The states in which the directives of a scope may be bound. Those that are not of the scope are
bound as `rest` says. -/
structure Stands (like : TypeSymbol → TypeSymbol → Prop) (U : SymbolTable)
    (known : Nat → Option Bindings) (scope : Scope) (rest : Nat → Option Bindings)
    (st : Resolution) : Prop where
  table : st.table.Alike like U
  outside : ∀ i, ¬ scope.Binds i → st.bound.lookup i = rest i
  bound : ∀ (x : Scope) (i : Nat), x <:+ scope → x.id? = some i →
    x.Holds like U known i (st.bound.lookup i)

theorem Scope.binds_cons {f : Frame} {above : Scope} {i : Nat} :
    Scope.Binds (f :: above) i ↔ Scope.id? (f :: above) = some i ∨ above.Binds i := by
  constructor
  · rintro ⟨x, hx, hi⟩
    rcases Scope.suffix_of_cons hx with rfl | hx
    · exact .inl hi
    · exact .inr ⟨x, hx, hi⟩
  · rintro (hi | ⟨x, hx, hi⟩)
    · exact ⟨_, List.suffix_rfl, hi⟩
    · exact ⟨x, hx.trans (List.suffix_cons f above), hi⟩

namespace Stands

variable {like : TypeSymbol → TypeSymbol → Prop} {U : SymbolTable}
  {known rest : Nat → Option Bindings} {scope above : Scope} {st : Resolution} {f : Frame} {i : Nat}

theorem remark (h : Stands like U known scope rest st) (r : Array String) :
    Stands like U known scope rest { st with remarks := r } := ⟨h.table, h.outside, h.bound⟩

theorem of_cons_of_none (hid : Scope.id? (f :: above) = none)
    (h : Stands like U known (f :: above) rest st) : Stands like U known above rest st where
  table := h.table
  outside j hj := by
    refine h.outside j fun hbinds => ?_
    rcases Scope.binds_cons.mp hbinds with hi | hbinds
    · rw [hid] at hi
      cases hi
    · exact hj hbinds
  bound x j hx := h.bound x j (hx.trans (List.suffix_cons f above))

theorem cons_of_none (hid : Scope.id? (f :: above) = none)
    (h : Stands like U known above rest st) : Stands like U known (f :: above) rest st where
  table := h.table
  outside j hj := h.outside j fun hbinds => hj (Scope.binds_cons.mpr (.inr hbinds))
  bound x j hx hj := by
    rcases Scope.suffix_of_cons hx with rfl | hx
    · rw [hid] at hj
      cases hj
    · exact h.bound x j hx hj

/-- The directives of the innermost frame are not of the scope around it. -/
theorem of_cons (hid : Scope.id? (f :: above) = some i)
    (h : Stands like U known (f :: above) rest st) :
    Stands like U known above (Function.update rest i (st.bound.lookup i)) st where
  table := h.table
  outside j hj := by
    by_cases hji : j = i
    · rw [hji, Function.update_self]
    · rw [Function.update_of_ne hji]
      refine h.outside j fun hbinds => ?_
      rcases Scope.binds_cons.mp hbinds with hj' | hbinds
      · rw [hid] at hj'
        exact hji (Option.some.inj hj').symm
      · exact hj hbinds
  bound x j hx := h.bound x j (hx.trans (List.suffix_cons f above))

theorem lookup_self (hnot : ¬ above.Binds i) {o : Option Bindings}
    (h : Stands like U known above (Function.update rest i o) st) : st.bound.lookup i = o := by
  rw [h.outside i hnot, Function.update_self]

theorem cons (hid : Scope.id? (f :: above) = some i) (hnot : ¬ above.Binds i)
    {o : Option Bindings} (h : Stands like U known above (Function.update rest i o) st)
    (ho : Scope.Holds like U known (f :: above) i o) :
    Stands like U known (f :: above) rest st where
  table := h.table
  outside j hj := by
    rw [h.outside j fun hbinds => hj (Scope.binds_cons.mpr (.inr hbinds)), Function.update_of_ne]
    rintro rfl
    exact hj (Scope.binds_cons.mpr (.inl hid))
  bound x j hx hj := by
    rcases Scope.suffix_of_cons hx with rfl | hx
    · rw [hid] at hj
      cases hj
      rw [lookup_self hnot h]
      exact ho
    · exact h.bound x j hx hj

/-- Directives that are not of the scope are bound anew. -/
theorem setBindings (hnot : ¬ above.Binds i) {o : Option Bindings}
    (h : Stands like U known above (Function.update rest i o) st) (b : Bindings) :
    Stands like U known above (Function.update rest i (some b)) (st.setBindings i b) where
  table := h.table
  outside j hj := by
    show (upsert i b st.bound).lookup j = _
    by_cases hji : j = i
    · rw [hji, Function.update_self, lookup_upsert_self]
    · have := h.outside j hj
      rw [Function.update_of_ne hji] at this
      rw [Function.update_of_ne hji, lookup_upsert_of_ne hji, this]
  bound x j hx hj := by
    show x.Holds like U known j ((upsert i b st.bound).lookup j)
    rw [lookup_upsert_of_ne]
    · exact h.bound x j hx hj
    · rintro rfl
      exact hnot ⟨x, hx, hj⟩

end Stands

/-! ## Binding directives -/

section Usings

variable {like : TypeSymbol → TypeSymbol → Prop} {U : SymbolTable}
  {known rest : Nat → Option Bindings} {above : Scope} {i : Nat} {l : Lookup} {k : Finder}

/-- The states while the directives told by `i` are being bound: those so far have brought in
`b`. -/
def Binding (like : TypeSymbol → TypeSymbol → Prop) (U : SymbolTable)
    (known rest : Nat → Option Bindings) (above : Scope) (i : Nat) (b : Bindings) :
    Resolution → Prop := Stands like U known above (Function.update rest i (some b))

/-- What was brought in so far is like `c`. -/
def BindingLike (like : TypeSymbol → TypeSymbol → Prop) (U : SymbolTable)
    (known rest : Nat → Option Bindings) (above : Scope) (i : Nat) (c : Bindings)
    (st : Resolution) : Prop :=
  ∃ b, Bindings.Alike like b c ∧ Binding like U known rest above i b st

theorem Binding.bindings_eq (hnot : ¬ above.Binds i) {b : Bindings} {st : Resolution}
    (h : Binding like U known rest above i b st) : st.bindings i = b := by
  rw [Resolution.bindings, Stands.lookup_self hnot h]
  rfl

theorem lookupKeeps_fromUsing (hnot : ¬ above.Binds i) {b c : Bindings} (hb : b.Alike like c)
    (hl : LookupKeeps like (Binding like U known rest above i b) l k) (space : String) :
    LookupKeeps like (Binding like U known rest above i b) (Lookup.fromUsing space i l)
      (Finder.fromUsing U space c k) where
  name n arity := by
    refine Keeps.get_bind fun st hst => ?_
    have hfound := hst.table.inNamespace? space n arity
    unfold Finder.fromUsing
    dsimp only
    generalize st.table.inNamespace? space n arity = o at hfound
    generalize U.inNamespace? space n arity = o' at hfound
    cases hfound with
    | some ht => exact Keeps.pure (.some ht)
    | none => exact hl.name n arity
  aliasName a := by
    refine Keeps.get_bind fun st hst => ?_
    have hfound := hb.aliases a
    rw [Binding.bindings_eq hnot hst]
    unfold Finder.fromUsing
    dsimp only
    generalize b.aliases.lookup a = o at hfound
    generalize c.aliases.lookup a = o' at hfound
    cases hfound with
    | some ht => exact Keeps.pure (.some ht)
    | none => exact hl.aliasName a

/-- One more directive is bound. -/
theorem resolves_bindUsing (hnot : ¬ above.Binds i) {b c : Bindings} (hb : b.Alike like c)
    (hl : LookupKeeps like (Binding like U known rest above i b) l k) (directive : Tree) :
    Resolves (Binding like U known rest above i b) (bindUsing i l directive)
      (k.bindUsing U c directive) fun _ => BindingLike like U known rest above i := by
  have hI : ∀ st, Binding like U known rest above i b st → st.table.Alike like U :=
    fun st hst => hst.table
  have hstay : Resolves (Binding like U known rest above i b) (pure PUnit.unit) (pure c)
      fun _ => BindingLike like U known rest above i := Resolves.pure fun st hst => ⟨b, hb, hst⟩
  have hremark : ∀ text, Resolves (Binding like U known rest above i b) (remark text) (pure c)
      fun _ => BindingLike like U known rest above i :=
    fun text st hst => .ok ⟨b, hb, hst.remark _⟩
  have hchange : ∀ {f : Bindings → Bindings} {c' : Bindings}, (f b).Alike like c' →
      Resolves (Binding like U known rest above i b)
        (modify fun st => st.setBindings i (f (st.bindings i))) (pure c')
        fun _ => BindingLike like U known rest above i := by
    intro f c' hc st hst
    refine .ok ⟨f b, hc, ?_⟩
    show Binding like U known rest above i (f b) (st.setBindings i (f (st.bindings i)))
    rw [Binding.bindings_eq hnot hst]
    exact Stands.setBindings hnot hst (f b)
  unfold bindUsing Finder.bindUsing
  cases directive.type? with
  | none => exact hstay
  | some target =>
    dsimp only
    split
    · refine (keeps_qualified hI hl _ _).andThen fun o o' ho => ?_
      cases directive.usingAlias? with
      | some a =>
        cases ho with
        | some ht =>
          exact hchange (f := fun b => { b with aliases := upsert a _ b.aliases })
            (hb.withAlias a ht)
        | none => exact hremark _
      | none =>
        dsimp only
        split
        · cases ho with
          | none => exact hstay
          | some ht =>
            cases ht with
            | space name => exact hstay
            | type hs =>
              refine hchange (f := fun b => { b with statics := b.statics ++ [_] }) ?_
              exact ⟨hb.aliases, hb.imports, List.rel_append hb.statics (.cons hs .nil)⟩
        · cases ho with
          | none => exact hremark _
          | some ht =>
            cases ht with
            | type hs => exact hremark _
            | space name =>
              refine hchange (f := fun b => { b with imports := b.imports ++ [name] }) ?_
              exact ⟨hb.aliases, congrArg (· ++ [name]) hb.imports, hb.statics⟩
    · cases directive.usingAlias? with
      | none => exact hstay
      | some a =>
        dsimp only
        rw [Lookup.typeNode_eq]
        refine (keeps_written hI hl target.written).andThen fun o o' ho => ?_
        cases ho with
        | none => exact hstay
        | some hs =>
          exact hchange (f := fun b => { b with aliases := upsert a (.type _) b.aliases })
            (hb.withAlias a (.type hs))

/-- The directives of a namespace are bound, or were. -/
theorem keeps_bindUsings (space : String) {usings : List Tree}
    (hnot : ∀ i, usingsId? usings = some i → ¬ above.Binds i)
    (hl : ∀ rest, LookupKeeps like (Stands like U known above rest) l (above.finder U known))
    (rest : Nat → Option Bindings) :
    Keeps (Stands like U known (.space space usings :: above) rest) (Bindings.Alike like)
      (bindUsings space usings l)
      (Finder.bindUsings U known space usings (above.finder U known)) := by
  have hbindings : Scope.bindings U known (.space space usings :: above)
      = Finder.bindUsings U known space usings (above.finder U known) := rfl
  unfold bindUsings
  cases hid : usingsId? usings with
  | none =>
    rw [Finder.bindUsings, hid]
    exact Keeps.pure Bindings.alike_empty
  | some i =>
    have hbinds := hnot i hid
    refine Resolves.get_bind fun st hst => ?_
    have hholds := hst.bound _ i List.suffix_rfl hid
    generalize hbound : st.bound.lookup i = o at hholds
    dsimp only
    cases hholds with
    | bound hc hb =>
      -- they were bound before
      rw [← hbindings, hc]
      refine Resolves.get_bind ?_
      rintro _ rfl
      refine Resolves.pure ?_
      rintro _ rfl
      rw [Resolution.bindings, hbound]
      exact ⟨hb, hst⟩
    | unbound hknown =>
      have hfold : Finder.bindUsings U known space usings (above.finder U known) = (usings.foldlM
          (fun c d => (Finder.fromUsing U space c (above.finder U known)).bindUsing U c d) {}
            >>= pure) := by
        rw [Finder.bindUsings, hid, bind_pure]
        dsimp only
        rw [hknown]
      rw [hfold]
      have hstart : ∀ st', st' = st →
          BindingLike like U known rest above i {} (st'.setBindings i {}) := by
        rintro _ rfl
        have hout := Stands.of_cons (f := .space space usings) hid hst
        exact ⟨{}, Bindings.alike_empty, hout.setBindings hbinds {}⟩
      have hstep : ∀ c d, Resolves (BindingLike like U known rest above i c)
          (bindUsing i (Lookup.fromUsing space i l) d)
          ((Finder.fromUsing U space c (above.finder U known)).bindUsing U c d)
          fun _ c' => BindingLike like U known rest above i c' := by
        rintro c d st' ⟨b, hb, hst'⟩
        exact resolves_bindUsing hbinds hb (lookupKeeps_fromUsing hbinds hb (hl _) space) d st' hst'
      have hloop := Resolves.forM hstep usings {}
      refine Resolves.modify_bind hstart (hloop.with_eq.bind fun _ c => Resolves.get_bind ?_)
      rintro st' ⟨hc, b, hb, hst'⟩
      refine Resolves.pure ?_
      rintro _ rfl
      rw [Binding.bindings_eq hbinds hst']
      refine ⟨hb, Stands.cons hid hbinds hst' (.bound ?_ hb)⟩
      rw [hbindings, hfold, hc]
      rfl

end Usings

/-! ## Scopes -/

section Scopes

variable {like : TypeSymbol → TypeSymbol → Prop} {U : SymbolTable}
  {known : Nat → Option Bindings} {above : Scope}

/-- What goes on around a frame leaves its directives alone. -/
theorem Keeps.inside {α β : Type} {R : α → β → Prop} {m : Resolve α} {x : Except BadReference β}
    {f : Frame} (hdistinct : Scope.Distinct (f :: above))
    (h : ∀ rest, Keeps (Stands like U known above rest) R m x) (rest : Nat → Option Bindings) :
    Keeps (Stands like U known (f :: above) rest) R m x := by
  intro st hst
  cases hid : Scope.id? (f :: above) with
  | none =>
    refine (h rest st (hst.of_cons_of_none hid)).imp ?_
    rintro r b ⟨hR, hst'⟩
    exact ⟨hR, hst'.cons_of_none hid⟩
  | some i =>
    have hholds := hst.bound _ i List.suffix_rfl hid
    refine (h _ st (hst.of_cons hid)).imp ?_
    rintro r b ⟨hR, hst'⟩
    exact ⟨hR, hst'.cons hid (hdistinct.not_binds hid) hholds⟩

theorem lookupKeeps_extend {f : Frame} (hdistinct : Scope.Distinct (f :: above))
    (hl : ∀ rest, LookupKeeps like (Stands like U known above rest) above.lookup
      (above.finder U known)) (rest : Nat → Option Bindings) :
    LookupKeeps like (Stands like U known (f :: above) rest) (f.extend above.lookup)
      (f.finder U known (above.finder U known)) := by
  have hname := fun n arity => Keeps.inside hdistinct (fun rest => (hl rest).name n arity) rest
  have halias := fun a => Keeps.inside hdistinct (fun rest => (hl rest).aliasName a) rest
  cases f with
  | method ps =>
    refine ⟨fun n arity => ?_, halias⟩
    dsimp only [Frame.extend, Frame.finder]
    split
    · exact Keeps.pure .none
    · exact hname n arity
  | type key ps =>
    refine ⟨fun n arity => ?_, halias⟩
    dsimp only [Frame.extend, Frame.finder]
    split
    · exact Keeps.pure .none
    · refine Keeps.get_bind fun st hst => ?_
      have hkey := hst.table.get? key
      generalize st.table.get? key = o at hkey
      generalize U.get? key = o' at hkey
      cases hkey with
      | none => exact hname n arity
      | some hs =>
        refine (Keeps.lift (hst.table.nested hs n arity)).bind fun o o' ho => ?_
        cases ho with
        | some ht => exact Keeps.pure (.some (.type ht))
        | none => exact hname n arity
  | space space usings =>
    have hnot : ∀ i, usingsId? usings = some i → ¬ above.Binds i :=
      fun i hid => hdistinct.not_binds (f := .space space usings) hid
    have hbind := keeps_bindUsings space hnot hl rest
    constructor
    · intro n arity
      refine Keeps.get_bind fun st hst => ?_
      have hfound := hst.table.inNamespace? space n arity
      dsimp only [Frame.finder]
      generalize st.table.inNamespace? space n arity = o at hfound
      generalize U.inNamespace? space n arity = o' at hfound
      cases hfound with
      | some ht => exact Keeps.pure (.some ht)
      | none =>
        refine hbind.bind fun b c hb => ?_
        refine (keeps_found (fun _ hst => hst.table) (fun _ r hst => hst.remark r) hb n arity).bind
          fun o o' ho => ?_
        cases ho with
        | some ht => exact Keeps.pure (.some ht)
        | none => exact hname n arity
    · intro a
      refine hbind.bind fun b c hb => ?_
      have hfound := hb.aliases a
      generalize b.aliases.lookup a = o at hfound
      generalize c.aliases.lookup a = o' at hfound
      cases hfound with
      | some ht => exact Keeps.pure (.some ht)
      | none => exact halias a

/-- Lookups from a scope find what they find without a state. -/
theorem lookupKeeps_lookup {scope : Scope} (h : scope.Distinct) (rest : Nat → Option Bindings) :
    LookupKeeps like (Stands like U known scope rest) scope.lookup (scope.finder U known) := by
  induction scope generalizing rest with
  | nil => exact ⟨fun _ _ => Keeps.pure .none, fun _ => Keeps.pure .none⟩
  | cons f above ih => exact lookupKeeps_extend h (ih h.of_cons) rest

end Scopes

/-! ## Trees -/

/-- The states in which the directives of a tree may be bound. -/
structure StandsIn (like : TypeSymbol → TypeSymbol → Prop) (U : SymbolTable)
    (known : Nat → Option Bindings) (root : Tree) (st : Resolution) : Prop where
  table : st.table.Alike like U
  bound : ∀ (x : Scope) (i : Nat), root.Opens x → x.id? = some i →
    x.Holds like U known i (st.bound.lookup i)

section Trees

variable {like : TypeSymbol → TypeSymbol → Prop} {U : SymbolTable}
  {known : Nat → Option Bindings} {root : Tree} {scope : Scope}

theorem Tree.Opens.distinct (hroot : root.tokens.Pairwise Token.StartsBefore)
    (h : root.Opens scope) : scope.Distinct :=
  fun _ _ _ hx hy hi hj => Tree.Opens.eq_of_id? hroot (h.of_suffix hx) (h.of_suffix hy) hi hj

/-- What goes on in a scope of the tree leaves the directives that are not of the scope alone. -/
theorem Keeps.of_opens (hroot : root.tokens.Pairwise Token.StartsBefore) (hscope : root.Opens scope)
    {α β : Type} {R : α → β → Prop} {m : Resolve α} {x : Except BadReference β}
    (h : ∀ rest, Keeps (Stands like U known scope rest) R m x) :
    Keeps (StandsIn like U known root) R m x := by
  intro st hst
  refine (h (fun i => st.bound.lookup i) st ⟨hst.table, fun _ _ => rfl, fun x i hx => ?_⟩).imp ?_
  · exact hst.bound x i (hscope.of_suffix hx)
  · rintro r b ⟨hR, hst'⟩
    refine ⟨hR, hst'.table, fun x i hx hi => ?_⟩
    by_cases hbinds : scope.Binds i
    · obtain ⟨y, hy, hyi⟩ := hbinds
      rw [hx.eq_of_id? hroot (hscope.of_suffix hy) hi hyi]
      exact hst'.bound y i hy hyi
    · rw [hst'.outside i hbinds]
      exact hst.bound x i hx hi

/-- Lookups from a scope of the tree find what they find without a state. -/
theorem lookupKeeps_of_opens (hroot : root.tokens.Pairwise Token.StartsBefore)
    (hscope : root.Opens scope) :
    LookupKeeps like (StandsIn like U known root) scope.lookup (scope.finder U known) where
  name n arity := Keeps.of_opens hroot hscope
    fun rest => (lookupKeeps_lookup (hscope.distinct hroot) rest).name n arity
  aliasName a := Keeps.of_opens hroot hscope
    fun rest => (lookupKeeps_lookup (hscope.distinct hroot) rest).aliasName a

end Trees

end NullableMarker
