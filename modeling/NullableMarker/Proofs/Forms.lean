import NullableMarker.Annotate.Mark
import NullableMarker.Grammar.Unit

/-!
# The forms of trees that are read

Where properties, fields, parameters and parameter lists may stand in a tree that was read. A
property or a field holds none of them below it, a parameter list holds its parameters right below
it, and a declaration has at most one parameter list, before which nothing is declared.

* `Tree.Bare` — nothing is declared in the tree
* `Tree.Typed` — the children of a declaration with a type
* `Tree.Orderly` — the form of any tree that is read
* `Grammar.Reads`, `Grammar.Begun.Adds` — what a reader gives, and what it adds
-/

namespace NullableMarker

/-! ## Outcomes -/

theorem ok_of_map {ε α β : Type} {x : Except ε α} {f : α → β} {b : β} (h : x.map f = .ok b) :
    ∃ a, x = .ok a ∧ f a = b := by
  cases x with
  | error e => cases h
  | ok a => cases h; exact ⟨a, rfl, rfl⟩

theorem error_of_map {ε α β : Type} {x : Except ε α} {f : α → β} {e : ε}
    (h : x.map f = .error e) : x = .error e := by
  cases x with
  | error e' => cases h; rfl
  | ok a => cases h

theorem ok_of_mapError {ε ε' α : Type} {x : Except ε α} {f : ε → ε'} {a : α}
    (h : x.mapError f = .ok a) : x = .ok a := by
  cases x with
  | error e => cases h
  | ok b => cases h; rfl

theorem ok_of_toOption {ε α : Type} {x : Except ε α} {a : α} (h : x.toOption = some a) :
    x = .ok a := by
  cases x with
  | error e => cases h
  | ok b => exact congrArg Except.ok (Option.some.inj h)

theorem ok_of_bind {ε α β : Type} {x : Except ε α} {f : α → Except ε β} {b : β}
    (h : (x >>= f) = .ok b) : ∃ a, x = .ok a ∧ f a = .ok b := by
  cases x with
  | error e => cases h
  | ok a => exact ⟨a, rfl, h⟩

namespace Tree

/-! ## First and last tokens -/

mutual

theorem firstToken?_eq : (t : Tree) → t.firstToken? = t.tokens.head?
  | token t => by simp [firstToken?]
  | node _ children => by simp [firstToken?, firstTokenOf?_eq children]

theorem firstTokenOf?_eq : (ts : List Tree) → firstTokenOf? ts = (tokensAll ts).head?
  | [] => by simp [firstTokenOf?]
  | t :: ts => by
    rw [firstTokenOf?, firstToken?_eq t, firstTokenOf?_eq ts, tokensAll_cons, List.head?_append]
    cases t.tokens.head? <;> rfl

end

mutual

theorem lastToken?_eq : (t : Tree) → t.lastToken? = t.tokens.getLast?
  | token t => by simp [lastToken?]
  | node _ children => by simp [lastToken?, lastTokenOf?_eq children]

theorem lastTokenOf?_eq : (ts : List Tree) → lastTokenOf? ts = (tokensAll ts).getLast?
  | [] => by simp [lastTokenOf?]
  | t :: ts => by
    rw [lastTokenOf?, lastToken?_eq t, lastTokenOf?_eq ts, tokensAll_cons, List.getLast?_append]
    cases (tokensAll ts).getLast? <;> rfl

end

/-! ## Bare trees -/

@[simp] theorem nodes_token (t : Token) : (token t).nodes = [] := by simp [nodes]

@[simp] theorem nodes_node (k : NodeKind) (cs : List Tree) :
    (node k cs).nodes = node k cs :: nodesAll cs := by simp [nodes]

@[simp] theorem nodesAll_nil : nodesAll [] = [] := by simp [nodesAll]

@[simp] theorem nodesAll_cons (t : Tree) (ts : List Tree) :
    nodesAll (t :: ts) = t.nodes ++ nodesAll ts := by simp [nodesAll]

@[simp] theorem nodesAll_append (as bs : List Tree) :
    nodesAll (as ++ bs) = nodesAll as ++ nodesAll bs := by
  induction as with
  | nil => simp
  | cons a as ih => simp [ih]

theorem mem_nodesAll {ts : List Tree} {n : Tree} (h : n ∈ nodesAll ts) :
    ∃ t ∈ ts, n ∈ t.nodes := by
  induction ts with
  | nil => simp at h
  | cons t ts ih =>
    rw [nodesAll_cons, List.mem_append] at h
    rcases h with h | h
    · exact ⟨t, List.mem_cons_self, h⟩
    · obtain ⟨u, hu, hn⟩ := ih h
      exact ⟨u, List.mem_cons_of_mem t hu, hn⟩

@[simp] theorem isNode_token (p : NodeKind → Bool) (t : Token) : (token t).isNode p = false := rfl

@[simp] theorem isNode_node (p : NodeKind → Bool) (k : NodeKind) (cs : List Tree) :
    (node k cs).isNode p = p k := rfl

end Tree

/-- A kind of declaration that is marked, or a list of parameters. -/
def NodeKind.isDeclared (k : NodeKind) : Bool := k.isSite || k == .parameterList

/-- A kind that is neither declared nor a type. -/
def NodeKind.isOrdinary (k : NodeKind) : Bool := !(k.isDeclared || k.isType)

theorem isDeclared_of_isOrdinary {k : NodeKind} (h : k.isOrdinary = true) :
    k.isDeclared = false := by
  rw [NodeKind.isOrdinary, Bool.not_eq_true', Bool.or_eq_false_iff] at h
  exact h.1

theorem isType_of_isOrdinary {k : NodeKind} (h : k.isOrdinary = true) : k.isType = false := by
  rw [NodeKind.isOrdinary, Bool.not_eq_true', Bool.or_eq_false_iff] at h
  exact h.2

/-- A token that a type may end with. -/
def Token.endsType (t : Token) : Bool :=
  t.kind == .identifier || t.isKeyword Grammar.predefinedTypes || t.kind == .rparen
    || t.kind == .rbracket || t.kind == .greaterThan || t.kind == .question
    || (t.kind == .operator && t.value == "*")

namespace Tree

mutual

/-- No property, field, parameter or parameter list in the tree. -/
def Bare : Tree → Prop
  | token _ => True
  | node kind children => kind.isDeclared = false ∧ BareAll children

/-- None of them in a list of trees. -/
def BareAll : List Tree → Prop
  | [] => True
  | t :: ts => t.Bare ∧ BareAll ts

end

theorem bareAll_iff (ts : List Tree) : BareAll ts ↔ ∀ t ∈ ts, t.Bare := by
  induction ts with
  | nil => simp [BareAll]
  | cons t ts ih => simp [BareAll, ih]

@[simp] theorem bare_token (t : Token) : (token t).Bare := by simp [Bare]

@[simp] theorem bare_node (k : NodeKind) (cs : List Tree) :
    (node k cs).Bare ↔ k.isDeclared = false ∧ ∀ c ∈ cs, c.Bare := by
  rw [Bare, bareAll_iff]

/-- A bare tree that is no type. -/
def Plain (t : Tree) : Prop := t.Bare ∧ t.isNode NodeKind.isType = false

@[simp] theorem plain_token (t : Token) : (token t).Plain := ⟨bare_token t, rfl⟩

@[simp] theorem plain_node (k : NodeKind) (cs : List Tree) :
    (node k cs).Plain ↔ (k.isDeclared = false ∧ ∀ c ∈ cs, c.Bare) ∧ k.isType = false := by
  rw [Plain, bare_node, isNode_node]

/-- A type, with nothing declared in it. -/
structure IsType (t : Tree) : Prop where
  isType : t.isNode NodeKind.isType = true
  bare : t.Bare
  /-- It ends as a type does. -/
  ends : t.tokens.getLast?.any Token.endsType = true

/-- The children of a declaration with a type, which the declared name follows. -/
structure Typed (cs pre : List Tree) (type : Tree) (post : List Tree) : Prop where
  split : cs = pre ++ type :: post
  pre_plain : ∀ c ∈ pre, c.Plain
  type_isType : type.IsType
  post_plain : ∀ c ∈ post, c.Plain
  named : (tokensAll post).head?.any (·.kind == .identifier) = true

/-- The children of a parameter: those of a declaration with a type, or no type at all. -/
def ParameterForm (cs : List Tree) : Prop :=
  (∃ pre type post, Typed cs pre type post) ∨ (∀ c ∈ cs, c.Plain) ∧ tokensAll cs ≠ []

/-- A child of a list of parameters: a token or a parameter. -/
def ParameterItem (c : Tree) : Prop :=
  (∃ s, c = token s) ∨ ∃ ds, c = node .parameter ds ∧ ParameterForm ds

/-- A list of parameters, all of them right below it. -/
def ParameterListForm (t : Tree) : Prop :=
  ∃ cs, t = node .parameterList cs ∧ ∀ c ∈ cs, ParameterItem c

/-- The form of a tree that is read. -/
inductive Orderly : Tree → Prop
  | bare {t : Tree} (h : t.Bare) : Orderly t
  | site {k : NodeKind} {cs pre : List Tree} {type : Tree} {post : List Tree}
      (hk : k = .property ∨ k = .field) (h : Typed cs pre type post) : Orderly (node k cs)
  | plain {k : NodeKind} {cs : List Tree} (hk : k.isOrdinary = true)
      (h : ∀ c ∈ cs, Orderly c) : Orderly (node k cs)
  | owner {k : NodeKind} {pre : List Tree} {list : Tree} {post : List Tree}
      (hk : k.isOrdinary = true) (hpre : ∀ c ∈ pre, c.Bare) (hlist : ParameterListForm list)
      (hpost : ∀ c ∈ post, Orderly c) : Orderly (node k (pre ++ list :: post))

theorem Typed.prepend {cs pre : List Tree} {type : Tree} {post : List Tree}
    (h : Typed cs pre type post) {before : List Tree} (hbefore : ∀ c ∈ before, c.Plain) :
    Typed (before ++ cs) (before ++ pre) type post := by
  refine ⟨?_, ?_, h.type_isType, h.post_plain, h.named⟩
  · rw [h.split, List.append_assoc]
  · intro c hc
    rcases List.mem_append.mp hc with hc | hc
    · exact hbefore c hc
    · exact h.pre_plain c hc

end Tree

namespace Grammar

open NullableMarker.Tree

/-! ## Steps of readers -/

section Steps

variable {ts : List Token}

@[simp] theorem Begun.children_add (r : Begun ts) (p : Parsed r.rest) :
    (r.add p).children = r.children ++ [p.tree] := rfl

@[simp] theorem Reading.children_add (r : Reading ts) (p : Parsed r.rest) :
    (r.add p).children = r.children ++ [p.tree] := rfl

theorem Begun.children_add_add (r : Begun ts) (p : Parsed r.rest) (q : Parsed p.rest) :
    ((r.add p).add q).children = r.children ++ [p.tree, q.tree] := by
  show r.children ++ [p.tree] ++ [q.tree] = _
  rw [List.append_assoc]
  rfl

theorem Reading.children_add_add (r : Reading ts) (p : Parsed r.rest) (q : Parsed p.rest) :
    ((r.add p).add q).children = r.children ++ [p.tree, q.tree] := by
  show r.children ++ [p.tree] ++ [q.tree] = _
  rw [List.append_assoc]
  rfl

@[simp] theorem Begun.children_ofParsed (p : Parsed ts) :
    (Begun.ofParsed p).children = [p.tree] := rfl

@[simp] theorem Begun.children_token (t : Token) : (Begun.token t ts).children = [.token t] := rfl

@[simp] theorem Begun.children_extend (r : Begun ts) (s : Reading r.rest) :
    (r.extend s).children = r.children ++ s.children := rfl

@[simp] theorem Reading.children_ofRun (s : Run ts) :
    (Reading.ofRun s).children = s.taken.map .token := rfl

@[simp] theorem Begun.tree_finish (r : Begun ts) (kind : NodeKind) :
    (r.finish kind).tree = .node kind r.children := rfl

@[simp] theorem Parsed.tree_ofGroup (kind : NodeKind) (g : Group ts) :
    (Parsed.ofGroup kind g).tree = .node kind (g.taken.map .token) := rfl

/-- A reader of trees of a class. -/
def Reads (P : Tree → Prop) (reader : (us : List Token) → Except Failure (Parsed us)) : Prop :=
  ∀ us p, reader us = .ok p → P p.tree

/-- What `s` holds beyond `r` is of a class. -/
def Begun.Adds (P : Tree → Prop) (r s : Begun ts) : Prop :=
  ∃ cs, s.children = r.children ++ cs ∧ ∀ c ∈ cs, P c

theorem Begun.Adds.refl {P : Tree → Prop} (r : Begun ts) : r.Adds P r := ⟨[], by simp, by simp⟩

theorem Begun.Adds.trans {P : Tree → Prop} {r s t : Begun ts} (hrs : r.Adds P s)
    (hst : s.Adds P t) : r.Adds P t := by
  obtain ⟨cs, hs, hcs⟩ := hrs
  obtain ⟨ds, ht, hds⟩ := hst
  refine ⟨cs ++ ds, by rw [ht, hs, List.append_assoc], ?_⟩
  intro c hc
  rcases List.mem_append.mp hc with hc | hc
  · exact hcs c hc
  · exact hds c hc

theorem Begun.next_ok {r s : Begun ts} {reader : (us : List Token) → Except Failure (Parsed us)}
    (h : r.next reader = .ok s) : ∃ p, reader r.rest = .ok p ∧ s = r.add p := by
  obtain ⟨p, hp, hs⟩ := ok_of_map h
  exact ⟨p, hp, hs.symm⟩

theorem Begun.adds_add {P : Tree → Prop} (r : Begun ts) (p : Parsed r.rest) (h : P p.tree) :
    r.Adds P (r.add p) := ⟨[p.tree], rfl, by simpa using h⟩

theorem Begun.adds_next {P : Tree → Prop} {r s : Begun ts}
    {reader : (us : List Token) → Except Failure (Parsed us)} (hreader : Reads P reader)
    (h : r.next reader = .ok s) : r.Adds P s := by
  obtain ⟨p, hp, rfl⟩ := Begun.next_ok h
  exact r.adds_add p (hreader _ _ hp)

theorem Begun.adds_nextIf {P : Tree → Prop} {r s : Begun ts} {test : List Token → Bool}
    {reader : (us : List Token) → Except Failure (Parsed us)} (hreader : Reads P reader)
    (h : r.nextIf test reader = .ok s) : r.Adds P s := by
  unfold Begun.nextIf at h
  split at h
  · exact Begun.adds_next hreader h
  · cases h
    exact .refl r

theorem Begun.adds_ofRun (r : Begun ts) (s : Run r.rest) :
    r.Adds Plain (r.extend (.ofRun s)) :=
  ⟨s.taken.map .token, rfl, by simp⟩

theorem expectThat_ok {f : Token → Bool} {p : Parsed ts} (h : expectThat f ts = .ok p) :
    ∃ t, p.tree = .token t ∧ f t = true ∧ ts = t :: p.rest := by
  unfold expectThat at h
  split at h
  · cases h
  · split at h
    · next t rest hf =>
      cases h
      exact ⟨t, rfl, hf, rfl⟩
    · cases h

end Steps

theorem reads_expectThat (f : Token → Bool) : Reads Plain (expectThat f) := by
  intro ts p h
  obtain ⟨t, ht, -⟩ := expectThat_ok h
  rw [ht]
  exact plain_token t

theorem forall_mem_add {P : Tree → Prop} {ts : List Token} {r : Reading ts}
    (hr : ∀ c ∈ r.children, P c) (p : Parsed r.rest) (hp : P p.tree) :
    ∀ c ∈ (r.add p).children, P c := by
  intro c hc
  rcases List.mem_append.mp hc with hc | hc
  · exact hr c hc
  · rw [List.mem_singleton.mp hc]
    exact hp

/-! ## Last tokens -/

section Ends

variable {ts : List Token}

theorem ends_append (as : List Token) {bs : List Token} {f : Token → Bool}
    (h : bs.getLast?.any f = true) : (as ++ bs).getLast?.any f = true := by
  rw [List.getLast?_append]
  cases hlast : bs.getLast? with
  | none => rw [hlast] at h; cases h
  | some t => rw [hlast] at h; simpa using h

theorem ends_imp {f g : Token → Bool} (hfg : ∀ t, f t = true → g t = true) {us : List Token}
    (h : us.getLast?.any f = true) : us.getLast?.any g = true := by
  cases hlast : us.getLast? with
  | none => rw [hlast] at h; cases h
  | some t => rw [hlast] at h; exact hfg t h

/-- The last token of a group is the outermost closer. -/
theorem ends_closeAll {opener : Token} {expected : List TokenKind} {r : Run ts} {c : TokenKind}
    (h : closeAll opener expected ts = .ok r) (hc : expected.getLast? = some c) :
    r.taken.getLast?.any (·.kind == c) = true := by
  fun_induction closeAll opener expected ts with
  | case1 => cases hc
  | case2 => cases h
  | case3 e es t ts c' hclose ih =>
    obtain ⟨s, hs, rfl⟩ := ok_of_map h
    exact ends_append [t] (ih hs (by simpa using hc))
  | case4 e es t ts hclose hcloser heq ih =>
    obtain ⟨s, hs, rfl⟩ := ok_of_map h
    cases es with
    | nil =>
      rw [closeAll] at hs
      cases hs
      cases hc
      simpa [Run.cons, Run.none] using heq
    | cons e' es => exact ends_append [t] (ih hs (by simpa using hc))
  | case5 => cases h
  | case6 e es t ts hclose hcloser ih =>
    obtain ⟨s, hs, rfl⟩ := ok_of_map h
    exact ends_append [t] (ih hs hc)

theorem ends_balanced {g : Group ts} (h : balanced ts = .ok g) :
    ∃ t c, ts.head? = some t ∧ closer? t.kind = some c
      ∧ g.taken.getLast?.any (·.kind == c) = true := by
  unfold balanced at h
  split at h
  · cases h
  · next t rest =>
    split at h
    · cases h
    · next c hc =>
      obtain ⟨r, hr, rfl⟩ := ok_of_map h
      exact ⟨t, c, rfl, hc, ends_append [t] (ends_closeAll hr rfl)⟩

end Ends

end Grammar

end NullableMarker
