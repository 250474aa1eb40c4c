import NullableMarker.Proofs.TypePhrases

/-!
# The forms of members

Each reader of parameters and shapes gives trees of the forms that `Tree.Orderly` allows.

* `Grammar.reads_parameterListIn` — parameter lists hold parameters
* `Grammar.plainShape_orderly` — a member without members of its own is orderly
-/

namespace NullableMarker.Grammar

open NullableMarker.Tree

/-! ## Groups and preambles -/

theorem plain_ofGroup {ts : List Token} (kind : NodeKind) (g : Group ts)
    (hdeclared : kind.isDeclared = false) (htype : kind.isType = false) :
    (Parsed.ofGroup kind g).tree.Plain := by
  rw [Parsed.tree_ofGroup, plain_node]
  exact ⟨⟨hdeclared, by simp⟩, htype⟩

theorem attributeListsAfter_plain {ts : List Token} {r s : Reading ts}
    (hr : ∀ c ∈ r.children, c.Plain) (h : attributeListsAfter r = .ok s) :
    ∀ c ∈ s.children, c.Plain := by
  fun_induction attributeListsAfter r with
  | case1 => cases h
  | case2 r _ g hg ih =>
    refine ih ?_ h
    intro c hc
    rcases List.mem_append.mp hc with hc | hc
    · exact hr c hc
    · rw [List.mem_singleton.mp hc]
      exact plain_ofGroup _ g rfl rfl
  | case3 => cases h; exact hr

theorem preamble_plain {p : Token → List Token → Bool} {ts : List Token} {r : Reading ts}
    (h : preamble p ts = .ok r) : ∀ c ∈ r.children, c.Plain := by
  obtain ⟨s, hs, rfl⟩ := ok_of_map h
  intro c hc
  rcases List.mem_append.mp hc with hc | hc
  · exact attributeListsAfter_plain (by simp [Reading.start]) hs c hc
  · rw [List.mem_singleton.mp hc, plain_node]
    exact ⟨⟨rfl, by simp⟩, rfl⟩

/-! ## Parts of members -/

theorem reads_typeParameterList : Reads Plain typeParameterList := by
  intro ts p h
  unfold typeParameterList at h
  split at h
  · cases h
  · obtain ⟨g, -, rfl⟩ := ok_of_map h
    exact plain_ofGroup _ _ rfl rfl

theorem reads_constraintClause : Reads Plain constraintClause := by
  intro ts p h
  unfold constraintClause at h
  split at h
  · cases h
  · obtain ⟨g, -, rfl⟩ := ok_of_map h
    exact plain_ofGroup _ _ rfl rfl

theorem adds_constraintClauses {ts : List Token} {r s : Begun ts}
    (h : constraintClauses r = .ok s) : r.Adds Plain s := by
  fun_induction constraintClauses r with
  | case1 => cases h
  | case2 r _ p hp ih => exact (r.adds_add p (reads_constraintClause _ _ hp)).trans (ih h)
  | case3 => cases h; exact .refl _

theorem reads_body : Reads Plain body := by
  intro ts p h
  unfold body at h
  split at h
  · cases h
  · split at h
    · obtain ⟨g, -, rfl⟩ := ok_of_map h
      exact plain_ofGroup _ g rfl rfl
    · split at h
      · obtain ⟨g, -, rfl⟩ := ok_of_map h
        exact plain_ofGroup _ g rfl rfl
      · exact reads_expectThat _ _ _ h

theorem reads_equalsValue (stop : Token → List Token → Bool) : Reads Plain (equalsValue stop) := by
  intro ts p h
  unfold equalsValue at h
  split at h
  · cases h
  · obtain ⟨g, -, rfl⟩ := ok_of_map h
    exact plain_ofGroup _ _ rfl rfl

/-- What a reader has begun with is plain, and so is all that was added. -/
theorem Begun.Adds.forall_mem {P : Tree → Prop} {ts : List Token} {r s : Begun ts}
    (h : r.Adds P s) (hr : ∀ c ∈ r.children, P c) : ∀ c ∈ s.children, P c := by
  obtain ⟨cs, hs, hcs⟩ := h
  rw [hs]
  intro c hc
  rcases List.mem_append.mp hc with hc | hc
  · exact hr c hc
  · exact hcs c hc

theorem Begun.Adds.mono {P Q : Tree → Prop} {ts : List Token} {r s : Begun ts}
    (h : r.Adds P s) (hPQ : ∀ c, P c → Q c) : r.Adds Q s := by
  obtain ⟨cs, hs, hcs⟩ := h
  exact ⟨cs, hs, fun c hc => hPQ c (hcs c hc)⟩

theorem reads_accessor : Reads Plain accessor := by
  intro ts p h
  obtain ⟨r, hr, h⟩ := ok_of_bind h
  obtain ⟨q, hq, h⟩ := ok_of_bind h
  obtain ⟨s, hs, h⟩ := ok_of_bind h
  cases h
  rw [Begun.tree_finish, plain_node]
  refine ⟨⟨rfl, (Begun.adds_next reads_body hs |>.mono fun c hc => hc.1).forall_mem ?_⟩, rfl⟩
  exact forall_mem_add (fun c hc => (preamble_plain hr c hc).1) q (reads_expectThat _ _ _ hq).1

theorem accessors_plain {ts : List Token} {r : Begun ts} {p : Parsed ts}
    (hr : ∀ c ∈ r.children, c.Bare) (h : accessors r = .ok p) : p.tree.Plain := by
  fun_induction accessors r with
  | case1 r last hlast =>
    cases h
    rw [Begun.tree_finish, plain_node]
    exact ⟨⟨rfl, forall_mem_add hr last (reads_expectThat _ _ _ hlast).1⟩, rfl⟩
  | case2 => cases h
  | case3 r _ _ q hq ih => exact ih (forall_mem_add hr q (reads_accessor _ _ hq).1) h

theorem reads_accessorList : Reads Plain accessorList := by
  intro ts p h
  unfold accessorList at h
  split at h
  · cases h
  · next opening hopening =>
    exact accessors_plain (by simpa using (reads_expectThat _ _ _ hopening).1) h

theorem baseTypes_plain {ts : List Token} {r : Begun ts} {p : Parsed ts}
    (hr : ∀ c ∈ r.children, c.Bare) (h : baseTypes r = .ok p) : p.tree.Plain := by
  fun_induction baseTypes r with
  | case1 => cases h
  | case2 => cases h
  | case3 r q hq named _ g hg built comma hcomma ih =>
    have hnamed := forall_mem_add hr q (type_isType hq).bare
    have hbuilt := forall_mem_add hnamed _ (plain_ofGroup .skipped g rfl rfl).1
    exact ih (forall_mem_add hbuilt comma (reads_expectThat _ _ _ hcomma).1) h
  | case4 r q hq named _ g hg built _ _ =>
    cases h
    have hnamed := forall_mem_add hr q (type_isType hq).bare
    have hbuilt := forall_mem_add hnamed _ (plain_ofGroup .skipped g rfl rfl).1
    rw [Begun.tree_finish, plain_node]
    exact ⟨⟨rfl, hbuilt⟩, rfl⟩
  | case5 r q hq named _ comma hcomma ih =>
    have hnamed := forall_mem_add hr q (type_isType hq).bare
    exact ih (forall_mem_add hnamed comma (reads_expectThat _ _ _ hcomma).1) h
  | case6 r q hq named _ _ _ =>
    cases h
    rw [Begun.tree_finish, plain_node]
    exact ⟨⟨rfl, forall_mem_add hr q (type_isType hq).bare⟩, rfl⟩

theorem reads_baseList : Reads Plain baseList := by
  intro ts p h
  unfold baseList at h
  split at h
  · cases h
  · next colon hcolon =>
    exact baseTypes_plain (by simpa using (reads_expectThat _ _ _ hcolon).1) h

/-! ## Parameters -/

/-- A plain tree that starts with an identifier. -/
def Named (t : Tree) : Prop := t.Plain ∧ t.tokens.head?.any (·.kind == .identifier) = true

theorem named_expect {ts : List Token} {p : Parsed ts} (h : expect .identifier ts = .ok p) :
    Named p.tree := by
  obtain ⟨t, ht, hkind, -⟩ := expectThat_ok h
  refine ⟨reads_expectThat _ _ _ h, ?_⟩
  rw [ht]
  simpa using hkind

theorem starts_append {as : List Token} (bs : List Token) {f : Token → Bool}
    (h : as.head?.any f = true) : (as ++ bs).head?.any f = true := by
  cases as with
  | nil => cases h
  | cons a as => exact h

/-- A type and a name, with plain trees around them, make a declaration with a type. -/
theorem typed_of_named {pre more : List Tree} {type name : Tree} (hpre : ∀ c ∈ pre, c.Plain)
    (htype : type.IsType) (hname : Named name) (hmore : ∀ c ∈ more, c.Plain) :
    Typed (pre ++ type :: name :: more) pre type (name :: more) := by
  refine ⟨rfl, hpre, htype, ?_, ?_⟩
  · intro c hc
    rcases List.mem_cons.mp hc with rfl | hc
    · exact hname.1
    · exact hmore c hc
  · rw [tokensAll_cons]
    exact starts_append _ hname.2

theorem parameter_form {closing : TokenKind} {ts : List Token} {p : Parsed ts}
    (h : parameter closing ts = .ok p) : ∃ cs, p.tree = .node .parameter cs ∧ ParameterForm cs := by
  obtain ⟨r, hr, h⟩ := ok_of_bind h
  have hpre := preamble_plain hr
  split at h
  · obtain ⟨q, hq, h⟩ := ok_of_bind h
    cases h
    refine ⟨_, rfl, .inr ⟨?_, ?_⟩⟩
    · intro c hc
      rcases List.mem_append.mp hc with hc | hc
      · exact hpre c hc
      · rw [List.mem_singleton.mp hc]
        exact reads_expectThat _ _ _ hq
    · obtain ⟨t, ht, -⟩ := expectThat_ok hq
      rw [Reading.children_add, ht]
      simp
  · obtain ⟨q, hq, h⟩ := ok_of_bind h
    obtain ⟨named, hnamed, h⟩ := ok_of_bind h
    obtain ⟨s, hs, h⟩ := ok_of_bind h
    cases h
    obtain ⟨n, hn, rfl⟩ := Begun.next_ok hnamed
    obtain ⟨cs, hcs, hplain⟩ := Begun.adds_nextIf (reads_equalsValue _) hs
    have hchildren : s.children = r.children ++ q.tree :: n.tree :: cs := by
      rw [hcs]
      show ((r.children ++ [q.tree]) ++ [n.tree]) ++ cs = _
      simp
    refine ⟨_, rfl, .inl ⟨r.children, q.tree, n.tree :: cs, ?_⟩⟩
    rw [hchildren]
    exact typed_of_named hpre (type_isType hq) (named_expect hn) hplain

theorem parameterItem_of_expect {f : Token → Bool} {ts : List Token} {p : Parsed ts}
    (h : expectThat f ts = .ok p) : ParameterItem p.tree := by
  obtain ⟨t, ht, -⟩ := expectThat_ok h
  exact .inl ⟨t, ht⟩

theorem parameters_form {closing : TokenKind} {ts : List Token} {r : Begun ts} {p : Parsed ts}
    (hr : ∀ c ∈ r.children, ParameterItem c) (h : parameters closing r = .ok p) :
    ParameterListForm p.tree := by
  fun_induction parameters closing r with
  | case1 => cases h
  | case2 r q hq comma hcomma ih =>
    refine ih ?_ h
    have hadds := (r.adds_add q (.inr (parameter_form hq))).trans
      ((r.add q).adds_add comma (parameterItem_of_expect hcomma))
    exact hadds.forall_mem hr
  | case3 r q hq _ _ =>
    obtain ⟨last, hlast, rfl⟩ := ok_of_map h
    refine ⟨_, rfl, ?_⟩
    have hadds := (r.adds_add q (.inr (parameter_form hq))).trans
      ((r.add q).adds_add last (parameterItem_of_expect hlast))
    exact hadds.forall_mem hr

theorem reads_parameterListIn (opening closing : TokenKind) :
    Reads ParameterListForm (parameterListIn opening closing) := by
  intro ts p h
  obtain ⟨q, hq, h⟩ := ok_of_bind h
  have hopen : ∀ c ∈ (Begun.ofParsed q).children, ParameterItem c := by
    simpa using parameterItem_of_expect hq
  dsimp only at h
  split at h
  · next last hlast =>
    cases h
    refine ⟨_, rfl, ?_⟩
    exact ((Begun.ofParsed q).adds_add last (parameterItem_of_expect hlast)).forall_mem hopen
  · exact parameters_form hopen h

/-! ## Fields -/

theorem reads_variableDeclarator : Reads Named variableDeclarator := by
  intro ts p h
  obtain ⟨q, hq, h⟩ := ok_of_bind h
  obtain ⟨s, hadds, rfl⟩ : ∃ s, (Begun.ofParsed q).Adds Plain s
      ∧ p = s.finish .variableDeclarator := by
    dsimp only at h
    split at h
    · obtain ⟨r, hr, h⟩ := ok_of_bind h
      obtain ⟨g, -, rfl⟩ := ok_of_map hr
      obtain ⟨s, hs, h⟩ := ok_of_bind h
      cases h
      exact ⟨s, (Begun.adds_ofRun _ _).trans (Begun.adds_nextIf (reads_equalsValue _) hs), rfl⟩
    · obtain ⟨r, hr, h⟩ := ok_of_bind h
      cases hr
      obtain ⟨s, hs, h⟩ := ok_of_bind h
      cases h
      exact ⟨s, Begun.adds_nextIf (reads_equalsValue _) hs, rfl⟩
  obtain ⟨hplain, hident⟩ := named_expect hq
  refine ⟨?_, ?_⟩
  · rw [Begun.tree_finish, plain_node]
    exact ⟨⟨rfl, (hadds.mono fun c hc => hc.1).forall_mem (by simpa using hplain.1)⟩, rfl⟩
  · obtain ⟨cs, hs, -⟩ := hadds
    rw [Begun.tree_finish, hs, Begun.children_ofParsed, tokens_node, List.singleton_append,
      tokensAll_cons]
    exact starts_append _ hident

theorem adds_declarators {ts : List Token} {r s : Begun ts} (h : declarators r = .ok s) :
    ∃ p cs, Named p ∧ s.children = r.children ++ p :: cs ∧ ∀ c ∈ cs, c.Plain := by
  fun_induction declarators r with
  | case1 => cases h
  | case2 r q hq comma hcomma ih =>
    obtain ⟨p, cs, hp, hs, hcs⟩ := ih h
    refine ⟨q.tree, comma.tree :: p :: cs, reads_variableDeclarator _ _ hq, ?_, ?_⟩
    · rw [hs]
      show ((r.children ++ [q.tree]) ++ [comma.tree]) ++ p :: cs = _
      simp
    · intro c hc
      simp only [List.mem_cons] at hc
      rcases hc with rfl | rfl | hc
      · exact reads_expectThat _ _ _ hcomma
      · exact hp.1
      · exact hcs c hc
  | case3 r q hq _ _ =>
    obtain ⟨last, hlast, rfl⟩ := ok_of_map h
    refine ⟨q.tree, [last.tree], reads_variableDeclarator _ _ hq, ?_, ?_⟩
    · show (r.children ++ [q.tree]) ++ [last.tree] = _
      simp
    · simpa using reads_expectThat _ _ _ hlast

/-! ## Shapes -/

/-- After any preamble, what a shape has read makes an orderly tree that is no type. -/
structure Shape.Orderly {ts : List Token} (s : Shape ts) : Prop where
  isType : s.kind.isType = false
  tree : ∀ pre : List Tree, (∀ c ∈ pre, c.Plain) →
    (Tree.node s.kind (pre ++ s.read.children)).Orderly

/-- A shape all of whose children are orderly. -/
theorem Shape.orderly_of_plain {ts : List Token} {kind : NodeKind} {r : Begun ts}
    (hkind : kind.isOrdinary = true) (hr : ∀ c ∈ r.children, c.Orderly) :
    (⟨kind, r⟩ : Shape ts).Orderly := by
  refine ⟨isType_of_isOrdinary hkind, fun pre hpre => ?_⟩
  refine .plain hkind ?_
  intro c hc
  rcases List.mem_append.mp hc with hc | hc
  · exact .bare (hpre c hc).1
  · exact hr c hc

/-- A shape with a parameter list, before which nothing is declared. -/
theorem Shape.orderly_of_owner {ts : List Token} {kind : NodeKind} {r : Begun ts}
    (hkind : kind.isOrdinary = true) {before after : List Tree} {list : Tree}
    (hr : r.children = before ++ list :: after) (hbefore : ∀ c ∈ before, c.Bare)
    (hlist : ParameterListForm list) (hafter : ∀ c ∈ after, c.Orderly) :
    (⟨kind, r⟩ : Shape ts).Orderly := by
  refine ⟨isType_of_isOrdinary hkind, fun pre hpre => ?_⟩
  show (Tree.node kind (pre ++ r.children)).Orderly
  rw [hr, ← List.append_assoc]
  refine .owner hkind ?_ hlist hafter
  intro c hc
  rcases List.mem_append.mp hc with hc | hc
  · exact (hpre c hc).1
  · exact hbefore c hc

/-- A property or a field. -/
theorem Shape.orderly_of_site {ts : List Token} {kind : NodeKind} {r : Begun ts}
    (hkind : kind = .property ∨ kind = .field) {type name : Tree} {more : List Tree}
    (hr : r.children = type :: name :: more) (htype : type.IsType) (hname : Named name)
    (hmore : ∀ c ∈ more, c.Plain) : (⟨kind, r⟩ : Shape ts).Orderly := by
  refine ⟨by rcases hkind with rfl | rfl <;> rfl, fun pre hpre => ?_⟩
  show (Tree.node kind (pre ++ r.children)).Orderly
  rw [hr]
  exact .site hkind (typed_of_named hpre htype hname hmore)

/-- What has been read, a parameter list next and plain trees after it, make an orderly shape. -/
theorem Shape.orderly_of_parameters {ts : List Token} {kind : NodeKind} {r s u : Begun ts}
    {opening closing : TokenKind} (hkind : kind.isOrdinary = true)
    (hr : ∀ c ∈ r.children, c.Bare) (hs : r.next (parameterListIn opening closing) = .ok s)
    (hu : s.Adds Plain u) : (⟨kind, u⟩ : Shape ts).Orderly := by
  obtain ⟨p, hp, rfl⟩ := Begun.next_ok hs
  obtain ⟨cs, hcs, hplain⟩ := hu
  have hchildren : u.children = r.children ++ p.tree :: cs := by
    rw [hcs, Begun.children_add, List.append_assoc]
    rfl
  refine Shape.orderly_of_owner hkind hchildren hr (reads_parameterListIn _ _ _ _ hp) ?_
  intro c hc
  exact .bare (hplain c hc).1

section Chains

variable {ts : List Token}

theorem Begun.Adds.bare {r s : Begun ts} (h : r.Adds Plain s) : r.Adds Bare s :=
  h.mono fun _ hc => hc.1

theorem Begun.adds_bare_next {r s : Begun ts}
    {reader : (us : List Token) → Except Failure (Parsed us)} (hreader : Reads Plain reader)
    (h : r.next reader = .ok s) : r.Adds Bare s := (Begun.adds_next hreader h).bare

theorem Begun.adds_type {r s : Begun ts} (h : r.next type = .ok s) : r.Adds Bare s := by
  obtain ⟨p, hp, rfl⟩ := Begun.next_ok h
  exact r.adds_add p (type_isType hp).bare

theorem ofParsed_bare {f : Token → Bool} {p : Parsed ts} (h : expectThat f ts = .ok p) :
    ∀ c ∈ (Begun.ofParsed p).children, c.Bare := by
  simpa using (reads_expectThat _ _ _ h).1

theorem Begun.adds_optional (r : Begun ts) (f : Token → Bool) : r.Adds Plain (r.optional f) :=
  r.adds_ofRun _

end Chains

theorem enumShape_orderly {ts : List Token} {s : Shape ts} (h : enumShape ts = .ok s) :
    s.Orderly := by
  obtain ⟨q, hq, h⟩ := ok_of_bind h
  obtain ⟨r, hr, h⟩ := ok_of_bind h
  obtain ⟨u, hu, h⟩ := ok_of_bind h
  split at h
  · obtain ⟨g, -, h⟩ := ok_of_bind h
    cases h
    refine Shape.orderly_of_plain rfl ?_
    have hadds := (Begun.adds_next (reads_expectThat _) hr).trans
      ((Begun.adds_nextIf reads_baseList hu).trans
        ((u.adds_add _ (plain_ofGroup .block g rfl rfl)).trans
          (Begun.adds_optional _ (·.kind == .semicolon))))
    intro c hc
    exact .bare (hadds.bare.forall_mem (ofParsed_bare hq) c hc)
  · cases h

theorem delegateShape_orderly {ts : List Token} {s : Shape ts} (h : delegateShape ts = .ok s) :
    s.Orderly := by
  obtain ⟨q, hq, h⟩ := ok_of_bind h
  obtain ⟨r₁, h₁, h⟩ := ok_of_bind h
  obtain ⟨r₂, h₂, h⟩ := ok_of_bind h
  obtain ⟨r₃, h₃, h⟩ := ok_of_bind h
  obtain ⟨r₄, h₄, h⟩ := ok_of_bind h
  obtain ⟨r₅, h₅, h⟩ := ok_of_bind h
  obtain ⟨r₆, h₆, h⟩ := ok_of_bind h
  cases h
  have hbefore := (Begun.adds_type h₁).trans
    ((Begun.adds_bare_next (reads_expectThat _) h₂).trans
      (Begun.adds_nextIf reads_typeParameterList h₃).bare)
  have hafter := (adds_constraintClauses h₅).trans (Begun.adds_next (reads_expectThat _) h₆)
  exact Shape.orderly_of_parameters rfl (hbefore.forall_mem (ofParsed_bare hq)) h₄ hafter

theorem Parsed.head?_tokens {ts : List Token} (p : Parsed ts) : p.tree.tokens.head? = ts.head? := by
  have hcomplete := p.complete
  have hprogress := p.progress
  cases htokens : p.tree.tokens with
  | nil =>
    rw [htokens, List.nil_append] at hcomplete
    rw [hcomplete] at hprogress
    omega
  | cons t us =>
    rw [htokens] at hcomplete
    rw [← hcomplete]
    rfl

theorem aliasQualifier_eq (ts : List Token) :
    nextIs .identifier ts = true ∨ aliasQualifier ts = .start ts := by
  unfold aliasQualifier
  split
  · split
    · next hqualified =>
      simp only [Bool.and_eq_true] at hqualified
      exact .inl (by simpa [nextIs] using hqualified.1)
    · exact .inr rfl
  · exact .inr rfl

/-- A name starts with an identifier. -/
theorem nextIs_of_nameSegments {ts : List Token} {limit : Option Nat} {p : Parsed ts}
    (h : nameSegments (aliasQualifier ts) limit = .ok p) : nextIs .identifier ts = true := by
  rcases aliasQualifier_eq ts with hident | hstart
  · exact hident
  · rw [hstart] at h
    unfold nameSegments at h
    split at h
    · cases h
    · next q hq =>
      obtain ⟨t, -, hkind, hts⟩ := expectThat_ok hq
      have hts : ts = t :: q.rest := hts
      rw [hts, nextIs]
      simpa using hkind

/-- An explicitly named interface is plain and starts with an identifier. -/
theorem explicitInterface?_named {ts : List Token} {p : Parsed ts}
    (h : explicitInterface? ts = .ok (some p)) : Named p.tree := by
  obtain ⟨whole, -, h⟩ := ok_of_bind h
  dsimp only at h
  generalize (if nextIs .dot whole.rest && nextKeyword ["this"] whole.rest.tail then
    segmentCount whole.tree else segmentCount whole.tree - 1) = count at h
  split at h
  · cases h
  · obtain ⟨q, hq, h⟩ := ok_of_bind h
    obtain ⟨r, hr, h⟩ := ok_of_bind h
    cases h
    refine ⟨?_, ?_⟩
    · have hbare := (name_derives hq).1.isType.bare
      rw [Begun.tree_finish, plain_node]
      refine ⟨⟨rfl, ?_⟩, rfl⟩
      exact (Begun.adds_bare_next (reads_expectThat _) hr).forall_mem (by simpa using hbare)
    · rw [Parsed.head?_tokens]
      exact nextIs_of_nameSegments hq

theorem eventShape_orderly {ts : List Token} {s : Shape ts} (h : eventShape ts = .ok s) :
    s.Orderly := by
  obtain ⟨q, hq, h⟩ := ok_of_bind h
  obtain ⟨r, hr, h⟩ := ok_of_bind h
  obtain ⟨found, hfound, h⟩ := ok_of_bind h
  have hread := (Begun.adds_type hr).forall_mem (ofParsed_bare hq)
  have hplain : ∀ {kind : NodeKind} {u : Begun ts}, kind.isOrdinary = true → r.Adds Bare u →
      (⟨kind, u⟩ : Shape ts).Orderly := by
    intro kind u hkind hadds
    refine Shape.orderly_of_plain hkind ?_
    intro c hc
    exact .bare (hadds.forall_mem hread c hc)
  split at h
  · next explicit =>
    obtain ⟨r₁, h₁, h⟩ := ok_of_bind h
    obtain ⟨r₂, h₂, h⟩ := ok_of_bind h
    cases h
    refine hplain rfl ((r.adds_add explicit (explicitInterface?_named hfound).1.1).trans ?_)
    exact (Begun.adds_bare_next (reads_expectThat _) h₁).trans
      (Begun.adds_bare_next reads_accessorList h₂)
  · obtain ⟨named, hnamed, h⟩ := ok_of_bind h
    split at h
    · obtain ⟨r₁, h₁, h⟩ := ok_of_bind h
      cases h
      exact hplain rfl ((Begun.adds_bare_next (reads_expectThat _) hnamed).trans
        (Begun.adds_bare_next reads_accessorList h₁))
    · obtain ⟨r₁, h₁, h⟩ := ok_of_bind h
      cases h
      refine hplain rfl ?_
      obtain ⟨p, cs, hp, hcs, hmore⟩ := adds_declarators h₁
      refine ⟨p :: cs, hcs, ?_⟩
      intro c hc
      rcases List.mem_cons.mp hc with rfl | hc
      · exact hp.1.1
      · exact (hmore c hc).1

theorem destructorShape_orderly {ts : List Token} {s : Shape ts} (h : destructorShape ts = .ok s) :
    s.Orderly := by
  obtain ⟨q, hq, h⟩ := ok_of_bind h
  obtain ⟨r₁, h₁, h⟩ := ok_of_bind h
  obtain ⟨r₂, h₂, h⟩ := ok_of_bind h
  obtain ⟨r₃, h₃, h⟩ := ok_of_bind h
  cases h
  have hbefore := Begun.adds_bare_next (reads_expectThat _) h₁
  exact Shape.orderly_of_parameters rfl (hbefore.forall_mem (ofParsed_bare hq)) h₂
    (Begun.adds_next reads_body h₃)

theorem conversionShape_orderly {ts : List Token} {s : Shape ts} (h : conversionShape ts = .ok s) :
    s.Orderly := by
  obtain ⟨q, hq, h⟩ := ok_of_bind h
  obtain ⟨r₁, h₁, h⟩ := ok_of_bind h
  obtain ⟨r₂, h₂, h⟩ := ok_of_bind h
  obtain ⟨r₃, h₃, h⟩ := ok_of_bind h
  obtain ⟨r₄, h₄, h⟩ := ok_of_bind h
  cases h
  have hbefore := (Begun.adds_bare_next (reads_expectThat _) h₁).trans
    ((Begun.adds_optional r₁ (·.isKeyword ["checked"])).bare.trans (Begun.adds_type h₂))
  exact Shape.orderly_of_parameters rfl (hbefore.forall_mem (ofParsed_bare hq)) h₃
    (Begun.adds_next reads_body h₄)

theorem reads_constructorInitializer : Reads Plain constructorInitializer := by
  intro ts p h
  obtain ⟨q, hq, h⟩ := ok_of_bind h
  obtain ⟨r, hr, h⟩ := ok_of_bind h
  split at h
  · obtain ⟨g, -, h⟩ := ok_of_bind h
    cases h
    rw [Begun.tree_finish, plain_node]
    have hadds := (Begun.adds_bare_next (reads_expectThat _) hr).trans (r.adds_ofRun g.toRun).bare
    exact ⟨⟨rfl, hadds.forall_mem (ofParsed_bare hq)⟩, rfl⟩
  · cases h

theorem constructorShape_orderly {ts : List Token} {s : Shape ts}
    (h : constructorShape ts = .ok s) : s.Orderly := by
  obtain ⟨q, hq, h⟩ := ok_of_bind h
  obtain ⟨r₁, h₁, h⟩ := ok_of_bind h
  obtain ⟨r₂, h₂, h⟩ := ok_of_bind h
  obtain ⟨r₃, h₃, h⟩ := ok_of_bind h
  cases h
  exact Shape.orderly_of_parameters rfl (ofParsed_bare hq) h₁
    ((Begun.adds_nextIf reads_constructorInitializer h₂).trans (Begun.adds_next reads_body h₃))

theorem operatorShape_orderly {ts : List Token} {r : Begun ts} {s : Shape ts}
    (hr : ∀ c ∈ r.children, c.Bare) (h : operatorShape r = .ok s) : s.Orderly := by
  obtain ⟨r₁, h₁, h⟩ := ok_of_bind h
  obtain ⟨symbol, -, h⟩ := ok_of_bind h
  dsimp only at h
  split at h
  · cases h
  · obtain ⟨r₂, h₂, h⟩ := ok_of_bind h
    obtain ⟨r₃, h₃, h⟩ := ok_of_bind h
    cases h
    have hbefore := (Begun.adds_bare_next (reads_expectThat _) h₁).trans (r₁.adds_ofRun symbol).bare
    exact Shape.orderly_of_parameters rfl (hbefore.forall_mem hr) h₂
      (Begun.adds_next reads_body h₃)

theorem indexerShape_orderly {ts : List Token} {r : Begun ts} {s : Shape ts}
    (hr : ∀ c ∈ r.children, c.Bare) (h : indexerShape r = .ok s) : s.Orderly := by
  obtain ⟨r₁, h₁, h⟩ := ok_of_bind h
  obtain ⟨r₂, h₂, h⟩ := ok_of_bind h
  have hbefore := (Begun.adds_bare_next (reads_expectThat _) h₁).forall_mem hr
  split at h
  · obtain ⟨r₃, h₃, h⟩ := ok_of_bind h
    cases h
    exact Shape.orderly_of_parameters rfl hbefore h₂ (Begun.adds_next reads_accessorList h₃)
  · split at h
    · obtain ⟨r₃, h₃, h⟩ := ok_of_bind h
      cases h
      exact Shape.orderly_of_parameters rfl hbefore h₂ (Begun.adds_next reads_body h₃)
    · cases h

theorem methodShape_orderly {ts : List Token} {r : Begun ts} {s : Shape ts}
    (hr : ∀ c ∈ r.children, c.Bare) (h : methodShape r = .ok s) : s.Orderly := by
  obtain ⟨r₁, h₁, h⟩ := ok_of_bind h
  obtain ⟨r₂, h₂, h⟩ := ok_of_bind h
  obtain ⟨r₃, h₃, h⟩ := ok_of_bind h
  obtain ⟨r₄, h₄, h⟩ := ok_of_bind h
  cases h
  have hbefore := (Begun.adds_nextIf reads_typeParameterList h₁).bare.forall_mem hr
  exact Shape.orderly_of_parameters rfl hbefore h₂
    ((adds_constraintClauses h₃).trans (Begun.adds_next reads_body h₄))

/-- A property adds plain trees to its type and name. -/
theorem propertyShape_adds {ts : List Token} {r : Begun ts} {s : Shape ts}
    (h : propertyShape r = .ok s) : s.kind = .property ∧ r.Adds Plain s.read := by
  unfold propertyShape at h
  split at h
  · obtain ⟨r₁, h₁, h⟩ := ok_of_bind h
    cases h
    exact ⟨rfl, Begun.adds_next reads_body h₁⟩
  · obtain ⟨r₁, h₁, h⟩ := ok_of_bind h
    have hlist := Begun.adds_next reads_accessorList h₁
    split at h
    · obtain ⟨r₂, h₂, h⟩ := ok_of_bind h
      obtain ⟨r₃, h₃, h⟩ := ok_of_bind h
      cases h
      exact ⟨rfl, hlist.trans ((Begun.adds_next (reads_equalsValue _) h₂).trans
        (Begun.adds_next (reads_expectThat _) h₃))⟩
    · cases h
      exact ⟨rfl, hlist⟩

theorem namedShape_orderly {ts : List Token} {r : Begun ts} {type name : Tree} {more : List Tree}
    {s : Shape ts} (hr : r.children = type :: name :: more) (htype : type.IsType)
    (hname : Named name) (hmore : ∀ c ∈ more, c.Plain) (h : namedShape r = .ok s) :
    s.Orderly := by
  unfold namedShape at h
  split at h
  · refine methodShape_orderly ?_ h
    rw [hr]
    intro c hc
    simp only [List.mem_cons] at hc
    rcases hc with rfl | rfl | hc
    · exact htype.bare
    · exact hname.1.1
    · exact (hmore c hc).1
  · split at h
    · obtain ⟨hkind, cs, hcs, hplain⟩ := propertyShape_adds h
      have hread : s.read.children = type :: name :: (more ++ cs) := by
        rw [hcs, hr]
        rfl
      refine Shape.orderly_of_site (.inl hkind) hread htype hname ?_
      intro c hc
      rcases List.mem_append.mp hc with hc | hc
      · exact hmore c hc
      · exact hplain c hc
    · cases h

theorem typedShape_orderly {ts : List Token} {s : Shape ts} (h : typedShape ts = .ok s) :
    s.Orderly := by
  obtain ⟨q, hq, h⟩ := ok_of_bind h
  have htype := type_isType hq
  have hbare : ∀ c ∈ (Begun.ofParsed q).children, c.Bare := by simpa using htype.bare
  dsimp only at h
  split at h
  · exact operatorShape_orderly hbare h
  · split at h
    · exact indexerShape_orderly hbare h
    · obtain ⟨found, hfound, h⟩ := ok_of_bind h
      split at h
      · next explicit =>
        have hexplicit := explicitInterface?_named hfound
        split at h
        · exact indexerShape_orderly (forall_mem_add hbare explicit hexplicit.1.1) h
        · obtain ⟨named, hnamed, h⟩ := ok_of_bind h
          obtain ⟨n, hn, rfl⟩ := Begun.next_ok hnamed
          exact namedShape_orderly rfl htype hexplicit (by simpa using (named_expect hn).1) h
      · obtain ⟨named, hnamed, h⟩ := ok_of_bind h
        split at h
        · obtain ⟨r, hr, h⟩ := ok_of_bind h
          cases h
          obtain ⟨p, cs, hp, hcs, hmore⟩ := adds_declarators hr
          exact Shape.orderly_of_site (.inr rfl) hcs htype hp hmore
        · obtain ⟨n, hn, rfl⟩ := Begun.next_ok hnamed
          exact namedShape_orderly rfl htype (named_expect hn) (by simp) h

theorem plainShape_orderly {typeName : Option String} {ts : List Token} {s : Shape ts}
    (h : plainShape typeName ts = .ok s) : s.Orderly := by
  unfold plainShape at h
  split at h
  · exact enumShape_orderly h
  · split at h
    · exact delegateShape_orderly h
    · split at h
      · exact eventShape_orderly h
      · split at h
        · exact destructorShape_orderly h
        · split at h
          · exact conversionShape_orderly h
          · split at h
            · exact constructorShape_orderly h
            · exact typedShape_orderly h

end NullableMarker.Grammar
