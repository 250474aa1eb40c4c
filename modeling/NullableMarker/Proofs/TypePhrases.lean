import NullableMarker.Proofs.Forms

/-!
# Phrases of types

The grammar of types as a relation between phrases and the trees they are read as. The readers of
types are gone through once, for this relation; what holds of all types that are read, however names,
tuples and type arguments are nested in them, is an induction on it.

* `Phrase` — types and what they are made of
* `Derives` — the trees of a phrase
* `type_derives`, `name_derives` — what is read is derived
* `type_isType` — what is read as a type is one
-/

namespace NullableMarker.Grammar

open NullableMarker.Tree

/-- Types and what they are made of. -/
inductive Phrase where
  | type
  /-- What may stand before the identifiers of a name: nothing, or an alias and `::`. -/
  | qualifier
  /-- Identifiers with their type arguments, and dots between them. -/
  | segments
  /-- What may follow an identifier of a name: nothing, or a list of type arguments. -/
  | arguments
  /-- A type in a tuple, with or without a name. -/
  | element
  /-- Phrases of one sort, with commas between them. -/
  | list (item : Phrase)

/-- The trees of a phrase. -/
inductive Derives : Phrase → List Tree → Prop
  | ref {word : Token} {readonly : Option Token} {type : Tree}
      (hword : word.isKeyword ["ref"] = true)
      (hreadonly : ∀ t ∈ readonly, t.isKeyword ["readonly"] = true)
      (htype : Derives .type [type]) :
      Derives .type [node .refType (token word :: readonly.toList.map token ++ [type])]
  | predefined {word : Token} (hword : word.isKeyword predefinedTypes = true) :
      Derives .type [node .predefinedType [token word]]
  | name {qualifier segments : List Tree} (hqualifier : Derives .qualifier qualifier)
      (hsegments : Derives .segments segments) :
      Derives .type [node .name (qualifier ++ segments)]
  | tuple {opening closing : Token} {elements : List Tree} (hopening : opening.kind = .lparen)
      (helements : Derives (.list .element) elements) (hclosing : closing.kind = .rparen) :
      Derives .type [node .tupleType (token opening :: elements ++ [token closing])]
  | nullable {type : Tree} {mark : Token} (htype : Derives .type [type])
      (hmark : mark.kind = .question) : Derives .type [node .nullableType [type, token mark]]
  | array {type : Tree} {ts : List Token} {g : Group ts} (htype : Derives .type [type])
      (hstarts : startsArrayMark ts = true) (hgroup : balanced ts = .ok g) :
      Derives .type [node .arrayType (type :: g.taken.map token)]
  | pointer {type : Tree} {star : Token} (htype : Derives .type [type])
      (hstar : star.kind = .operator ∧ star.value = "*") :
      Derives .type [node .pointerType [type, token star]]
  | unqualified : Derives .qualifier []
  | qualified {word mark : Token} (hword : word.kind = .identifier)
      (hmark : mark.kind = .doubleColon) : Derives .qualifier [token word, token mark]
  | segment {id : Token} {arguments : List Tree} (hid : id.kind = .identifier)
      (harguments : Derives .arguments arguments) : Derives .segments (token id :: arguments)
  | dotted {id dot : Token} {arguments more : List Tree} (hid : id.kind = .identifier)
      (harguments : Derives .arguments arguments) (hdot : dot.kind = .dot)
      (hmore : Derives .segments more) :
      Derives .segments (token id :: (arguments ++ token dot :: more))
  | plain : Derives .arguments []
  | generic {opening closing : Token} {types : List Tree} (hopening : opening.kind = .lessThan)
      (htypes : Derives (.list .type) types) (hclosing : closing.kind = .greaterThan) :
      Derives .arguments [node .typeArgumentList (token opening :: types ++ [token closing])]
  | element {type : Tree} {name : Option Token} (htype : Derives .type [type])
      (hname : ∀ t ∈ name, t.kind = .identifier) :
      Derives .element [node .tupleElement (type :: name.toList.map token)]
  | last {item : Phrase} {t : Tree} (hitem : Derives item [t]) : Derives (.list item) [t]
  | more {item : Phrase} {t : Tree} {comma : Token} {ts : List Tree} (hitem : Derives item [t])
      (hcomma : comma.kind = .comma) (hmore : Derives (.list item) ts) :
      Derives (.list item) (t :: token comma :: ts)

/-! ## Readers -/

section Readers

variable {ts : List Token}

theorem expect_ok {kind : TokenKind} {p : Parsed ts} (h : expect kind ts = .ok p) :
    ∃ t, p.tree = token t ∧ t.kind = kind := by
  obtain ⟨t, ht, hkind, -⟩ := expectThat_ok h
  exact ⟨t, ht, beq_iff_eq.mp hkind⟩

/-- An optional token is there or not. -/
theorem exists_optional (r : Begun ts) (f : Token → Bool) :
    ∃ o : Option Token, (∀ t ∈ o, f t = true)
      ∧ (r.optional f).children = r.children ++ o.toList.map token := by
  have htaken : ∀ us, ∃ o : Option Token, (∀ t ∈ o, f t = true)
      ∧ (Run.optional f us).taken = o.toList := by
    intro us
    cases us with
    | nil => exact ⟨none, nofun, rfl⟩
    | cons t us =>
      rw [Run.optional]
      split
      · next ht => exact ⟨some t, fun u hu => Option.some.inj hu ▸ ht, rfl⟩
      · exact ⟨none, nofun, rfl⟩
  obtain ⟨o, ho, htaken⟩ := htaken r.rest
  exact ⟨o, ho, by rw [Begun.optional, Begun.children_extend, Reading.children_ofRun, htaken]⟩

/-- Marks are put around a type. -/
theorem typeMarks_derives {p q : Parsed ts} (hp : Derives .type [p.tree])
    (h : typeMarks p = .ok q) : Derives .type [q.tree] := by
  fun_induction typeMarks p with
  | case1 p mark hmark ih =>
    obtain ⟨t, ht, hkind⟩ := expect_ok hmark
    refine ih ?_ h
    show Derives .type [node .nullableType [p.tree, mark.tree]]
    rw [ht]
    exact .nullable hp hkind
  | case2 => cases h
  | case3 p e he hstarts g hg ih => exact ih (.array hp hstarts hg) h
  | case4 p e he hstarts mark hmark ih =>
    obtain ⟨t, ht, hstar, -⟩ := expectThat_ok hmark
    refine ih ?_ h
    show Derives .type [node .pointerType [p.tree, mark.tree]]
    rw [ht]
    exact .pointer hp (by simpa using hstar)
  | case5 => cases h; exact hp

theorem aliasQualifier_derives (ts : List Token) :
    Derives .qualifier (aliasQualifier ts).children := by
  unfold aliasQualifier
  split
  · next t u rest =>
    split
    · next hqualified =>
      rw [Bool.and_eq_true, beq_iff_eq, beq_iff_eq] at hqualified
      exact .qualified hqualified.1 hqualified.2
    · exact .unqualified
  · exact .unqualified

mutual

theorem type_derives : {ts : List Token} → {p : Parsed ts} → type ts = .ok p →
    Derives .type [p.tree]
  | [], _, h => by rw [type] at h; cases h
  | t :: rest, p, h => by
    unfold type at h
    split at h
    · next href =>
      have hlt := ((Begun.token t rest).optional (·.isKeyword ["readonly"])).progress
      obtain ⟨readonly, hreadonly, hchildren⟩ :=
        exists_optional (Begun.token t rest) (·.isKeyword ["readonly"])
      dsimp only at h
      split at h
      · cases h
      · next q hq =>
        cases h
        rw [Begun.tree_finish, Begun.children_add, hchildren]
        exact .ref href hreadonly (type_derives hq)
    · split at h
      · next hparen =>
        have hlt := (Begun.token t rest).progress
        split at h
        · cases h
        · next q hq =>
          obtain ⟨elements, closing, helements, hclosing, htree⟩ := tupleElements_derives hq
          refine typeMarks_derives ?_ h
          rw [htree]
          exact .tuple (beq_iff_eq.mp hparen) helements hclosing
      · split at h
        · next hkeyword => exact typeMarks_derives (.predefined hkeyword) h
        · have hle := (aliasQualifier (t :: rest)).length_le
          split at h
          · split at h
            · cases h
            · next q hq =>
              obtain ⟨segments, hsegments, htree⟩ := nameSegments_derives hq
              refine typeMarks_derives ?_ h
              rw [htree]
              exact .name (aliasQualifier_derives _) hsegments
          · cases h
termination_by ts => (ts.length, 1)
decreasing_by all_goals (simp only [Prod.lex_def]; omega)

theorem tupleElements_derives {ts : List Token} {r : Begun ts} {count : Nat} {p : Parsed ts}
    (h : tupleElements r count = .ok p) :
    ∃ elements closing, Derives (.list .element) elements ∧ closing.kind = .rparen
      ∧ p.tree = node .tupleType (r.children ++ elements ++ [token closing]) := by
  unfold tupleElements at h
  split at h
  · cases h
  · next q hq =>
    obtain ⟨name, hname, hchildren⟩ := exists_optional (.ofParsed q) (·.kind == .identifier)
    have helement : Derives .element
        [(((Begun.ofParsed q).optional (·.kind == .identifier)).finish .tupleElement).tree] := by
      rw [Begun.tree_finish, hchildren]
      exact .element (type_derives hq) fun t ht => beq_iff_eq.mp (hname t ht)
    dsimp only at h
    split at h
    · next comma hcomma =>
      have hlt := Nat.lt_trans comma.progress
        ((Begun.ofParsed q).optional (·.kind == .identifier)).progress
      obtain ⟨t, ht, hkind⟩ := expect_ok hcomma
      obtain ⟨elements, closing, helements, hclosing, htree⟩ := tupleElements_derives h
      refine ⟨_, closing, .more helement hkind helements, hclosing, ?_⟩
      rw [htree, Begun.children_add, Begun.children_add, ht]
      simp
    · split at h
      · cases h
      · split at h
        · cases h
        · next closing hclosing _ =>
          cases h
          obtain ⟨t, ht, hkind⟩ := expect_ok hclosing
          refine ⟨_, t, .last helement, hkind, ?_⟩
          rw [Begun.tree_finish, Begun.children_add, Begun.children_add, ht]
termination_by (r.rest.length, 2)
decreasing_by
  · exact Prod.Lex.right _ (by decide)
  · exact Prod.Lex.left _ _ (by assumption)

theorem nameSegments_derives {ts : List Token} {r : Reading ts} {limit : Option Nat}
    {p : Parsed ts} (h : nameSegments r limit = .ok p) :
    ∃ segments, Derives .segments segments ∧ p.tree = node .name (r.children ++ segments) := by
  unfold nameSegments at h
  split at h
  · cases h
  · next q hq =>
    have hlt := q.progress
    obtain ⟨id, hid, hkind⟩ := expect_ok hq
    split at h
    · cases h
    · refine nameTail_derives ?_ hkind .plain h
      rw [Reading.children_add, hid]
    · next args hargs =>
      have hlt' := Nat.lt_trans args.progress q.progress
      refine nameTail_derives ?_ hkind (typeArgumentList_derives hargs) h
      rw [Reading.children_add_add, hid]
termination_by (r.rest.length, 0)
decreasing_by all_goals exact Prod.Lex.left _ _ (by assumption)

/-- What follows an identifier and its type arguments in a name. -/
theorem nameTail_derives {ts : List Token} {named : Begun ts} {limit : Option Nat} {p : Parsed ts}
    {before arguments : List Tree} {id : Token}
    (hnamed : named.children = before ++ token id :: arguments) (hid : id.kind = .identifier)
    (harguments : Derives .arguments arguments) (h : nameTail named limit = .ok p) :
    ∃ segments, Derives .segments segments ∧ p.tree = node .name (before ++ segments) := by
  have hend : ∃ segments, Derives .segments segments
      ∧ (named.finish .name).tree = node .name (before ++ segments) :=
    ⟨_, .segment hid harguments, by rw [Begun.tree_finish, hnamed]⟩
  unfold nameTail at h
  split at h
  · cases h
    exact hend
  · split at h
    · cases h
      exact hend
    · next dot hdot =>
      have hlt := dot.progress
      unfold segmentDot at hdot
      split at hdot
      · obtain ⟨t, ht, hkind⟩ := expect_ok hdot
        obtain ⟨more, hmore, htree⟩ := nameSegments_derives h
        refine ⟨_, .dotted hid harguments hkind hmore, ?_⟩
        rw [htree, Begun.children_add, ht, hnamed]
        simp
      · cases hdot
termination_by (named.rest.length, 0)
decreasing_by exact Prod.Lex.left _ _ (by assumption)

theorem typeArgumentList_derives {ts : List Token} {p : Parsed ts}
    (h : typeArgumentList ts = .ok p) : Derives .arguments [p.tree] := by
  unfold typeArgumentList at h
  split at h
  · cases h
  · next opening hopening =>
    have hlt := opening.progress
    obtain ⟨t, ht, hkind⟩ := expect_ok hopening
    obtain ⟨types, closing, htypes, hclosing, htree⟩ := typeArguments_derives h
    rw [htree, Begun.children_ofParsed, ht]
    exact .generic hkind htypes hclosing
termination_by (ts.length, 0)
decreasing_by exact Prod.Lex.left _ _ (by assumption)

theorem typeArguments_derives {ts : List Token} {r : Begun ts} {p : Parsed ts}
    (h : typeArguments r = .ok p) :
    ∃ types closing, Derives (.list .type) types ∧ closing.kind = .greaterThan
      ∧ p.tree = node .typeArgumentList (r.children ++ types ++ [token closing]) := by
  unfold typeArguments at h
  split at h
  · cases h
  · next q hq =>
    have htype := type_derives hq
    split at h
    · next comma hcomma =>
      have hlt := Nat.lt_trans comma.progress q.progress
      obtain ⟨t, ht, hkind⟩ := expect_ok hcomma
      obtain ⟨types, closing, htypes, hclosing, htree⟩ := typeArguments_derives h
      refine ⟨_, closing, .more htype hkind htypes, hclosing, ?_⟩
      rw [htree, Begun.children_add_add, ht]
      simp
    · split at h
      · cases h
      · next closing hclosing =>
        cases h
        obtain ⟨t, ht, hkind⟩ := expect_ok hclosing
        refine ⟨_, t, .last htype, hkind, ?_⟩
        rw [Begun.tree_finish, Begun.children_add_add, ht, List.append_assoc]
        rfl
termination_by (r.rest.length, 2)
decreasing_by
  · exact Prod.Lex.right _ (by decide)
  · exact Prod.Lex.left _ _ (by assumption)

end

/-- A name, with all its segments or some. -/
theorem name_derives {limit : Option Nat} {p : Parsed ts}
    (h : nameSegments (aliasQualifier ts) limit = .ok p) :
    Derives .type [p.tree] ∧ p.tree.isNode (· == .name) = true := by
  obtain ⟨segments, hsegments, htree⟩ := nameSegments_derives h
  rw [htree]
  exact ⟨.name (aliasQualifier_derives ts) hsegments, rfl⟩

end Readers

/-! ## Types -/

/-- An array mark ends with a closing bracket. -/
theorem ends_arrayMark {ts : List Token} {g : Group ts} (hstarts : startsArrayMark ts = true)
    (h : balanced ts = .ok g) : g.taken.getLast?.any (·.kind == .rbracket) = true := by
  obtain ⟨t, c, ht, hc, hlast⟩ := ends_balanced h
  have hopening : t.kind = .lbracket := by
    rw [startsArrayMark, Bool.and_eq_true, nextIs, ht] at hstarts
    simpa using hstarts.1
  rw [hopening] at hc
  cases hc
  exact hlast

section Types

variable {phrase : Phrase} {cs : List Tree} {t : Tree}

/-- Nothing is declared in a type. -/
theorem Derives.bare (h : Derives phrase cs) : ∀ c ∈ cs, c.Bare := by
  induction h with
  | predefined | unqualified | plain | qualified => simp [NodeKind.isDeclared, NodeKind.isSite]
  | name _ _ ihqualifier ih =>
    simpa [NodeKind.isDeclared, NodeKind.isSite, or_imp, forall_and] using ⟨ihqualifier, ih⟩
  | ref _ _ _ ih | tuple _ _ _ ih | generic _ _ _ ih =>
    simpa +contextual [NodeKind.isDeclared, NodeKind.isSite, or_imp, forall_and] using ih
  | nullable _ _ ih | pointer _ _ ih | array _ _ _ ih | element _ _ ih =>
    simpa [NodeKind.isDeclared, NodeKind.isSite] using ih
  | segment _ _ ih => simpa using ih
  | dotted _ _ _ _ iharguments ih => simpa [or_imp, forall_and] using ⟨iharguments, ih⟩
  | last _ ih => exact ih
  | more _ _ _ ihitem ih => simpa using ⟨by simpa using ihitem, ih⟩

/-- The last token of a type or of the segments of a name. -/
theorem Derives.ends (h : Derives phrase cs) (hphrase : phrase = .type ∨ phrase = .segments) :
    (tokensAll cs).getLast?.any Token.endsType = true := by
  have hlast : ∀ {kind : NodeKind} (ds : List Tree) {u : Token}, u.endsType = true →
      (tokensAll [node kind (ds ++ [token u])]).getLast?.any Token.endsType = true := by
    intro kind ds u hu
    simpa using hu
  induction h with
  | ref _ _ _ ih =>
    have htype := ih (.inl rfl)
    rw [tokensAll_cons, tokens_node, tokensAll_nil, List.append_nil, tokensAll_append]
    exact ends_append _ htype
  | predefined hword => simp [Token.endsType, hword]
  | name _ _ _ ih =>
    rw [tokensAll_cons, tokens_node, tokensAll_nil, List.append_nil, tokensAll_append]
    exact ends_append _ (ih (.inr rfl))
  | tuple _ _ hclosing => exact hlast _ (by simp [Token.endsType, hclosing])
  | nullable _ hmark => exact hlast [_] (by simp [Token.endsType, hmark])
  | pointer _ hstar => exact hlast [_] (by simp [Token.endsType, hstar])
  | array _ hstarts hgroup =>
    rw [tokensAll_cons, tokens_node, tokensAll_nil, List.append_nil, tokensAll_cons,
      tokensAll_map_token]
    refine ends_append _ (ends_imp ?_ (ends_arrayMark hstarts hgroup))
    intro u hu
    simp [Token.endsType, beq_iff_eq.mp hu]
  | segment hid harguments =>
    cases harguments with
    | plain => simp [Token.endsType, hid]
    | generic _ _ hclosing =>
      rw [tokensAll_cons]
      exact ends_append _ (hlast _ (by simp [Token.endsType, hclosing]))
  | dotted _ _ _ _ _ ih =>
    rw [tokensAll_cons, tokensAll_append, tokensAll_cons]
    exact ends_append _ (ends_append _ (ends_append _ (ih (.inr rfl))))
  | _ => rcases hphrase with h | h <;> cases h

theorem Derives.isType (h : Derives .type [t]) : t.IsType where
  isType := by cases h <;> rfl
  bare := h.bare t List.mem_cons_self
  ends := by simpa using h.ends (.inl rfl)

theorem type_isType {ts : List Token} {p : Parsed ts} (h : type ts = .ok p) : p.tree.IsType :=
  (type_derives h).isType

end Types

end NullableMarker.Grammar
