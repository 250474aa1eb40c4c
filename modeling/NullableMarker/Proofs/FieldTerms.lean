import NullableMarker.Proofs.MemberTerms

/-!
# Terms for fields

A field as its grammar has it: a type and declarators with commas between them, each a name with or
without an initialiser. An initialiser is kept as it stands, so all that tells a comma between type
arguments in it from one between declarators is the two tokens after the comma. A bare name between
two commas is always taken for a declarator: where a type argument is one, outside all brackets and
neither first nor last, the field is not read. Everywhere else it is.

* `FieldTerm` — fields, with their tokens
* `FieldTerm.unbroken` — no type argument of an initialiser looks like a declarator
* `Grammar.field_reads` — the tokens of an unbroken field are read as its tree
-/

namespace NullableMarker

open Grammar

/-! ## Terms -/

/-- A part of an initialiser: a token that separates nothing, a group, or a generic name. -/
inductive ValuePart where
  | token (t : Token) (plain : t.kind ∉ [TokenKind.comma, .semicolon, .lessThan, .greaterThan])
      (notBracket : t.kind.isBracket = false)
  | group {opening : TokenKind} (brackets : Enclosed opening)
  | generic (word : TokenOf .identifier) (arguments : ArgumentList)

/-- The tokens of a part. -/
def ValuePart.tokens : ValuePart → List Token
  | token t _ _ => [t]
  | group brackets => brackets.tokens
  | generic word arguments => word :: arguments.tree.tokens

/-- An initialiser. -/
structure InitializerTerm where
  equals : TokenOf .equals
  parts : List ValuePart

namespace InitializerTerm

/-- The tokens of an initialiser. -/
def tokens (v : InitializerTerm) : List Token := v.equals :: v.parts.flatMap ValuePart.tokens

/-- The tree of an initialiser. -/
def tree (v : InitializerTerm) : Tree := .node .equalsValue (v.tokens.map .token)

end InitializerTerm

/-- A declarator: a name with or without an initialiser. -/
structure DeclaratorTerm where
  name : TokenOf .identifier
  value? : Option InitializerTerm

/-- The tree of a declarator. -/
def DeclaratorTerm.tree (d : DeclaratorTerm) : Tree :=
  .node .variableDeclarator (.token d.name :: d.value?.toList.map (·.tree))

/-- Declarators with the commas between them. -/
inductive DeclaratorTerms where
  | last (declarator : DeclaratorTerm)
  | cons (declarator : DeclaratorTerm) (comma : TokenOf .comma) (more : DeclaratorTerms)

namespace DeclaratorTerms

/-- The trees of declarators and of the commas between them. -/
def trees : DeclaratorTerms → List Tree
  | last d => [d.tree]
  | cons d comma more => d.tree :: .token comma :: more.trees

/-- The declarators, without the commas. -/
def toList : DeclaratorTerms → List DeclaratorTerm
  | last d => [d]
  | cons d _ more => d :: more.toList

end DeclaratorTerms

/-- A field. -/
structure FieldTerm where
  preamble : PreambleTerm modifierKeywords
  type : MemberType
  declarators : DeclaratorTerms
  semicolon : TokenOf .semicolon

namespace FieldTerm

/-- The tree of a field. -/
def tree (f : FieldTerm) : Tree :=
  .node .field (f.preamble.trees ++ f.type.tree :: (f.declarators.trees ++ [.token f.semicolon]))

/-- The tokens of a field. -/
def tokens (f : FieldTerm) : List Token := f.tree.tokens

end FieldTerm

/-! ## Type arguments that look like declarators -/

/-- A type that is a single identifier. -/
def TypeTerm.isWord (t : TypeTerm) : Bool := t.tokens.length == 1 && nextIs .identifier t.tokens

/-- The first of several arguments is a single identifier, so a comma follows it. -/
def ArgumentTerms.startsWithWord : ArgumentTerms → Bool
  | .last _ => false
  | .cons type _ _ => type.isWord

mutual

/-- Outside all brackets, no type argument between two commas is a single identifier. -/
def TypeTerm.unbroken : TypeTerm → Bool
  | .ref _ _ type => type.unbroken
  | .marked core _ => core.unbroken

@[inherit_doc TypeTerm.unbroken]
def CoreTerm.unbroken : CoreTerm → Bool
  | .predefined _ => true
  | .name _ segments => segments.unbroken
  | .tuple .. => true

@[inherit_doc TypeTerm.unbroken]
def SegmentTerms.unbroken : SegmentTerms → Bool
  | .last segment => segment.unbroken
  | .cons segment _ more => segment.unbroken && more.unbroken

@[inherit_doc TypeTerm.unbroken]
def SegmentTerm.unbroken : SegmentTerm → Bool
  | .plain _ => true
  | .generic _ arguments => arguments.unbroken

@[inherit_doc TypeTerm.unbroken]
def ArgumentList.unbroken : ArgumentList → Bool
  | .mk _ arguments _ => arguments.unbroken

@[inherit_doc TypeTerm.unbroken]
def ArgumentTerms.unbroken : ArgumentTerms → Bool
  | .last type => type.unbroken
  | .cons type _ more => type.unbroken && more.unbroken && !more.startsWithWord

end

@[inherit_doc TypeTerm.unbroken]
def ValuePart.unbroken : ValuePart → Bool
  | generic _ arguments => arguments.unbroken
  | _ => true

/-- No type argument in an initialiser of the field looks like a declarator. -/
def FieldTerm.unbroken (f : FieldTerm) : Bool :=
  f.declarators.toList.all fun d => d.value?.all fun v => v.parts.all ValuePart.unbroken

/-! ## Nesting -/

theorem TypeTerm.nested (t : TypeTerm) : Nested t.tree.tokens := by
  obtain ⟨p, hp, htree, -⟩ := type_reads t (List.append_nil _).symm rfl
  rw [← htree]
  exact (type_closed hp).nested

theorem CoreTerm.nested (c : CoreTerm) : Nested c.tree.tokens := (TypeTerm.marked c []).nested

theorem ArgumentList.nested (l : ArgumentList) : Nested l.tree.tokens := by
  obtain ⟨p, hp, htree, -⟩ := argumentList_reads l (List.append_nil _).symm
  rw [← htree]
  exact Tree.Closed.nested (typeArgumentList_derives hp).awaits

theorem SegmentTerm.nested (s : SegmentTerm) : Nested (Tree.tokensAll s.trees) :=
  (CoreTerm.name none (.last s)).nested

theorem ArgumentTerms.nested : (as : ArgumentTerms) → Nested (Tree.tokensAll as.trees)
  | .last type => by
    rw [ArgumentTerms.trees, Tree.tokensAll_cons, Tree.tokensAll_nil, List.append_nil]
    exact type.nested
  | .cons type comma more => by
    rw [ArgumentTerms.trees, Tree.tokensAll_cons, Tree.tokensAll_cons, Tree.tokens_token]
    exact type.nested.append ((nested_singleton (by rw [comma.2]; rfl)).append more.nested)

theorem nested_elementTree (type : TypeTerm) (name : Option (TokenOf .identifier)) :
    Nested (elementTree type.tree name).tokens := by
  rw [tokens_elementTree]
  refine type.nested.append (nested_of_forall fun t ht => ?_)
  obtain ⟨word, -, rfl⟩ := List.mem_map.mp ht
  rw [word.2]
  rfl

theorem ElementTerms.nested : (es : ElementTerms) → Nested (Tree.tokensAll es.trees)
  | .last type name => by
    rw [ElementTerms.trees, Tree.tokensAll_cons, Tree.tokensAll_nil, List.append_nil]
    exact nested_elementTree type name
  | .cons type name comma more => by
    rw [ElementTerms.trees, Tree.tokensAll_cons, Tree.tokensAll_cons, Tree.tokens_token]
    exact (nested_elementTree type name).append
      ((nested_singleton (by rw [comma.2]; rfl)).append more.nested)

/-- The parentheses of a tuple. -/
def tupleBrackets (opening : TokenOf .lparen) (type : TypeTerm)
    (name : Option (TokenOf .identifier)) (comma : TokenOf .comma) (more : ElementTerms)
    (closing : TokenOf .rparen) : Enclosed .lparen where
  first := opening
  inner := Tree.tokensAll (ElementTerms.cons type name comma more).trees
  last := closing
  opens := opening.2
  nested := (ElementTerms.cons type name comma more).nested
  closes := by rw [closing.2]; rfl

theorem ValuePart.nested (v : ValuePart) : Nested v.tokens := by
  cases v with
  | token t plain notBracket => exact nested_singleton notBracket
  | group brackets => exact brackets.nested_tokens
  | generic word arguments => exact arguments.nested.cons (by rw [word.2]; rfl)

theorem nested_parts (vs : List ValuePart) : Nested (vs.flatMap ValuePart.tokens) := by
  induction vs with
  | nil => exact nested_nil
  | cons v vs ih =>
    rw [List.flatMap_cons]
    exact v.nested.append ih

/-! ## What a tree says -/

theorem DeclaratorTerms.filter_trees (ds : DeclaratorTerms) :
    ds.trees.filter (·.isNode (· == .variableDeclarator)) = ds.toList.map (·.tree) := by
  induction ds with
  | last d => rfl
  | cons d comma more ih => exact congrArg (d.tree :: ·) ih

/-- The declarators of the tree of a field are those given. -/
theorem FieldTerm.childrenOf_tree (f : FieldTerm) :
    f.tree.childrenOf (· == .variableDeclarator) = f.declarators.toList.map (·.tree) := by
  obtain ⟨kind, cs, htype, hkind⟩ := f.type.exists_node
  have hne : (kind == .variableDeclarator) = false := by
    cases kind <;> first | rfl | cases hkind
  rw [FieldTerm.tree, PreambleTerm.childrenOf_node _ rfl rfl, htype]
  show (Tree.node kind cs :: (f.declarators.trees ++ [.token f.semicolon])).filter _ = _
  rw [List.filter_cons_of_neg (by simp [Tree.isNode, Tree.kind?, hne]), List.filter_append,
    DeclaratorTerms.filter_trees]
  exact List.append_nil _

theorem FieldTerm.variableNames_tree (f : FieldTerm) :
    f.tree.variableNames = f.declarators.toList.map (·.name.1.value) := by
  rw [Tree.variableNames, childrenOf_tree, List.filterMap_map]
  exact congrFun List.filterMap_eq_map f.declarators.toList

/-- The initialiser of a declarator is the one given. -/
theorem DeclaratorTerm.childrenOf_tree (d : DeclaratorTerm) :
    d.tree.childrenOf (· == .equalsValue) = d.value?.toList.map (·.tree) := by
  obtain ⟨name, value?⟩ := d
  cases value? <;> rfl

namespace Grammar

variable {ts us rest : List Token}

/-! ## Where an initialiser does not stop -/

/-- An initialiser stops before a semicolon or where a declarator starts. -/
def endsValue (t : Token) (rest : List Token) : Bool :=
  t.kind == .semicolon || startsDeclarator t rest

theorem endsValue_of_kind {t : Token} {kind : TokenKind} (ht : t.kind = kind)
    (hsemicolon : kind ≠ .semicolon) (hcomma : kind ≠ .comma) : endsValue t rest = false := by
  simp [endsValue, startsDeclarator, ht, hsemicolon, hcomma]

/-- A type that starts with an identifier is that word, or the next token goes on the type. -/
theorem isWord_or_continuesType (t : TypeTerm) {first : Token} {tail : List Token}
    (htokens : t.tree.tokens = first :: tail) (hfirst : first.kind = .identifier) :
    (t.isWord = true ∧ tail = []) ∨ ∃ u more, tail = u :: more ∧ u.continuesType = true := by
  cases t with
  | ref word readonly type =>
    obtain rfl : word.1 = first := by simp [TypeTerm.tree] at htokens; exact htokens.1
    rw [Token.kind_of_isKeyword word.2] at hfirst
    cases hfirst
  | marked core marks =>
    cases tail with
    | nil => exact .inl ⟨by simp [TypeTerm.isWord, TypeTerm.tokens, htokens, nextIs, hfirst], rfl⟩
    | cons u more =>
      refine .inr ⟨u, more, rfl, ?_⟩
      have hcontinues := core.continuesType_tail marks htokens hfirst
      simpa using hcontinues

/-- Type arguments after a comma do not start a declarator, if the first of them is not a word
before another comma. -/
theorem endsValue_comma (comma : TokenOf .comma) (as : ArgumentTerms)
    (closing : TokenOf .greaterThan) (has : as.startsWithWord = false) :
    endsValue comma (Tree.tokensAll as.trees ++ closing.1 :: rest) = false := by
  -- the first argument, and what follows it
  obtain ⟨type, next, more, hsplit, hnext⟩ : ∃ (type : TypeTerm) (next : Token) (more : List Token),
      Tree.tokensAll as.trees ++ closing.1 :: rest = type.tree.tokens ++ next :: more
        ∧ (type.isWord = true → next.kind = .greaterThan) := by
    cases as with
    | last type => exact ⟨type, closing, rest, by simp [ArgumentTerms.trees], fun _ => closing.2⟩
    | cons type comma more =>
      refine ⟨type, comma, Tree.tokensAll more.trees ++ closing.1 :: rest,
        by simp [ArgumentTerms.trees], fun h => ?_⟩
      rw [show type.isWord = false from has] at h
      cases h
  obtain ⟨first, tail, htokens, -⟩ := type.exists_first
  have hstarts : startsDeclarator comma (type.tree.tokens ++ next :: more) = false := by
    rw [htokens]
    by_cases hfirst : first.kind = .identifier
    · rcases isWord_or_continuesType type htokens hfirst with ⟨hword, rfl⟩ | ⟨u, tail, rfl, hu⟩
      · simp [startsDeclarator, nextIn, hnext hword]
      · have hkinds : u.kind ∉ [TokenKind.equals, .comma, .semicolon] := by
          intro hmem
          rw [Token.not_continuesType rfl (by revert hmem; cases u.kind <;> decide)] at hu
          cases hu
        simp only [List.mem_cons, List.not_mem_nil, or_false, not_or] at hkinds
        simp [startsDeclarator, nextIn, hkinds]
    · simp [startsDeclarator, nextIs, hfirst]
  rw [hsplit, endsValue, hstarts]
  simp [comma.2]

/-- A token that is no bracket, comma or semicolon is passed. -/
theorem passes_cons {t : Token} {kind : TokenKind} (ht : t.kind = kind)
    (hkind : (kind.isBracket || kind == .semicolon || kind == .comma) = false)
    (hts : Passes endsValue ts rest) : Passes endsValue (t :: ts) rest := by
  simp only [Bool.or_eq_false_iff, beq_eq_false_iff_ne] at hkind
  exact .cons (by rw [ht]; exact hkind.1.1) (endsValue_of_kind ht hkind.1.2 hkind.2) hts

theorem passes_marks (marks : List TypeMark) :
    Passes endsValue (marks.flatMap TypeMark.tokens) rest := by
  induction marks with
  | nil => exact passes_nil
  | cons mark marks ih =>
    rw [List.flatMap_cons]
    cases mark with
    | question mark =>
      exact passes_cons mark.2 rfl ih
    | array opening commas closing =>
      have hpasses : Passes endsValue (arrayBrackets opening commas closing).tokens
          (marks.flatMap TypeMark.tokens ++ rest) :=
        (arrayBrackets opening commas closing).passes
          (endsValue_of_kind opening.2 (by decide) (by decide))
      have htokens : (TypeMark.array opening commas closing).tokens
          = (arrayBrackets opening commas closing).tokens := by
        simp [TypeMark.tokens, Enclosed.tokens, arrayBrackets]
      rw [htokens]
      exact .append (arrayBrackets opening commas closing).nested_tokens hpasses ih
    | pointer star =>
      exact passes_cons star.2.1 rfl ih

mutual

/-- No token of a type outside all brackets ends an initialiser. -/
theorem type_passes : (t : TypeTerm) → {rest : List Token} → t.unbroken = true →
    Passes endsValue t.tree.tokens rest
  | .ref word readonly t, rest, ht => by
    rw [TypeTerm.unbroken] at ht
    have htokens : (TypeTerm.ref word readonly t).tree.tokens
        = word.1 :: (readonly.toList.map (·.1) ++ t.tree.tokens) := by
      cases readonly <;> simp [TypeTerm.tree]
    rw [htokens]
    refine passes_cons (Token.kind_of_isKeyword word.2) rfl ?_
    cases readonly with
    | none => exact type_passes t ht
    | some readonly =>
      exact passes_cons (Token.kind_of_isKeyword readonly.2) rfl (type_passes t ht)
  | .marked core marks, rest, ht => by
    rw [TypeTerm.unbroken] at ht
    rw [TypeTerm.tree, TypeMark.tokens_marks]
    exact .append core.nested (core_passes core ht) (passes_marks marks)

theorem core_passes : (c : CoreTerm) → {rest : List Token} → c.unbroken = true →
    Passes endsValue c.tree.tokens rest
  | .predefined word, rest, hc => by
    rw [CoreTerm.tree, Tree.tokens_node, Tree.tokensAll_cons, Tree.tokens_token]
    exact passes_cons (Token.kind_of_isKeyword word.2) rfl passes_nil
  | .name qualifier segments, rest, hc => by
    rw [CoreTerm.unbroken] at hc
    have hsegments : Passes endsValue (Tree.tokensAll segments.trees) rest :=
      segments_passes segments hc
    rw [CoreTerm.tree, Tree.tokens_node, Tree.tokensAll_append]
    cases qualifier with
    | none => exact hsegments
    | some q =>
      exact passes_cons q.word.2 rfl (passes_cons q.mark.2 rfl hsegments)
  | .tuple opening type name comma more closing, rest, hc => by
    have hpasses : Passes endsValue
        (tupleBrackets opening type name comma more closing).tokens rest :=
      (tupleBrackets opening type name comma more closing).passes
        (endsValue_of_kind opening.2 (by decide) (by decide))
    have htokens : (CoreTerm.tuple opening type name comma more closing).tree.tokens
        = (tupleBrackets opening type name comma more closing).tokens := by
      simp [CoreTerm.tree, Enclosed.tokens, tupleBrackets, ElementTerms.trees]
    rw [htokens]
    exact hpasses

theorem segments_passes : (s : SegmentTerms) → {rest : List Token} → s.unbroken = true →
    Passes endsValue (Tree.tokensAll s.trees) rest
  | .last segment, rest, hs => by
    rw [SegmentTerms.unbroken] at hs
    rw [SegmentTerms.trees]
    exact segment_passes segment hs
  | .cons segment dot more, rest, hs => by
    rw [SegmentTerms.unbroken, Bool.and_eq_true] at hs
    rw [SegmentTerms.trees, Tree.tokensAll_append, Tree.tokensAll_cons, Tree.tokens_token]
    exact .append segment.nested (segment_passes segment hs.1)
      (passes_cons dot.2 rfl (segments_passes more hs.2))

theorem segment_passes : (s : SegmentTerm) → {rest : List Token} → s.unbroken = true →
    Passes endsValue (Tree.tokensAll s.trees) rest
  | .plain word, rest, hs => by
    rw [SegmentTerm.trees, Tree.tokensAll_cons, Tree.tokens_token]
    exact passes_cons word.2 rfl passes_nil
  | .generic word arguments, rest, hs => by
    rw [SegmentTerm.unbroken] at hs
    rw [SegmentTerm.trees, Tree.tokensAll_cons, Tree.tokens_token, Tree.tokensAll_cons,
      Tree.tokensAll_nil, List.append_nil]
    exact passes_cons word.2 rfl (argumentList_passes arguments hs)

theorem argumentList_passes : (l : ArgumentList) → {rest : List Token} → l.unbroken = true →
    Passes endsValue l.tree.tokens rest
  | .mk opening arguments closing, rest, hl => by
    rw [ArgumentList.unbroken] at hl
    have htokens : (ArgumentList.mk opening arguments closing).tree.tokens
        = opening.1 :: (Tree.tokensAll arguments.trees ++ [closing.1]) := by
      simp [ArgumentList.tree]
    rw [htokens]
    exact passes_cons opening.2 rfl
      (.append arguments.nested (arguments_passes arguments hl) (passes_cons closing.2 rfl passes_nil))

theorem arguments_passes : (as : ArgumentTerms) → {rest : List Token} →
    {closing : TokenOf .greaterThan} → as.unbroken = true →
    Passes endsValue (Tree.tokensAll as.trees) (closing.1 :: rest)
  | .last type, rest, closing, has => by
    rw [ArgumentTerms.unbroken] at has
    rw [ArgumentTerms.trees, Tree.tokensAll_cons, Tree.tokensAll_nil, List.append_nil]
    exact type_passes type has
  | .cons type comma more, rest, closing, has => by
    rw [ArgumentTerms.unbroken, Bool.and_eq_true, Bool.and_eq_true, Bool.not_eq_true'] at has
    obtain ⟨⟨htype, hmore⟩, hword⟩ := has
    rw [ArgumentTerms.trees, Tree.tokensAll_cons, Tree.tokensAll_cons, Tree.tokens_token]
    exact .append type.nested (type_passes type htype)
      (.cons (by rw [comma.2]; rfl) (endsValue_comma comma more closing hword)
        (arguments_passes more hmore))

end

/-- No token of unbroken parts outside all brackets ends an initialiser. -/
theorem parts_passes (vs : List ValuePart) (hvs : vs.all ValuePart.unbroken = true) :
    Passes endsValue (vs.flatMap ValuePart.tokens) rest := by
  induction vs with
  | nil => exact passes_nil
  | cons v vs ih =>
    rw [List.all_cons, Bool.and_eq_true] at hvs
    rw [List.flatMap_cons]
    refine .append v.nested ?_ (ih hvs.2)
    cases v with
    | token t plain notBracket =>
      simp only [List.mem_cons, List.not_mem_nil, or_false, not_or] at plain
      exact passes_cons rfl (by simp [plain, notBracket]) passes_nil
    | group brackets =>
      refine brackets.passes (endsValue_of_kind rfl ?_ ?_) <;>
        (intro hkind; have := brackets.closer?_first; rw [hkind] at this; cases this)
    | generic word arguments => exact passes_cons word.2 rfl (argumentList_passes arguments hvs.1)

/-! ## Declarators -/

/-- Declarators start with a name, and `=`, a comma or a semicolon follows it. -/
theorem DeclaratorTerms.exists_name (ds : DeclaratorTerms) (semicolon : TokenOf .semicolon)
    (rest : List Token) :
    ∃ (name : TokenOf .identifier) (u : Token) (more : List Token),
      Tree.tokensAll ds.trees ++ semicolon.1 :: rest = name.1 :: u :: more
        ∧ u.kind ∈ [TokenKind.equals, .comma, .semicolon] := by
  obtain ⟨d, u, more, hsplit, hu⟩ : ∃ (d : DeclaratorTerm) (u : Token) (more : List Token),
      Tree.tokensAll ds.trees ++ semicolon.1 :: rest = d.tree.tokens ++ u :: more
        ∧ u.kind ∈ [TokenKind.comma, .semicolon] := by
    cases ds with
    | last d => exact ⟨d, semicolon, rest, by simp [DeclaratorTerms.trees], by simp [semicolon.2]⟩
    | cons d comma ds =>
      exact ⟨d, comma, _, by simp [DeclaratorTerms.trees]; rfl, by simp [comma.2]⟩
  rw [hsplit, DeclaratorTerm.tree]
  cases d.value? with
  | none => exact ⟨d.name, u, more, by simp, List.mem_cons_of_mem _ hu⟩
  | some v =>
    exact ⟨d.name, v.equals, _, by simp [InitializerTerm.tree, InitializerTerm.tokens]; rfl,
      by simp [v.equals.2]⟩

/-- An unbroken initialiser is read up to the semicolon or the next declarator. -/
theorem equalsValue_reads (v : InitializerTerm) {next : Token}
    (hv : v.parts.all ValuePart.unbroken = true) (hnext : endsValue next rest = true)
    (hus : us = v.tokens ++ next :: rest) :
    Yields (equalsValue endsValue us) v.tree (next :: rest) := by
  subst hus
  obtain ⟨r, hr, htaken, hrest⟩ := takeUntil_passes (t := next)
    (nested_parts v.parts) (parts_passes v.parts hv) hnext rfl
  refine ⟨.ofGroup .equalsValue (.cons v.equals.1 r), ?_, ?_, hrest⟩
  · show (takeUntil endsValue (v.parts.flatMap ValuePart.tokens ++ next :: rest)).map _ = _
    rw [hr]
    rfl
  · show Tree.node .equalsValue ((v.equals.1 :: r.taken).map .token) = _
    rw [htaken]
    rfl

/-- An unbroken declarator is read up to the semicolon or the next declarator. -/
theorem variableDeclarator_reads (d : DeclaratorTerm) {next : Token}
    (hd : (d.value?.all fun v => v.parts.all ValuePart.unbroken) = true)
    (hnext : endsValue next rest = true) (hus : us = d.tree.tokens ++ next :: rest) :
    Yields (variableDeclarator us) d.tree (next :: rest) := by
  obtain ⟨name, value?⟩ := d
  have hkind : next.kind = .semicolon ∨ next.kind = .comma := by
    simp only [endsValue, startsDeclarator, Bool.or_eq_true, Bool.and_eq_true, beq_iff_eq] at hnext
    exact hnext.imp_right (·.1.1)
  have hsplit : us = name.1 :: ((value?.map (·.tokens)).getD [] ++ next :: rest) := by
    rw [hus, DeclaratorTerm.tree]
    cases value? <;> simp [InitializerTerm.tree]
  obtain ⟨p, hp, htree, hrest⟩ := yields_expect name hsplit
  have hbracket : nextIs .lbracket (Begun.ofParsed p).rest = false := by
    show nextIs .lbracket p.rest = false
    rw [hrest]
    cases value? with
    | none => rcases hkind with h | h <;> simp [nextIs, h]
    | some v => simp [nextIs, InitializerTerm.tokens, v.equals.2]
  have hvalue : ∃ s, (Begun.ofParsed p).nextIf (nextIs .equals) (equalsValue endsValue) = .ok s
      ∧ s.children = .token name :: value?.toList.map (·.tree) ∧ s.rest = next :: rest := by
    cases value? with
    | none =>
      have hequals : nextIs .equals (Begun.ofParsed p).rest = false := by
        show nextIs .equals p.rest = false
        rw [hrest]
        rcases hkind with h | h <;> simp [nextIs, h]
      refine ⟨.ofParsed p, ?_, congrArg ([·]) htree, hrest⟩
      rw [Begun.nextIf, if_neg (by simp [hequals])]
    | some v =>
      obtain ⟨s, hs, hchildren, hsrest⟩ := next_reads (r := Begun.ofParsed p)
        (equalsValue_reads v hd hnext hrest)
      refine ⟨s, ?_, ?_, hsrest⟩
      · rw [Begun.nextIf, if_pos, hs]
        show nextIs .equals p.rest = true
        rw [hrest]
        simp [nextIs, InitializerTerm.tokens, v.equals.2]
      · rw [hchildren, Begun.children_ofParsed, htree]
        rfl
  obtain ⟨s, hs, hchildren, hsrest⟩ := hvalue
  refine ⟨s.finish .variableDeclarator, ?_, ?_, hsrest⟩
  · replace hs : (Begun.ofParsed p).nextIf (nextIs .equals)
        (equalsValue fun t rest => t.kind == .semicolon || startsDeclarator t rest) = .ok s := hs
    simp only [variableDeclarator, hp, bind, Except.bind, hbracket]
    simp only [Bool.false_eq_true, if_false, pure, Except.pure, hs]
  · rw [Begun.tree_finish, hchildren]
    rfl

/-- Unbroken declarators are read one after the other, up to the semicolon. -/
theorem declarators_reads (ds : DeclaratorTerms) {semicolon : TokenOf .semicolon} {r : Begun ts}
    (hds : (ds.toList.all fun d => d.value?.all fun v => v.parts.all ValuePart.unbroken) = true)
    (hrest : r.rest = Tree.tokensAll ds.trees ++ semicolon.1 :: rest) :
    ∃ s, declarators r = .ok s ∧ s.children = r.children ++ ds.trees ++ [.token semicolon]
      ∧ s.rest = rest := by
  induction ds generalizing r with
  | last d =>
    simp only [DeclaratorTerms.toList, List.all_cons, List.all_nil, Bool.and_true] at hds
    simp only [DeclaratorTerms.trees, Tree.tokensAll_cons, Tree.tokensAll_nil,
      List.append_nil] at hrest
    obtain ⟨p, hp, htree, hprest⟩ := variableDeclarator_reads d hds
      (by simp [endsValue, semicolon.2]) hrest
    have hcomma : expect .comma p.rest = .error .mismatch :=
      expectThat_mismatch (by rw [hprest]; simp [semicolon.2])
    obtain ⟨q, hq, hqtree, hqrest⟩ := yields_expect semicolon hprest
    rw [declarators, hp]
    simp only [hcomma, hq]
    refine ⟨_, rfl, ?_, hqrest⟩
    rw [Begun.children_add_add, htree, hqtree]
    simp [DeclaratorTerms.trees]
  | cons d comma more ih =>
    simp only [DeclaratorTerms.toList, List.all_cons, Bool.and_eq_true] at hds
    simp only [DeclaratorTerms.trees, Tree.tokensAll_cons, Tree.tokens_token, List.append_assoc,
      List.singleton_append] at hrest
    obtain ⟨name, u, tail, hsplit, hu⟩ := DeclaratorTerms.exists_name more semicolon rest
    have hnext : endsValue comma (Tree.tokensAll more.trees ++ semicolon.1 :: rest) = true := by
      rw [hsplit]
      simpa [endsValue, startsDeclarator, comma.2, nextIs, name.2, nextIn] using hu
    obtain ⟨p, hp, htree, hprest⟩ := variableDeclarator_reads d hds.1 hnext hrest
    obtain ⟨q, hq, hqtree, hqrest⟩ := yields_expect comma hprest
    obtain ⟨s, hs, hchildren, hsrest⟩ := ih (r := (r.add p).add q) hds.2 hqrest
    refine ⟨s, ?_, ?_, hsrest⟩
    · rw [declarators, hp]
      simp only [hq, hs]
    · rw [hchildren, Begun.children_add_add, htree, hqtree]
      simp [DeclaratorTerms.trees]

/-! ## Fields -/

/-- The tokens of an unbroken field are read as its tree. -/
theorem field_reads (typeName : Option String) (f : FieldTerm) (hf : f.unbroken = true)
    (hus : us = f.tree.tokens ++ rest) : Yields (member typeName us) f.tree rest := by
  obtain ⟨name, u, more, hsplit, hu⟩ :=
    DeclaratorTerms.exists_name f.declarators f.semicolon rest
  simp only [List.mem_cons, List.not_mem_nil, or_false] at hu
  refine member_typed f.type name f.preamble
    (by rw [hus, ← hsplit]; simp [FieldTerm.tree]) ?_
  intro vs hvs
  obtain ⟨r, named, hchildren, hrest, -, -, htyped⟩ := typedShape_named f.type name
    (by rcases hu with h | h | h <;> simp [Token.continuesName, h]) hvs
  obtain ⟨s, hs, hschildren, hsrest⟩ :=
    declarators_reads f.declarators hf (r := r) (hrest.trans hsplit.symm)
  have hshape : typedShape vs = .ok ⟨.field, s⟩ := by
    rw [htyped, if_pos (by rcases hu with h | h | h <;> simp [nextIn, h]), hs]
    rfl
  refine ⟨_, hshape, rfl, ?_, hsrest⟩
  show s.children = _
  rw [hschildren, hchildren, List.append_assoc]
  rfl

/-- A field is split into the declarators given, each with its own initialiser, if no type argument in
an initialiser is a bare name between two commas outside all brackets. -/
theorem field_split (typeName : Option String) (f : FieldTerm) (hf : f.unbroken = true)
    (rest : List Token) :
    ∃ q, member typeName (f.tokens ++ rest) = .ok q ∧ q.tree = f.tree ∧ q.rest = rest
      ∧ q.tree.kind? = some .field
      ∧ q.tree.variableNames = f.declarators.toList.map (·.name.1.value)
      ∧ (q.tree.childrenOf (· == .variableDeclarator)).map (·.childrenOf (· == .equalsValue))
          = f.declarators.toList.map (·.value?.toList.map (·.tree)) := by
  obtain ⟨q, hq, htree, hrest⟩ := field_reads typeName f hf rfl
  refine ⟨q, hq, htree, hrest, ?_⟩
  rw [htree]
  refine ⟨rfl, f.variableNames_tree, ?_⟩
  rw [f.childrenOf_tree, List.map_map]
  exact List.map_congr_left fun d _ => d.childrenOf_tree

theorem field_split_arguments :
    ∃ f : FieldTerm, f.tokens.map (·.value)
        = ["int", "a", "=", "new", "M", "<", "A", ",", "B", "[", "]", ",", "C", ">", "(", ",", ")", ",",
          "b", ";"]
      ∧ f.unbroken = true
      ∧ ∃ q, member none (f.tokens ++ []) = .ok q ∧ q.tree = f.tree ∧ q.rest = []
        ∧ q.tree.kind? = some .field
        ∧ q.tree.variableNames = f.declarators.toList.map (·.name.1.value)
        ∧ (q.tree.childrenOf (· == .variableDeclarator)).map (·.childrenOf (· == .equalsValue))
            = f.declarators.toList.map (·.value?.toList.map (·.tree)) := by
  let word (value : String) : TokenOf .identifier := ⟨{ kind := .identifier, value }, rfl⟩
  let comma : TokenOf .comma := ⟨{ kind := .comma, value := "," }, rfl⟩
  let named (value : String) : CoreTerm := .name none (.last (.plain (word value)))
  let array : TypeMark := .array ⟨{ kind := .lbracket, value := "[" }, rfl⟩ []
    ⟨{ kind := .rbracket, value := "]" }, rfl⟩
  let arguments : ArgumentList := .mk ⟨{ kind := .lessThan, value := "<" }, rfl⟩
    (.cons (.marked (named "A") []) comma
      (.cons (.marked (named "B") [array]) comma (.last (.marked (named "C") []))))
    ⟨{ kind := .greaterThan, value := ">" }, rfl⟩
  let call : Enclosed .lparen :=
    { first := { kind := .lparen, value := "(" }, inner := [comma]
      last := { kind := .rparen, value := ")" }
      opens := rfl, nested := rfl, closes := rfl }
  let value : InitializerTerm :=
    { equals := ⟨{ kind := .equals, value := "=" }, rfl⟩
      parts := [.token { kind := .keyword, value := "new" } (by decide) rfl,
        .generic (word "M") arguments, .group call] }
  let f : FieldTerm :=
    { preamble := ⟨[], []⟩
      type :=
        { core := .predefined ⟨{ kind := .keyword, value := "int" }, by decide⟩, marks := []
          plain := by decide }
      declarators := .cons ⟨word "a", some value⟩ comma (.last ⟨word "b", none⟩)
      semicolon := ⟨{ kind := .semicolon, value := ";" }, rfl⟩ }
  exact ⟨f, by decide, by decide, field_split none f (by decide) []⟩

/-- The second of three type arguments is taken for a declarator, and the third for another one, which
has no end: the field is not read. -/
theorem field_with_broken_arguments :
    ∃ f : FieldTerm, f.tokens.map (·.value)
        = ["Map", "<", "A", ",", "B", ",", "C", ">", "m", "=", "new", "Map", "<", "A", ",", "B", ",",
          "C", ">", "(", ")", ";"]
      ∧ ∃ q, member (some "C") f.tokens = .ok q ∧ q.tree.kind? = some .skipped := by
  let word (value : String) : TokenOf .identifier := ⟨{ kind := .identifier, value }, rfl⟩
  let comma : TokenOf .comma := ⟨{ kind := .comma, value := "," }, rfl⟩
  let named (value : String) : TypeTerm := .marked (.name none (.last (.plain (word value)))) []
  let arguments : ArgumentList := .mk ⟨{ kind := .lessThan, value := "<" }, rfl⟩
    (.cons (named "A") comma (.cons (named "B") comma (.last (named "C"))))
    ⟨{ kind := .greaterThan, value := ">" }, rfl⟩
  let call : Enclosed .lparen :=
    { first := { kind := .lparen, value := "(" }, inner := []
      last := { kind := .rparen, value := ")" }
      opens := rfl, nested := rfl, closes := rfl }
  let value : InitializerTerm :=
    { equals := ⟨{ kind := .equals, value := "=" }, rfl⟩
      parts := [.token { kind := .keyword, value := "new" } (by decide) rfl,
        .generic (word "Map") arguments, .group call] }
  let f : FieldTerm :=
    { preamble := ⟨[], []⟩
      type :=
        { core := .name none (.last (.generic (word "Map") arguments)), marks := []
          plain := by decide }
      declarators := .last ⟨word "m", some value⟩
      semicolon := ⟨{ kind := .semicolon, value := ";" }, rfl⟩ }
  have htokens : f.tokens = ([(.identifier, "Map"), (.lessThan, "<"), (.identifier, "A"),
      (.comma, ","), (.identifier, "B"), (.comma, ","), (.identifier, "C"), (.greaterThan, ">"),
      (.identifier, "m"), (.equals, "="), (.keyword, "new"), (.identifier, "Map"), (.lessThan, "<"),
      (.identifier, "A"), (.comma, ","), (.identifier, "B"), (.comma, ","), (.identifier, "C"),
      (.greaterThan, ">"), (.lparen, "("), (.rparen, ")"), (.semicolon, ";")].map
        fun (kind, value) => { kind, value }) := by decide
  refine ⟨f, by decide, ?_⟩
  have hrun : (member (some "C") f.tokens).toOption.map (·.tree.kind?) = some (some .skipped) := by
    rw [htokens]
    decide +kernel
  obtain ⟨q, hq, hkind⟩ := Option.map_eq_some_iff.mp hrun
  exact ⟨q, ok_of_toOption hq, hkind⟩

end Grammar

end NullableMarker
