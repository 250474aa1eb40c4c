import NullableMarker.Proofs.TypeTerms

/-!
# Terms for properties

A property as its grammar has it: attribute lists and modifiers, a type, a name, and accessors whose
bodies are whole groups. The other shapes of members are ruled out one after the other by the tokens
ahead, so the tokens of a property are always read as one.

* `MemberType` — a type that no declaration of another kind starts with
* `Grammar.member_typed` — a member that starts with a type and a name is read by what follows them
* `PropertyTerm` — properties, with their tokens
* `Grammar.property_reads` — the tokens of a property are read as its tree
-/

namespace NullableMarker

open Grammar

/-! ## Terms -/

/-- A node over the tokens of a group. -/
def Enclosed.node {opening : TokenKind} (kind : NodeKind) (g : Enclosed opening) : Tree :=
  .node kind (g.tokens.map .token)

/-- Attribute lists and modifiers before a declaration. -/
structure PreambleTerm (words : List String) where
  attributes : List (Enclosed .lbracket)
  modifiers : List (KeywordOf words)

/-- The trees before a declaration. -/
def PreambleTerm.trees {words : List String} (p : PreambleTerm words) : List Tree :=
  p.attributes.map (·.node .attributeList) ++ [.node .modifiers (p.modifiers.map (.token ·.1))]

/-- The words that another declaration may start with. -/
def openingWords : List String := contextualModifiers ++ ["record"]

/-- A type without `ref` that starts with no word of another declaration. -/
structure MemberType where
  core : CoreTerm
  marks : List TypeMark
  plain : ∀ t ∈ (TypeTerm.marked core marks).tokens.head?, t.value ∉ openingWords

/-- The tree of the type of a member. -/
def MemberType.tree (t : MemberType) : Tree := (TypeTerm.marked t.core t.marks).tree

/-- The body of an accessor: none, a block, or an expression in which no semicolon stands outside
all brackets. -/
inductive BodyTerm where
  | none (semicolon : TokenOf .semicolon)
  | block (braces : Enclosed .lbrace)
  | expression (arrow : TokenOf .arrow) (value : List Token) (nested : Nested value)
      (passes : Passes (fun t _ => t.kind == .semicolon) value []) (semicolon : TokenOf .semicolon)

/-- The tree of a body. -/
def BodyTerm.tree : BodyTerm → Tree
  | none semicolon => .token semicolon
  | block braces => braces.node .block
  | expression arrow value _ _ semicolon =>
    .node .expressionBody ((arrow.1 :: (value ++ [semicolon.1])).map .token)

/-- The body proper, if there is one. -/
def BodyTerm.node? : BodyTerm → Option Tree
  | none _ => .none
  | b => some b.tree

/-- An accessor. -/
structure AccessorTerm where
  preamble : PreambleTerm accessorModifiers
  keyword : { t : Token // t.kind = .identifier ∧ t.value ∈ accessorKeywords }
  body : BodyTerm

/-- The tree of an accessor. -/
def AccessorTerm.tree (a : AccessorTerm) : Tree :=
  .node .accessor (a.preamble.trees ++ [.token a.keyword, a.body.tree])

/-- A property with accessors and without an initialiser. -/
structure PropertyTerm where
  preamble : PreambleTerm modifierKeywords
  type : MemberType
  name : TokenOf .identifier
  opening : TokenOf .lbrace
  accessors : List AccessorTerm
  closing : TokenOf .rbrace

namespace PropertyTerm

/-- The tree of the accessors of a property. -/
def accessorList (p : PropertyTerm) : Tree :=
  .node .accessorList (.token p.opening :: (p.accessors.map (·.tree) ++ [.token p.closing]))

/-- The tree of a property. -/
def tree (p : PropertyTerm) : Tree :=
  .node .property (p.preamble.trees ++ [p.type.tree, .token p.name, p.accessorList])

/-- The tokens of a property. -/
def tokens (p : PropertyTerm) : List Token := p.tree.tokens

end PropertyTerm

/-! ## Where a member starts with a type -/

@[simp] theorem Enclosed.tokens_node {opening : TokenKind} (kind : NodeKind) (g : Enclosed opening) :
    (g.node kind).tokens = g.tokens := by
  simp [Enclosed.node]

/-- An identifier that a type starts with is followed by what goes on the type. -/
theorem CoreTerm.continuesType_tail (c : CoreTerm) (marks : List TypeMark) {first : Token}
    {tail : List Token} (htokens : (TypeTerm.marked c marks).tree.tokens = first :: tail)
    (hfirst : first.kind = .identifier) : tail.head?.all Token.continuesType = true := by
  obtain ⟨u, us, hcore, -, hus⟩ := c.exists_first
  rw [TypeTerm.tree, TypeMark.tokens_marks, hcore] at htokens
  obtain ⟨rfl, rfl⟩ := List.cons.inj htokens
  cases us with
  | cons v us =>
    have hv : v.continuesName = true := by simpa using hus hfirst
    simp [Token.continuesName_of_continuesType hv]
  | nil =>
    cases marks with
    | nil => rfl
    | cons mark marks =>
      cases mark with
      | question mark => simp [TypeMark.tokens, Token.continuesType, mark.2]
      | array opening commas closing => simp [TypeMark.tokens, Token.continuesType, opening.2]
      | pointer star => simp [TypeMark.tokens, Token.continuesType, star.2.1, star.2.2]

/-- What the type of a member starts with. -/
theorem MemberType.exists_first (t : MemberType) : ∃ first tail, t.tree.tokens = first :: tail
    ∧ first.startsCore = true ∧ first.value ∉ openingWords
    ∧ (first.kind = .identifier → tail.head?.all Token.continuesType = true) := by
  obtain ⟨first, tail, hcore, hfirst, -⟩ := t.core.exists_first
  have htokens : t.tree.tokens = first :: (tail ++ t.marks.flatMap TypeMark.tokens) := by
    rw [MemberType.tree, TypeTerm.tree, TypeMark.tokens_marks, hcore]
    rfl
  refine ⟨first, _, htokens, hfirst, t.plain first ?_, t.core.continuesType_tail t.marks htokens⟩
  rw [TypeTerm.tokens, show (TypeTerm.marked t.core t.marks).tree.tokens = _ from htokens]
  rfl

/-- A keyword that is no predefined type does not start a type. -/
theorem Token.isKeyword_of_startsCore {t : Token} {words : List String}
    (h : t.startsCore = true) (hwords : ∀ w ∈ predefinedTypes, w ∉ words) :
    t.isKeyword words = false := by
  simp only [startsCore, Bool.or_eq_true, beq_iff_eq] at h
  rcases h with (h | h) | h
  · exact isKeyword_eq_false h hwords
  · simp [isKeyword, h]
  · simp [isKeyword, h]

/-! ## What a tree says -/

/-- A type is a node of a kind of type. -/
theorem MemberType.exists_node (t : MemberType) :
    ∃ kind cs, t.tree = .node kind cs ∧ kind.isType = true := by
  have hmarks : ∀ (marks : List TypeMark) (type : Tree),
      (∃ kind cs, type = .node kind cs ∧ kind.isType = true) →
      ∃ kind cs, marks.foldl TypeMark.mark type = .node kind cs ∧ kind.isType = true := by
    intro marks
    induction marks with
    | nil => exact fun _ h => h
    | cons mark marks ih => exact fun type _ => ih _ (by cases mark <;> exact ⟨_, _, rfl, rfl⟩)
  rw [MemberType.tree, TypeTerm.tree]
  exact hmarks _ _ (by cases t.core <;> exact ⟨_, _, rfl, rfl⟩)

namespace PreambleTerm

variable {words : List String} (p : PreambleTerm words) {kind : NodeKind} {cs : List Tree}

/-- Attribute lists and modifiers are nodes. -/
theorem childTokens_node :
    (Tree.node kind (p.trees ++ cs)).childTokens = (Tree.node kind cs).childTokens := by
  obtain ⟨attributes, modifiers⟩ := p
  induction attributes with
  | nil => rfl
  | cons g gs ih => exact ih

/-- What is neither an attribute list nor modifiers comes after them. -/
theorem child?_node {f : NodeKind → Bool} (hattribute : f .attributeList = false)
    (hmodifiers : f .modifiers = false) :
    (Tree.node kind (p.trees ++ cs)).child? f = (Tree.node kind cs).child? f := by
  obtain ⟨attributes, modifiers⟩ := p
  induction attributes with
  | nil =>
    show (Tree.node .modifiers _ :: cs).find? (·.isNode f) = _
    rw [List.find?_cons_of_neg (by simp [Tree.isNode, Tree.kind?, hmodifiers])]
    rfl
  | cons g gs ih =>
    refine Eq.trans ?_ ih
    show (g.node .attributeList :: _).find? (·.isNode f) = _
    rw [List.find?_cons_of_neg (by simp [Enclosed.node, Tree.isNode, Tree.kind?, hattribute])]
    rfl

theorem childrenOf_node {f : NodeKind → Bool} (hattribute : f .attributeList = false)
    (hmodifiers : f .modifiers = false) :
    (Tree.node kind (p.trees ++ cs)).childrenOf f = (Tree.node kind cs).childrenOf f := by
  obtain ⟨attributes, modifiers⟩ := p
  induction attributes with
  | nil =>
    show (Tree.node .modifiers _ :: cs).filter (·.isNode f) = _
    rw [List.filter_cons_of_neg (by simp [Tree.isNode, Tree.kind?, hmodifiers])]
    rfl
  | cons g gs ih =>
    refine Eq.trans ?_ ih
    show (g.node .attributeList :: _).filter (·.isNode f) = _
    rw [List.filter_cons_of_neg (by simp [Enclosed.node, Tree.isNode, Tree.kind?, hattribute])]
    rfl

/-- The modifiers are those given. -/
theorem modifiers_node :
    (Tree.node kind (p.trees ++ cs)).modifiers = p.modifiers.map (·.1.value) := by
  obtain ⟨attributes, modifiers⟩ := p
  induction attributes with
  | nil =>
    show ((modifiers.map (fun m => Tree.token m.1)).filterMap _).map Token.value = _
    rw [List.filterMap_map, List.map_filterMap]
    exact congrFun List.filterMap_eq_map modifiers
  | cons g gs ih => exact ih

end PreambleTerm

theorem AccessorTerm.name_tree (a : AccessorTerm) : a.tree.name = a.keyword.1.value := by
  have htokens : a.tree.childTokens
      = a.keyword.1 :: (Tree.node .accessor [a.body.tree]).childTokens := by
    rw [AccessorTerm.tree, PreambleTerm.childTokens_node]
    rfl
  have hbody : ∀ t ∈ (Tree.node .accessor [a.body.tree]).childTokens, t.kind ≠ .identifier := by
    cases a.body with
    | none semicolon =>
      intro t ht
      obtain rfl : t = semicolon.1 := by
        simpa [Tree.childTokens, Tree.children, BodyTerm.tree] using ht
      rw [semicolon.2]
      decide
    | block braces => intro t ht; cases ht
    | expression arrow value nested passes semicolon => intro t ht; cases ht
  rw [Tree.name, Tree.nameToken?, htokens, List.reverse_cons, List.find?_append,
    List.find?_eq_none.mpr (by simpa using hbody)]
  simp [a.keyword.2.1]

theorem AccessorTerm.accessorBody?_tree (a : AccessorTerm) :
    a.tree.accessorBody? = a.body.node? := by
  rw [AccessorTerm.tree, Tree.accessorBody?, PreambleTerm.child?_node _ rfl rfl]
  cases a.body <;> rfl

/-- The views of the tree of a property give its parts. -/
theorem PropertyTerm.views_tree (p : PropertyTerm) : p.tree.kind? = some .property
    ∧ p.tree.type? = some p.type.tree ∧ p.tree.name = p.name.1.value
    ∧ p.tree.modifiers = p.preamble.modifiers.map (·.1.value)
    ∧ p.tree.accessors? = some (p.accessors.map (·.tree)) := by
  obtain ⟨kind, cs, htype, hkind⟩ := p.type.exists_node
  refine ⟨rfl, ?_, ?_, p.preamble.modifiers_node, ?_⟩
  · rw [PropertyTerm.tree, Tree.type?, PreambleTerm.child?_node _ rfl rfl, htype]
    exact List.find?_cons_of_pos hkind
  · rw [Tree.name, Tree.nameToken?, PropertyTerm.tree, PreambleTerm.childTokens_node, htype]
    show ((List.find? (·.kind == .identifier) [p.name.1]).map Token.value).getD "" = _
    simp [p.name.2]
  · have hne : (kind == .accessorList) = false := by
      cases kind <;> first | rfl | cases hkind
    rw [Tree.accessors?, PropertyTerm.tree, PreambleTerm.child?_node _ rfl rfl, htype]
    show (List.find? _ (Tree.node kind cs :: _)).map _ = _
    rw [List.find?_cons_of_neg (by simp [Tree.isNode, Tree.kind?, hne])]
    show some (List.filter _ (p.accessors.map (·.tree) ++ [.token p.closing])) = _
    rw [List.filter_append, List.filter_eq_self.mpr]
    · simp [Tree.isNode, Tree.kind?]
    · intro t ht
      obtain ⟨a, -, rfl⟩ := List.mem_map.mp ht
      rfl

namespace Grammar

variable {ts us rest more : List Token}

/-! ## Parts that are read one after the other -/

theorem next_reads {r : Begun ts} {reader : (us : List Token) → Except Failure (Parsed us)}
    {tree : Tree} (h : Yields (reader r.rest) tree rest) :
    ∃ s, r.next reader = .ok s ∧ s.children = r.children ++ [tree] ∧ s.rest = rest := by
  obtain ⟨p, hp, rfl, hrest⟩ := h
  exact ⟨r.add p, by rw [Begun.next, hp]; rfl, rfl, hrest⟩

/-- Attribute lists are read up to a token that is no bracket. -/
theorem attributeListsAfter_reads (gs : List (Enclosed .lbracket)) {r : Reading ts}
    (hrest : r.rest = gs.flatMap (·.tokens) ++ rest) (hends : nextIs .lbracket rest = false) :
    ∃ s, attributeListsAfter r = .ok s
      ∧ s.children = r.children ++ gs.map (·.node .attributeList) ∧ s.rest = rest := by
  induction gs generalizing r with
  | nil =>
    replace hrest : r.rest = rest := hrest
    refine ⟨r, ?_, by simp, hrest⟩
    rw [attributeListsAfter, if_neg (by simp [hrest, hends])]
  | cons g gs ih =>
    rw [List.flatMap_cons, List.append_assoc] at hrest
    have hnext : nextIs .lbracket r.rest = true := by
      rw [hrest]
      simp [nextIs, Enclosed.tokens, g.opens]
    obtain ⟨b, hb, htaken, hbrest⟩ := balanced_enclosed g hrest
    obtain ⟨s, hs, hchildren, hsrest⟩ :=
      ih (r := (r.add (.ofGroup .attributeList b)).toReading) hbrest
    refine ⟨s, ?_, ?_, hsrest⟩
    · rw [attributeListsAfter, if_pos hnext]
      simp only [hb, hs]
    · rw [hchildren, Reading.children_add]
      show r.children ++ [.node .attributeList (b.taken.map .token)] ++ _ = _
      rw [htaken, List.append_assoc]
      rfl

/-- Tokens of a class are taken up to one that is not in it. -/
theorem takeWhile_reads {f : Token → List Token → Bool} (hts : ∀ t ∈ ts, ∀ vs, f t vs = true)
    (hends : ∀ t vs, rest = t :: vs → f t vs = false) (hus : us = ts ++ rest) :
    (Run.takeWhile f us).taken = ts ∧ (Run.takeWhile f us).rest = rest := by
  subst hus
  induction ts with
  | nil =>
    cases rest with
    | nil => exact ⟨rfl, rfl⟩
    | cons t rest =>
      rw [List.nil_append, Run.takeWhile, if_neg (by simp [hends t rest rfl])]
      exact ⟨rfl, rfl⟩
  | cons t ts ih =>
    obtain ⟨htaken, hrest⟩ := ih fun u hu => hts u (List.mem_cons_of_mem t hu)
    rw [List.cons_append, Run.takeWhile, if_pos (hts t List.mem_cons_self _)]
    exact ⟨congrArg (t :: ·) htaken, hrest⟩

/-- What stands before a declaration is read up to a token that is no bracket and no modifier. -/
theorem preamble_reads {words : List String} (p : PreambleTerm words)
    {f : Token → List Token → Bool} (hf : ∀ t vs, t.isKeyword words = true → f t vs = true)
    (hbracket : nextIs .lbracket rest = false) (hends : ∀ t vs, rest = t :: vs → f t vs = false)
    (hus : us = Tree.tokensAll p.trees ++ rest) :
    ∃ r, preamble f us = .ok r ∧ r.children = p.trees ∧ r.rest = rest := by
  have hmodifiers : p.modifiers.map (fun m => Tree.token m.1)
      = (p.modifiers.map (·.1)).map .token := by
    simp
  have hattributes : Tree.tokensAll (p.attributes.map (·.node .attributeList))
      = p.attributes.flatMap (·.tokens) := by
    induction p.attributes with
    | nil => rfl
    | cons g gs ih => simp [ih]
  have hsplit : us = p.attributes.flatMap (·.tokens) ++ (p.modifiers.map (·.1) ++ rest) := by
    rw [hus, PreambleTerm.trees, Tree.tokensAll_append, hattributes, hmodifiers]
    simp [-List.map_map]
  have hnext : nextIs .lbracket (p.modifiers.map (·.1) ++ rest) = false := by
    cases p.modifiers with
    | nil => exact hbracket
    | cons m ms => simp [nextIs, Token.kind_of_isKeyword m.2]
  obtain ⟨r, hr, hchildren, hrest⟩ :=
    attributeListsAfter_reads p.attributes (r := .start us) hsplit hnext
  obtain ⟨htaken, hleft⟩ := takeWhile_reads (f := f)
    (fun t ht vs => by
      obtain ⟨m, -, rfl⟩ := List.mem_map.mp ht
      exact hf m vs m.2)
    hends hrest
  refine ⟨r.addRun .modifiers (.takeWhile f r.rest), by rw [preamble, hr]; rfl, ?_, hleft⟩
  show r.children ++ [.node .modifiers ((Run.takeWhile f r.rest).taken.map .token)] = _
  rw [htaken, hchildren, PreambleTerm.trees, hmodifiers]
  rfl

/-! ## Members that start with a type and a name -/

/-- Before a plain name there is no interface. -/
theorem explicitInterface?_plain (name : TokenOf .identifier) (hus : us = name.1 :: more)
    (hmore : more.head?.any Token.continuesName = false) : explicitInterface? us = .ok none := by
  subst hus
  have hcolons : nextIs .doubleColon more = false :=
    head?_any_false hmore (by simp +contextual [Token.continuesName])
  have hdot : nextIs .dot more = false :=
    head?_any_false hmore (by simp +contextual [Token.continuesName])
  have hsplit : name.1 :: more = Tree.tokensAll
      (((none : Option AliasTerm).map AliasTerm.trees).getD []) ++ name.1 :: more := rfl
  obtain ⟨hchildren, hrest⟩ := aliasQualifier_reads none hsplit hcolons
  obtain ⟨p, hp, htree, hprest⟩ := segments_reads (.last (.plain name))
    (r := aliasQualifier (name.1 :: more))
    (by rw [hrest]; simp [SegmentTerms.trees, SegmentTerm.trees]) hmore
  have hcount : segmentCount p.tree = 1 := by
    rw [htree, hchildren]
    simp [segmentCount, Tree.childTokens, Tree.children, SegmentTerms.trees, SegmentTerm.trees,
      name.2]
  simp only [explicitInterface?, Grammar.name, hp, bind, Except.bind, hcount, hprest, hdot]
  rfl

section Typed

variable (t : MemberType) (name : TokenOf .identifier)

/-- The type and the name of a member, and what decides on its shape. -/
theorem typedShape_named (hmore : more.head?.any Token.continuesName = false)
    (hus : us = t.tree.tokens ++ name.1 :: more) :
    ∃ r named : Begun us, r.children = [t.tree] ∧ r.rest = name.1 :: more
      ∧ named.children = [t.tree, .token name] ∧ named.rest = more
      ∧ typedShape us = if nextIn [.equals, .semicolon, .comma, .lbracket] more
          then (declarators r).map (⟨.field, ·⟩) else namedShape named := by
  obtain ⟨p, hp, htree, hrest⟩ := type_reads (.marked t.core t.marks) hus
    (Token.not_continuesType name.2 (by decide))
  obtain ⟨named, hnamed, hchildren, hnrest⟩ :=
    next_reads (r := Begun.ofParsed p) (yields_expect name hrest)
  have hword : ∀ words, nextKeyword words (Begun.ofParsed p).rest = false := by
    intro words
    show nextKeyword words p.rest = false
    rw [hrest]
    simp [nextKeyword, Token.isKeyword, name.2]
  have hexplicit : explicitInterface? (Begun.ofParsed p).rest = .ok none :=
    explicitInterface?_plain name hrest hmore
  refine ⟨.ofParsed p, named, congrArg ([·]) htree, hrest, ?_, hnrest, ?_⟩
  · rw [hchildren, Begun.children_ofParsed, htree]
    rfl
  · simp only [typedShape, hp, bind, Except.bind, hword, hexplicit, hnamed, hnrest]
    cases declarators (Begun.ofParsed p) <;> rfl

/-- No other declaration starts as a type does. -/
theorem plainShape_typed (typeName : Option String) (hus : us = t.tree.tokens ++ name.1 :: more) :
    startsTypeDeclaration us = false ∧ plainShape typeName us = typedShape us := by
  obtain ⟨first, tail, htokens, hfirst, hvalue, htail⟩ := t.exists_first
  obtain rfl : us = first :: (tail ++ name.1 :: more) := by rw [hus, htokens]; rfl
  have hkeyword : ∀ words ∈ [["class", "struct", "interface"], ["enum"], ["delegate"], ["event"],
      ["implicit", "explicit"]], nextKeyword words (first :: (tail ++ name.1 :: more)) = false := by
    intro words hwords
    have hpredefined : ∀ words ∈ [["class", "struct", "interface"], ["enum"], ["delegate"], ["event"],
      ["implicit", "explicit"]], ∀ w ∈ predefinedTypes, w ∉ words := by decide
    exact Token.isKeyword_of_startsCore hfirst (hpredefined words hwords)
  have hrecord : first.value ≠ "record" := fun h => hvalue (by rw [h]; decide)
  -- an identifier is followed by what goes on the type or by the name
  have hparen : first.kind = .identifier → nextIs .lparen (tail ++ name.1 :: more) = false := by
    intro hkind
    cases tail with
    | nil => simp [nextIs, name.2]
    | cons u tail =>
      have hu : u.continuesType = true := by simpa using htail hkind
      have hne : u.kind ≠ .lparen := by
        intro hu'
        rw [Token.not_continuesType hu' (by decide)] at hu
        cases hu
      simp [nextIs, hne]
  have hoperator : first.kind ≠ .operator := by
    intro h
    simp [Token.startsCore, Token.isKeyword, h] at hfirst
  constructor
  · simp [startsTypeDeclaration, hkeyword, nextWord, Token.isWord, hrecord]
  · rw [plainShape, if_neg (by simp [hkeyword]), if_neg (by simp [hkeyword]),
      if_neg (by simp [hkeyword]), if_neg (by simp [hoperator]), if_neg (by simp [hkeyword]),
      if_neg ?_]
    by_cases hkind : first.kind = .identifier
    · simp [hparen hkind]
    · simp [hkind]

/-- A member that starts with a type and a name is what they are read as, after its attribute lists
and modifiers. -/
theorem member_typed {typeName : Option String} (p : PreambleTerm modifierKeywords) {kind : NodeKind}
    {children : List Tree} (hus : us = Tree.tokensAll p.trees ++ (t.tree.tokens ++ name.1 :: more))
    (hshape : ∀ vs, vs = t.tree.tokens ++ name.1 :: more →
      ∃ s, typedShape vs = .ok s ∧ s.kind = kind ∧ s.read.children = children ∧ s.read.rest = rest) :
    Yields (member typeName us) (.node kind (p.trees ++ children)) rest := by
  obtain ⟨first, tail, htokens, hfirst, hvalue, -⟩ := t.exists_first
  have hbracket : nextIs .lbracket (t.tree.tokens ++ name.1 :: more) = false := by
    rw [htokens]
    have : first.kind ≠ .lbracket := by
      intro h
      simp [Token.startsCore, Token.isKeyword, h] at hfirst
    simp [nextIs, this]
  have hmodifier : ∀ u vs, t.tree.tokens ++ name.1 :: more = u :: vs → isModifier u vs = false := by
    intro u vs huvs
    rw [htokens] at huvs
    obtain ⟨rfl, -⟩ := List.cons.inj huvs
    have hcontextual : first.value ∉ contextualModifiers :=
      fun h => hvalue (List.mem_append_left _ h)
    have hkeyword : first.isKeyword modifierKeywords = false :=
      Token.isKeyword_of_startsCore hfirst (by decide)
    have href : first.isKeyword ["ref"] = false := Token.isKeyword_of_startsCore hfirst (by decide)
    simp [isModifier, hkeyword, href, hcontextual]
  obtain ⟨r, hr, hchildren, hrest⟩ := preamble_reads p (f := isModifier)
    (fun u vs hu => by simp [isModifier, hu]) hbracket hmodifier hus
  obtain ⟨hstarts, hplain⟩ := plainShape_typed t name typeName hrest
  obtain ⟨s, hs, rfl, rfl, hsrest⟩ := hshape r.rest hrest
  rw [member, declaration, hr]
  simp only [shape, hstarts, hplain, hs]
  exact ⟨_, rfl, by rw [← hchildren]; rfl, hsrest⟩

end Typed

/-! ## Accessors -/

/-- A body is read whole, whatever follows it. -/
theorem body_reads (b : BodyTerm) (hus : us = b.tree.tokens ++ rest) :
    Yields (body us) b.tree rest := by
  cases b with
  | none semicolon =>
    obtain rfl : us = semicolon.1 :: rest := by rw [hus]; simp [BodyTerm.tree]
    rw [body, if_neg (by simp [semicolon.2]), if_neg (by simp [semicolon.2])]
    exact yields_expect semicolon rfl
  | block braces =>
    obtain rfl : us = braces.first :: (braces.inner ++ [braces.last] ++ rest) := by
      rw [hus]
      simp [BodyTerm.tree, Enclosed.tokens]
    have hsplit : braces.first :: (braces.inner ++ [braces.last] ++ rest)
        = braces.tokens ++ rest := rfl
    obtain ⟨g, hg, htaken, hrest⟩ := balanced_enclosed braces hsplit
    rw [body, if_pos (by simp [braces.opens]), hg]
    refine ⟨_, rfl, ?_, hrest⟩
    show Tree.node .block (g.taken.map .token) = _
    rw [htaken]
    rfl
  | expression arrow value nested passes semicolon =>
    obtain rfl : us = arrow.1 :: (value ++ semicolon.1 :: rest) := by
      rw [hus]
      simp [BodyTerm.tree, -List.map_cons, -List.map_append]
    have hpasses : Passes (fun t _ => t.kind == .semicolon) value (semicolon.1 :: rest) := passes
    obtain ⟨r, hr, htaken, hrest⟩ :=
      takeUntil_passes nested hpasses (beq_iff_eq.mpr semicolon.2) rfl
    obtain ⟨g, hg, hgtaken, hgrest⟩ := through_ok arrow.1 hr hrest
    rw [body, if_neg (by simp [arrow.2]), if_pos (by simp [arrow.2]), hg]
    refine ⟨_, rfl, ?_, hgrest⟩
    show Tree.node .expressionBody (g.taken.map .token) = _
    rw [hgtaken, htaken]
    rfl

/-- An accessor is read whole, whatever follows it. -/
theorem accessor_reads (a : AccessorTerm) (hus : us = a.tree.tokens ++ rest) :
    Yields (accessor us) a.tree rest := by
  have hkeyword : a.keyword.1.isWord accessorKeywords = true := by
    simp [Token.isWord, a.keyword.2.1, a.keyword.2.2]
  have hsplit : us = Tree.tokensAll a.preamble.trees
      ++ a.keyword.1 :: (a.body.tree.tokens ++ rest) := by
    rw [hus]
    simp [AccessorTerm.tree]
  obtain ⟨r, hr, hchildren, hrest⟩ := preamble_reads a.preamble
    (f := fun t _ => t.isWord accessorModifiers)
    (fun t _ ht => by
      have hkind := Token.kind_of_isKeyword ht
      simpa [Token.isKeyword, Token.isWord, hkind] using ht)
    (by simp [nextIs, a.keyword.2.1])
    (by
      intro t vs h
      obtain ⟨rfl, -⟩ := List.cons.inj h
      have hdisjoint : ∀ w ∈ accessorKeywords, w ∉ accessorModifiers := by decide
      simp [Token.isWord, hdisjoint _ a.keyword.2.2])
    hsplit
  obtain ⟨p, hp, htree, hprest⟩ :=
    yields_expectThat (f := (·.isWord accessorKeywords)) hkeyword hrest
  obtain ⟨s, hs, hschildren, hsrest⟩ := next_reads (r := r.add p) (body_reads a.body hprest)
  refine ⟨s.finish .accessor, ?_, ?_, hsrest⟩
  · simp only [accessor, hr, bind, Except.bind, expectWord, hp, hs]
    rfl
  · rw [Begun.tree_finish, hschildren, Reading.children_add, hchildren, htree, List.append_assoc]
    rfl

/-- The first token of an accessor is no closing brace. -/
theorem accessor_starts (a : AccessorTerm) :
    (a.tree.tokens ++ rest).head?.any (·.kind == .rbrace) = false := by
  obtain ⟨⟨attributes, modifiers⟩, keyword, body⟩ := a
  cases attributes with
  | cons g gs =>
    simp [AccessorTerm.tree, PreambleTerm.trees, Enclosed.tokens, g.opens]
  | nil =>
    cases modifiers with
    | cons m ms => simp [AccessorTerm.tree, PreambleTerm.trees, Token.kind_of_isKeyword m.2]
    | nil => simp [AccessorTerm.tree, PreambleTerm.trees, keyword.2.1]

/-- Accessors are read one after the other, up to the closing brace. -/
theorem accessors_reads (as : List AccessorTerm) {closing : TokenOf .rbrace} {r : Begun ts}
    (hrest : r.rest = Tree.tokensAll (as.map (·.tree)) ++ closing.1 :: rest) :
    Yields (accessors r)
      (.node .accessorList (r.children ++ as.map (·.tree) ++ [.token closing])) rest := by
  induction as generalizing r with
  | nil =>
    obtain ⟨p, hp, htree, hprest⟩ := yields_expect closing hrest
    rw [accessors]
    simp only [hp]
    refine ⟨_, rfl, ?_, hprest⟩
    rw [Begun.tree_finish, Begun.children_add, htree]
    simp
  | cons a as ih =>
    rw [List.map_cons, Tree.tokensAll_cons, List.append_assoc] at hrest
    have hbrace : expect .rbrace r.rest = .error .mismatch :=
      expectThat_mismatch (by rw [hrest]; exact accessor_starts a)
    obtain ⟨p, hp, htree, hprest⟩ := accessor_reads a hrest
    rw [accessors]
    simp only [hbrace, hp]
    refine (ih (r := r.add p) hprest).congr ?_
    rw [Begun.children_add, htree]
    simp

/-! ## Properties -/

/-- The tokens of a property are read as its tree, unless an initialiser follows. -/
theorem property_reads (typeName : Option String) (p : PropertyTerm)
    (hends : nextIs .equals rest = false) (hus : us = p.tree.tokens ++ rest) :
    Yields (member typeName us) p.tree rest := by
  have hlbrace : nextIn [.lbrace, .arrow] (p.accessorList.tokens ++ rest) = true := by
    simp [PropertyTerm.accessorList, nextIn, p.opening.2]
  have harrow : nextIs .arrow (p.accessorList.tokens ++ rest) = false := by
    simp [PropertyTerm.accessorList, nextIs, p.opening.2]
  have hsplit : us = Tree.tokensAll p.preamble.trees
      ++ (p.type.tree.tokens ++ p.name.1 :: (p.accessorList.tokens ++ rest)) := by
    rw [hus]
    simp [PropertyTerm.tree]
  refine member_typed p.type p.name p.preamble hsplit ?_
  intro vs hvs
  obtain ⟨r, named, -, -, hchildren, hnrest, htyped⟩ := typedShape_named p.type p.name
    (by simp [PropertyTerm.accessorList, Token.continuesName, p.opening.2]) hvs
  have hlist : Yields (accessorList named.rest) p.accessorList rest := by
    rw [hnrest]
    have hopening : p.accessorList.tokens ++ rest = p.opening.1
        :: (Tree.tokensAll (p.accessors.map (·.tree)) ++ p.closing.1 :: rest) := by
      simp [PropertyTerm.accessorList]
    obtain ⟨q, hq, hqtree, hqrest⟩ := yields_expect p.opening hopening
    rw [accessorList, hq]
    refine (accessors_reads p.accessors (r := .ofParsed q) hqrest).congr ?_
    rw [Begun.children_ofParsed, hqtree]
    rfl
  obtain ⟨s, hs, hschildren, hsrest⟩ := next_reads hlist
  have hshape : typedShape vs = .ok ⟨.property, s⟩ := by
    rw [htyped, if_neg (by simp [PropertyTerm.accessorList, nextIn, p.opening.2]), namedShape,
      if_neg (by simp [hnrest, PropertyTerm.accessorList, nextIn, p.opening.2]), hnrest,
      if_pos hlbrace, propertyShape, if_neg (by simp [hnrest, harrow])]
    simp only [hs, bind, Except.bind, hsrest, hends]
    rfl
  refine ⟨_, hshape, rfl, ?_, hsrest⟩
  show s.children = _
  rw [hschildren, hchildren]
  rfl

/-- Every property is read as one, with its type, name and modifiers and with the keyword and the
body of each accessor, whatever the name of the type around it. -/
theorem property_modelled (typeName : Option String) (p : PropertyTerm) {rest : List Token}
    (hrest : nextIs .equals rest = false) :
    ∃ q, member typeName (p.tokens ++ rest) = .ok q ∧ q.tree = p.tree ∧ q.rest = rest
      ∧ q.tree.kind? = some .property ∧ q.tree.type? = some p.type.tree
      ∧ q.tree.name = p.name.1.value
      ∧ q.tree.modifiers = p.preamble.modifiers.map (·.1.value)
      ∧ q.tree.accessors?.map (·.map fun a => (a.name, a.accessorBody?))
          = some (p.accessors.map fun a => (a.keyword.1.value, a.body.node?)) := by
  obtain ⟨q, hq, htree, hqrest⟩ := property_reads typeName p hrest rfl
  obtain ⟨hkind, htype, hname, hmodifiers, haccessors⟩ := p.views_tree
  refine ⟨q, hq, htree, hqrest, ?_⟩
  rw [htree, haccessors]
  refine ⟨hkind, htype, hname, hmodifiers, ?_⟩
  rw [Option.map_some, List.map_map]
  refine congrArg some (List.map_congr_left fun a _ => ?_)
  simp [AccessorTerm.name_tree, AccessorTerm.accessorBody?_tree]

theorem property_modelled_accessors :
    ∃ (p : PropertyTerm) (last : Token), p.tokens.map (·.value)
        = ["[", "A", "]", "public", "static", "List", "<", "int", ">", "P", "\x7b", "[", "B", "]",
          "private", "get", "\x7b", "return", ";", "\x7d", "set", "=>", "f", "(", ";", ")", ";",
          "\x7d"]
      ∧ nextIs .equals [last] = false
      ∧ ∃ q, member (some "List") (p.tokens ++ [last]) = .ok q ∧ q.tree = p.tree ∧ q.rest = [last]
        ∧ q.tree.kind? = some .property ∧ q.tree.type? = some p.type.tree
        ∧ q.tree.name = p.name.1.value
        ∧ q.tree.modifiers = p.preamble.modifiers.map (·.1.value)
        ∧ q.tree.accessors?.map (·.map fun a => (a.name, a.accessorBody?))
            = some (p.accessors.map fun a => (a.keyword.1.value, a.body.node?)) := by
  let word (value : String) : TokenOf .identifier := ⟨{ kind := .identifier, value }, rfl⟩
  let semicolon : TokenOf .semicolon := ⟨{ kind := .semicolon, value := ";" }, rfl⟩
  let list (value : String) : Enclosed .lbracket :=
    { first := { kind := .lbracket, value := "[" }, inner := [word value]
      last := { kind := .rbracket, value := "]" }
      opens := rfl, nested := nested_singleton rfl, closes := rfl }
  let arguments : ArgumentList := .mk ⟨{ kind := .lessThan, value := "<" }, rfl⟩
    (.last (.marked (.predefined ⟨{ kind := .keyword, value := "int" }, by decide⟩) []))
    ⟨{ kind := .greaterThan, value := ">" }, rfl⟩
  let type : MemberType :=
    { core := .name none (.last (.generic (word "List") arguments)), marks := []
      plain := by decide }
  let getter : AccessorTerm :=
    { preamble := ⟨[list "B"], [⟨{ kind := .keyword, value := "private" }, by decide⟩]⟩
      keyword := ⟨{ kind := .identifier, value := "get" }, rfl, by decide⟩
      body := .block
        { first := { kind := .lbrace, value := "\x7b" }
          inner := [{ kind := .keyword, value := "return" }, semicolon]
          last := { kind := .rbrace, value := "\x7d" }
          opens := rfl, nested := rfl, closes := rfl } }
  let call : Enclosed .lparen :=
    { first := { kind := .lparen, value := "(" }, inner := [semicolon]
      last := { kind := .rparen, value := ")" }
      opens := rfl, nested := rfl, closes := rfl }
  let setter : AccessorTerm :=
    { preamble := ⟨[], []⟩
      keyword := ⟨{ kind := .identifier, value := "set" }, rfl, by decide⟩
      body := .expression ⟨{ kind := .arrow, value := "=>" }, rfl⟩ ((word "f").1 :: call.tokens)
        rfl (.cons rfl rfl (call.passes rfl)) semicolon }
  let p : PropertyTerm :=
    { preamble := ⟨[list "A"], [⟨{ kind := .keyword, value := "public" }, by decide⟩,
        ⟨{ kind := .keyword, value := "static" }, by decide⟩]⟩
      type
      name := word "P"
      opening := ⟨{ kind := .lbrace, value := "\x7b" }, rfl⟩
      accessors := [getter, setter]
      closing := ⟨{ kind := .rbrace, value := "\x7d" }, rfl⟩ }
  exact ⟨p, { kind := .rbrace, value := "\x7d" }, by decide, by decide,
    property_modelled (some "List") p (by decide)⟩

end Grammar

end NullableMarker
