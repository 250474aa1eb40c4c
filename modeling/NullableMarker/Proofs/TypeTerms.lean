import NullableMarker.Proofs.EnclosedGroups

/-!
# Terms for types

The grammar of types, written as terms: `ref` before a type, or a keyword, a name or a tuple before
any number of marks. A term holds its tokens, so it has a tree. Reading the tokens of a term gives
that tree, unless what follows could go on the type: in particular no attempt at type arguments fails
inside a term.

* `TypeTerm` — types, with their tokens
* `TypeTerm.tree` — the tree of a type
* `Grammar.type_reads` — the tokens of a type are read as its tree
-/

namespace NullableMarker

/-! ## Terms -/

/-- A token of a kind. -/
abbrev TokenOf (kind : TokenKind) := { t : Token // t.kind = kind }

/-- One of some keywords. -/
abbrev KeywordOf (words : List String) := { t : Token // t.isKeyword words = true }

/-- A mark after a type. -/
inductive TypeMark where
  | question (mark : TokenOf .question)
  | array (opening : TokenOf .lbracket) (commas : List (TokenOf .comma))
      (closing : TokenOf .rbracket)
  | pointer (star : { t : Token // t.kind = .operator ∧ t.value = "*" })

/-- An identifier and `::` before a name. -/
structure AliasTerm where
  word : TokenOf .identifier
  mark : TokenOf .doubleColon

mutual

/-- A type. -/
inductive TypeTerm where
  | ref (word : KeywordOf ["ref"]) (readonly : Option (KeywordOf ["readonly"])) (type : TypeTerm)
  | marked (core : CoreTerm) (marks : List TypeMark)

/-- A type without marks: a keyword, a name, or a tuple of at least two elements. -/
inductive CoreTerm where
  | predefined (word : KeywordOf Grammar.predefinedTypes)
  | name (qualifier : Option AliasTerm) (segments : SegmentTerms)
  | tuple (opening : TokenOf .lparen) (type : TypeTerm) (name : Option (TokenOf .identifier))
      (comma : TokenOf .comma) (more : ElementTerms) (closing : TokenOf .rparen)

/-- Dotted segments of a name. -/
inductive SegmentTerms where
  | last (segment : SegmentTerm)
  | cons (segment : SegmentTerm) (dot : TokenOf .dot) (more : SegmentTerms)

/-- A segment of a name, with or without type arguments. -/
inductive SegmentTerm where
  | plain (word : TokenOf .identifier)
  | generic (word : TokenOf .identifier) (arguments : ArgumentList)

/-- Type arguments between angle brackets. -/
inductive ArgumentList where
  | mk (opening : TokenOf .lessThan) (arguments : ArgumentTerms) (closing : TokenOf .greaterThan)

/-- Type arguments with the commas between them. -/
inductive ArgumentTerms where
  | last (type : TypeTerm)
  | cons (type : TypeTerm) (comma : TokenOf .comma) (more : ArgumentTerms)

/-- Elements of a tuple with the commas between them. -/
inductive ElementTerms where
  | last (type : TypeTerm) (name : Option (TokenOf .identifier))
  | cons (type : TypeTerm) (name : Option (TokenOf .identifier)) (comma : TokenOf .comma)
      (more : ElementTerms)

end

/-! ## Trees of terms -/

/-- The tree of a type with a mark after it. -/
def TypeMark.mark (type : Tree) : TypeMark → Tree
  | question mark => .node .nullableType [type, .token mark]
  | array opening commas closing =>
    .node .arrayType (type :: .token opening :: (commas.map (.token ·.1) ++ [.token closing]))
  | pointer star => .node .pointerType [type, .token star]

/-- The tokens of a mark. -/
def TypeMark.tokens : TypeMark → List Token
  | question mark => [mark]
  | array opening commas closing => opening :: (commas.map (·.1) ++ [closing.1])
  | pointer star => [star]

/-- The tokens before a name as trees. -/
def AliasTerm.trees (q : AliasTerm) : List Tree := [.token q.word, .token q.mark]

/-- The tree of an element of a tuple. -/
def elementTree (type : Tree) (name : Option (TokenOf .identifier)) : Tree :=
  .node .tupleElement (type :: name.toList.map (.token ·.1))

mutual

/-- The tree of a type. -/
def TypeTerm.tree : TypeTerm → Tree
  | .ref word readonly type =>
    .node .refType (.token word :: (readonly.toList.map (.token ·.1) ++ [type.tree]))
  | .marked core marks => marks.foldl TypeMark.mark core.tree

/-- The tree of a type without marks. -/
def CoreTerm.tree : CoreTerm → Tree
  | .predefined word => .node .predefinedType [.token word]
  | .name qualifier segments =>
    .node .name ((qualifier.map AliasTerm.trees).getD [] ++ segments.trees)
  | .tuple opening type name comma more closing =>
    .node .tupleType (.token opening ::
      (elementTree type.tree name :: .token comma :: more.trees ++ [.token closing]))

/-- The parts of a name. -/
def SegmentTerms.trees : SegmentTerms → List Tree
  | .last segment => segment.trees
  | .cons segment dot more => segment.trees ++ .token dot :: more.trees

/-- The parts of a segment. -/
def SegmentTerm.trees : SegmentTerm → List Tree
  | .plain word => [.token word]
  | .generic word arguments => [.token word, arguments.tree]

/-- The tree of type arguments between angle brackets. -/
def ArgumentList.tree : ArgumentList → Tree
  | .mk opening arguments closing =>
    .node .typeArgumentList (.token opening :: (arguments.trees ++ [.token closing]))

/-- The trees of type arguments and of the commas between them. -/
def ArgumentTerms.trees : ArgumentTerms → List Tree
  | .last type => [type.tree]
  | .cons type comma more => type.tree :: .token comma :: more.trees

/-- The trees of elements and of the commas between them. -/
def ElementTerms.trees : ElementTerms → List Tree
  | .last type name => [elementTree type.tree name]
  | .cons type name comma more => elementTree type.tree name :: .token comma :: more.trees

end

/-- The tokens of a type. -/
def TypeTerm.tokens (t : TypeTerm) : List Token := t.tree.tokens

/-! ## What follows a type -/

/-- A token that could go on a name. -/
def Token.continuesName (t : Token) : Bool :=
  t.kind == .lessThan || t.kind == .dot || t.kind == .doubleColon

/-- A token that could go on a type. -/
def Token.continuesType (t : Token) : Bool :=
  t.continuesName || t.kind == .question || t.kind == .lbracket
    || (t.kind == .operator && t.value == "*")

theorem Token.not_continuesType {t : Token} {kind : TokenKind} (ht : t.kind = kind)
    (hkind : kind ∉ [TokenKind.lessThan, .dot, .doubleColon, .question, .lbracket, .operator]) :
    t.continuesType = false := by
  simp only [List.mem_cons, List.not_mem_nil, or_false, not_or] at hkind
  simp [continuesType, continuesName, ht, hkind]

theorem Token.continuesName_of_continuesType {t : Token} (h : t.continuesName = true) :
    t.continuesType = true := by
  simp [continuesType, h]

/-! ## Tokens of terms -/

theorem TypeMark.tokens_mark (type : Tree) (m : TypeMark) :
    (m.mark type).tokens = type.tokens ++ m.tokens := by
  cases m with
  | question mark => simp [TypeMark.mark, TypeMark.tokens]
  | pointer star => simp [TypeMark.mark, TypeMark.tokens]
  | array opening commas closing =>
    have hcommas : commas.map (fun c => Tree.token c.1) = (commas.map (·.1)).map .token := by simp
    simp [TypeMark.mark, TypeMark.tokens, hcommas, -List.map_map]

theorem TypeMark.tokens_marks (type : Tree) (marks : List TypeMark) :
    (marks.foldl TypeMark.mark type).tokens = type.tokens ++ marks.flatMap TypeMark.tokens := by
  induction marks generalizing type with
  | nil => simp
  | cons m marks ih =>
    rw [List.foldl_cons, ih, TypeMark.tokens_mark, List.flatMap_cons, List.append_assoc]

theorem tokens_elementTree (type : Tree) (name : Option (TokenOf .identifier)) :
    (elementTree type name).tokens = type.tokens ++ name.toList.map (·.1) := by
  cases name <;> simp [elementTree]

/-- A name starts with an identifier, which type arguments or a dot may follow. -/
theorem SegmentTerms.exists_word (s : SegmentTerms) : ∃ (word : TokenOf .identifier) (tail : _),
    Tree.tokensAll s.trees = word.1 :: tail
      ∧ tail.head?.all (fun t => t.kind == .lessThan || t.kind == .dot) = true := by
  cases s with
  | last segment =>
    cases segment with
    | plain word => exact ⟨word, [], by simp [SegmentTerms.trees, SegmentTerm.trees], rfl⟩
    | generic word list =>
      cases list with
      | mk opening arguments closing =>
        refine ⟨word, _, by simp [SegmentTerms.trees, SegmentTerm.trees, ArgumentList.tree]; rfl, ?_⟩
        simp [opening.2]
  | cons segment dot more =>
    cases segment with
    | plain word =>
      refine ⟨word, _, by simp [SegmentTerms.trees, SegmentTerm.trees]; rfl, ?_⟩
      simp [dot.2]
    | generic word list =>
      cases list with
      | mk opening arguments closing =>
        refine ⟨word, _, by simp [SegmentTerms.trees, SegmentTerm.trees, ArgumentList.tree]; rfl, ?_⟩
        simp [opening.2]

/-- A token that a type starts with, `ref` apart. -/
def Token.startsCore (t : Token) : Bool :=
  t.isKeyword Grammar.predefinedTypes || t.kind == .identifier || t.kind == .lparen

theorem Token.kind_of_isKeyword {t : Token} {words : List String} (h : t.isKeyword words = true) :
    t.kind = .keyword := by
  rw [isKeyword, Bool.and_eq_true, beq_iff_eq] at h
  exact h.1

/-- A keyword of one list is none of another. -/
theorem Token.isKeyword_eq_false {t : Token} {words words' : List String}
    (h : t.isKeyword words = true) (hwords : ∀ w ∈ words, w ∉ words') :
    t.isKeyword words' = false := by
  rw [isKeyword, Bool.and_eq_true, List.contains_iff_mem] at h
  simp [isKeyword, hwords t.value h.2]

/-- What a type starts with; an identifier is followed by what goes on the name. -/
theorem CoreTerm.exists_first (c : CoreTerm) : ∃ first tail, c.tree.tokens = first :: tail
    ∧ first.startsCore = true
    ∧ (first.kind = .identifier → tail.head?.all Token.continuesName = true) := by
  cases c with
  | predefined word =>
    exact ⟨word, [], by simp [CoreTerm.tree], by simp [Token.startsCore, word.2], fun _ => rfl⟩
  | name qualifier segments =>
    cases qualifier with
    | none =>
      obtain ⟨word, tail, hword, htail⟩ := segments.exists_word
      refine ⟨word, tail, by simp [CoreTerm.tree, hword], by simp [Token.startsCore, word.2], ?_⟩
      intro _
      cases tail with
      | nil => rfl
      | cons t tail =>
        have ht : t.kind = .lessThan ∨ t.kind = .dot := by simpa using htail
        rcases ht with ht | ht <;> simp [Token.continuesName, ht]
    | some q =>
      refine ⟨q.word, _, by simp [CoreTerm.tree, AliasTerm.trees]; rfl,
        by simp [Token.startsCore, q.word.2], ?_⟩
      simp [Token.continuesName, q.mark.2]
  | tuple opening type name comma more closing =>
    refine ⟨opening, _, by simp [CoreTerm.tree]; rfl, by simp [Token.startsCore, opening.2], ?_⟩
    intro hkind
    rw [opening.2] at hkind
    cases hkind

/-- A type starts with `ref` or as a type without marks does. -/
theorem TypeTerm.exists_first (t : TypeTerm) : ∃ first tail, t.tree.tokens = first :: tail
    ∧ (first.isKeyword ["ref"] || first.startsCore) = true := by
  cases t with
  | ref word readonly type =>
    exact ⟨word, _, by simp [TypeTerm.tree]; rfl, by simp [word.2]⟩
  | marked core marks =>
    obtain ⟨first, tail, hcore, hfirst, -⟩ := core.exists_first
    exact ⟨first, _, by rw [TypeTerm.tree, TypeMark.tokens_marks, hcore]; rfl, by simp [hfirst]⟩

namespace Grammar

variable {ts us rest : List Token}

/-- The outcome is a tree, with some tokens left. -/
def Yields (o : Except Failure (Parsed ts)) (tree : Tree) (rest : List Token) : Prop :=
  ∃ p, o = .ok p ∧ p.tree = tree ∧ p.rest = rest

theorem Yields.congr {o : Except Failure (Parsed ts)} {tree tree' : Tree} (h : Yields o tree rest)
    (htree : tree = tree') : Yields o tree' rest := htree ▸ h

theorem yields_expectThat {f : Token → Bool} {t : Token} (ht : f t = true) (hus : us = t :: rest) :
    Yields (expectThat f us) (.token t) rest := by
  subst hus
  exact ⟨.token t rest, by rw [expectThat, if_pos ht], rfl, rfl⟩

theorem yields_expect {kind : TokenKind} (t : TokenOf kind) (hus : us = t.1 :: rest) :
    Yields (expect kind us) (.token t) rest :=
  yields_expectThat (beq_iff_eq.mpr t.2) hus

theorem expectThat_mismatch {f : Token → Bool} (h : us.head?.any f = false) :
    expectThat f us = .error .mismatch := by
  cases us with
  | nil => rfl
  | cons t us => rw [expectThat, if_neg (by simpa using h)]

/-- A token that passes no test of a class passes no narrower one. -/
theorem head?_any_false {f g : Token → Bool} (h : us.head?.any g = false)
    (hfg : ∀ t, f t = true → g t = true) : us.head?.any f = false := by
  cases us with
  | nil => rfl
  | cons t us =>
    rw [List.head?_cons, Option.any_some] at h ⊢
    exact Bool.eq_false_iff.mpr fun ht => by rw [hfg t ht] at h; cases h

/-! ## Marks -/

/-- The brackets of an array mark. -/
def arrayBrackets (opening : TokenOf .lbracket) (commas : List (TokenOf .comma))
    (closing : TokenOf .rbracket) : Enclosed .lbracket where
  first := opening
  inner := commas.map (·.1)
  last := closing
  opens := opening.2
  nested := nested_of_forall fun t ht => by
    obtain ⟨comma, -, rfl⟩ := List.mem_map.mp ht
    rw [comma.2]
    rfl
  closes := by rw [closing.2]; rfl

theorem startsArrayMark_brackets {opening : TokenOf .lbracket} {commas : List (TokenOf .comma)}
    {closing : TokenOf .rbracket}
    (hus : us = (arrayBrackets opening commas closing).tokens ++ rest) :
    startsArrayMark us = true := by
  subst hus
  have hopening := opening.2
  cases commas with
  | nil =>
    have hclosing := closing.2
    simp [startsArrayMark, nextIs, nextIn, Enclosed.tokens, arrayBrackets, hopening, hclosing]
  | cons comma commas =>
    have hcomma := comma.2
    simp [startsArrayMark, nextIs, nextIn, Enclosed.tokens, arrayBrackets, hopening, hcomma]

/-- The marks after a type are read, up to a token that could not go on the type. -/
theorem typeMarks_reads (marks : List TypeMark) {p : Parsed ts}
    (hrest : p.rest = marks.flatMap TypeMark.tokens ++ rest)
    (hends : rest.head?.any Token.continuesType = false) :
    Yields (typeMarks p) (marks.foldl TypeMark.mark p.tree) rest := by
  induction marks generalizing p with
  | nil =>
    replace hrest : p.rest = rest := hrest
    have hnone : expect .question p.rest = .error .mismatch := expectThat_mismatch
      (by rw [hrest]; exact head?_any_false hends (by simp +contextual [Token.continuesType]))
    have hbracket : nextIs .lbracket p.rest = false := by
      rw [hrest]
      exact head?_any_false hends (by simp +contextual [Token.continuesType])
    have hstar : expectThat (fun t => t.kind == .operator && t.value == "*") p.rest
        = .error .mismatch := expectThat_mismatch
      (by rw [hrest]; exact head?_any_false hends (by simp +contextual [Token.continuesType]))
    rw [typeMarks.eq_def, hnone]
    simp only [startsArrayMark, hbracket, hstar]
    exact ⟨p, rfl, rfl, hrest⟩
  | cons mark marks ih =>
    cases mark with
    | question mark =>
      obtain ⟨q, hq, htree, hqrest⟩ := yields_expect mark hrest
      rw [typeMarks.eq_def, hq]
      refine (ih (p := ((Begun.ofParsed p).add q).finish .nullableType) hqrest).congr ?_
      show marks.foldl TypeMark.mark (.node .nullableType [p.tree, q.tree]) = _
      rw [htree]
      rfl
    | array opening commas closing =>
      have hbrackets : p.rest = (arrayBrackets opening commas closing).tokens
          ++ (marks.flatMap TypeMark.tokens ++ rest) := by
        rw [hrest]
        simp [TypeMark.tokens, Enclosed.tokens, arrayBrackets]
      have hnone : expect .question p.rest = .error .mismatch := expectThat_mismatch
        (by rw [hrest]; simp [TypeMark.tokens, opening.2])
      obtain ⟨g, hg, htaken, hgrest⟩ := balanced_enclosed _ hbrackets
      rw [typeMarks.eq_def, hnone]
      simp only [startsArrayMark_brackets hbrackets, hg, if_true]
      refine (ih (p := ((Begun.ofParsed p).extend (.ofRun g.toRun)).finish .arrayType)
        hgrest).congr ?_
      show marks.foldl TypeMark.mark (.node .arrayType (p.tree :: g.taken.map .token)) = _
      rw [htaken]
      simp [Enclosed.tokens, arrayBrackets, TypeMark.mark]
    | pointer star =>
      have hnone : expect .question p.rest = .error .mismatch := expectThat_mismatch
        (by rw [hrest]; simp [TypeMark.tokens, star.2.1])
      have hbracket : nextIs .lbracket p.rest = false := by
        rw [hrest]
        simp [nextIs, TypeMark.tokens, star.2.1]
      obtain ⟨q, hq, htree, hqrest⟩ := yields_expectThat
        (f := fun t => t.kind == .operator && t.value == "*") (t := star) (by simp [star.2]) hrest
      rw [typeMarks.eq_def, hnone]
      simp only [startsArrayMark, hbracket, hq]
      refine (ih (p := ((Begun.ofParsed p).add q).finish .pointerType) hqrest).congr ?_
      show marks.foldl TypeMark.mark (.node .pointerType [p.tree, q.tree]) = _
      rw [htree]
      rfl

/-! ## Names, tuples and type arguments -/

/-- An optional token is taken if it is there. -/
theorem optional_reads {P : Token → Prop} {f : Token → Bool} (hf : ∀ t, P t → f t = true)
    {r : Begun ts} (o : Option { t : Token // P t }) (hrest : r.rest = o.toList.map (·.1) ++ rest)
    (hnext : rest.head?.any f = false) :
    (r.optional f).children = r.children ++ o.toList.map (.token ·.1)
      ∧ (r.optional f).rest = rest := by
  have htaken : ∀ us, us = o.toList.map (·.1) ++ rest →
      (Run.optional f us).taken = o.toList.map (·.1) ∧ (Run.optional f us).rest = rest := by
    rintro us rfl
    cases o with
    | some t =>
      rw [Option.toList_some, List.map_singleton, List.singleton_append, Run.optional,
        if_pos (hf t t.2)]
      exact ⟨rfl, rfl⟩
    | none =>
      rw [Option.toList_none, List.map_nil, List.nil_append]
      cases rest with
      | nil => exact ⟨rfl, rfl⟩
      | cons t rest =>
        rw [Run.optional, if_neg (by simpa using hnext)]
        exact ⟨rfl, rfl⟩
  obtain ⟨htaken, hleft⟩ := htaken r.rest hrest
  refine ⟨?_, hleft⟩
  show r.children ++ (Run.optional f r.rest).taken.map .token = _
  rw [htaken, List.map_map]
  rfl

theorem aliasQualifier_reads (qualifier : Option AliasTerm) {word : TokenOf .identifier}
    (hus : us = Tree.tokensAll ((qualifier.map AliasTerm.trees).getD []) ++ word.1 :: rest)
    (hnext : nextIs .doubleColon rest = false) :
    (aliasQualifier us).children = (qualifier.map AliasTerm.trees).getD []
      ∧ (aliasQualifier us).rest = word.1 :: rest := by
  cases qualifier with
  | some q =>
    obtain rfl : us = q.word.1 :: q.mark.1 :: word.1 :: rest := by
      rw [hus]
      simp [AliasTerm.trees]
    rw [aliasQualifier, if_pos (by simp [q.word.2, q.mark.2])]
    exact ⟨rfl, rfl⟩
  | none =>
    obtain rfl : us = word.1 :: rest := by
      rw [hus]
      simp
    cases rest with
    | nil => exact ⟨rfl, rfl⟩
    | cons u rest =>
      have hu : (u.kind == .doubleColon) = false := by simpa [nextIs] using hnext
      rw [aliasQualifier, if_neg (by simp [hu])]
      exact ⟨rfl, rfl⟩

section Elements

variable {r : Begun ts} {tree : Tree} {name : Option (TokenOf .identifier)}

/-- An element of a tuple, up to what follows it. -/
theorem tupleElement_reads (hnext : nextIs .identifier rest = false)
    (htype : Yields (type r.rest) tree (name.toList.map (·.1) ++ rest)) :
    ∃ (p : Parsed r.rest) (s : Begun ts), type r.rest = .ok p
      ∧ s = r.add (((Begun.ofParsed p).optional (·.kind == .identifier)).finish .tupleElement)
      ∧ s.children = r.children ++ [elementTree tree name] ∧ s.rest = rest := by
  obtain ⟨p, hp, htree, hrest⟩ := htype
  obtain ⟨hchildren, hleft⟩ := optional_reads (f := (·.kind == .identifier))
    (r := Begun.ofParsed p) (fun t ht => beq_iff_eq.mpr ht) name hrest hnext
  refine ⟨p, _, hp, rfl, ?_, hleft⟩
  rw [Begun.children_add, Begun.tree_finish, hchildren, Begun.children_ofParsed, htree]
  rfl

/-- An element of a tuple before a comma. -/
theorem tupleElements_comma {comma : TokenOf .comma}
    (htype : Yields (type r.rest) tree (name.toList.map (·.1) ++ comma.1 :: rest)) (count : Nat) :
    ∃ s : Begun ts, tupleElements r count = tupleElements s (count + 1)
      ∧ s.children = r.children ++ [elementTree tree name, .token comma] ∧ s.rest = rest := by
  obtain ⟨p, s, hp, hs, hchildren, hrest⟩ := tupleElement_reads (by simp [nextIs, comma.2]) htype
  obtain ⟨q, hq, hqtree, hqrest⟩ := yields_expect comma hrest
  subst hs
  rw [tupleElements, hp]
  simp only [hq]
  refine ⟨_, rfl, ?_, hqrest⟩
  rw [Begun.children_add, hchildren, hqtree, List.append_assoc]
  rfl

/-- The last element of a tuple, after at least one other. -/
theorem tupleElements_last {closing : TokenOf .rparen}
    (htype : Yields (type r.rest) tree (name.toList.map (·.1) ++ closing.1 :: rest)) {count : Nat}
    (hcount : count ≠ 0) : Yields (tupleElements r count)
      (.node .tupleType (r.children ++ [elementTree tree name, .token closing])) rest := by
  obtain ⟨p, s, hp, hs, hchildren, hrest⟩ :=
    tupleElement_reads (by simp [nextIs, closing.2]) htype
  have hcomma : expectThat (·.kind == .comma) s.rest = .error .mismatch :=
    expectThat_mismatch (by rw [hrest]; simp [closing.2])
  obtain ⟨q, hq, hqtree, hqrest⟩ := yields_expect closing hrest
  subst hs
  rw [tupleElements, hp]
  simp only [expect] at hq ⊢
  simp only [hcomma, hq, hcount]
  refine ⟨_, rfl, ?_, hqrest⟩
  rw [Begun.tree_finish, Begun.children_add, hchildren, hqtree, List.append_assoc]
  rfl

end Elements

/-- The segments of a name end before a token that could not go on a name. -/
theorem nameTail_last {r : Begun ts} (hrest : r.rest = rest)
    (hends : rest.head?.any Token.continuesName = false) :
    Yields (nameTail r none) (.node .name r.children) rest := by
  have hdot : segmentDot r.rest = .error .mismatch := by
    unfold segmentDot
    split
    · rw [hrest]
      exact expectThat_mismatch (head?_any_false hends (by simp +contextual [Token.continuesName]))
    · rfl
  rw [nameTail, hdot]
  exact ⟨r.finish .name, rfl, rfl, hrest⟩

/-- The segments of a name go on after a dot and an identifier. -/
theorem nameTail_dot {r : Begun ts} {dot : TokenOf .dot} (hrest : r.rest = dot.1 :: rest)
    (hnext : nextIs .identifier rest = true) :
    ∃ s : Begun ts, nameTail r none = nameSegments s.toReading none
      ∧ s.children = r.children ++ [.token dot] ∧ s.rest = rest := by
  obtain ⟨q, hq, hqtree, hqrest⟩ := yields_expect dot hrest
  have hdot : segmentDot r.rest = .ok q := by
    rw [segmentDot, if_pos (by rw [hrest]; exact hnext), hq]
  refine ⟨r.add q, ?_, ?_, hqrest⟩
  · rw [nameTail, hdot]
    rfl
  · rw [Begun.children_add, hqtree]

/-- Whether or not a name follows, an element ends before a comma or a closer. -/
theorem element_ends (name : Option (TokenOf .identifier)) {t : Token} {kind : TokenKind}
    (ht : t.kind = kind)
    (hkind : kind ∉ [TokenKind.lessThan, .dot, .doubleColon, .question, .lbracket, .operator]) :
    (name.toList.map (·.1) ++ t :: rest).head?.any Token.continuesType = false := by
  cases name with
  | none => exact Token.not_continuesType ht hkind
  | some word => exact Token.not_continuesType word.2 (by decide)

theorem not_readonly_of_startsType {t : Token}
    (h : (t.isKeyword ["ref"] || t.startsCore) = true) : t.isKeyword ["readonly"] = false := by
  simp only [Token.startsCore, Bool.or_eq_true, beq_iff_eq] at h
  rcases h with h | (h | h) | h
  · exact Token.isKeyword_eq_false h (by decide)
  · exact Token.isKeyword_eq_false h (by decide)
  · simp [Token.isKeyword, h]
  · simp [Token.isKeyword, h]

/-- Marks do not go on a name. -/
theorem marks_end (marks : List TypeMark) (hends : rest.head?.any Token.continuesType = false) :
    (marks.flatMap TypeMark.tokens ++ rest).head?.any Token.continuesName = false := by
  cases marks with
  | nil => exact head?_any_false hends fun t => Token.continuesName_of_continuesType
  | cons mark marks =>
    cases mark with
    | question mark => simp [TypeMark.tokens, Token.continuesName, mark.2]
    | array opening commas closing => simp [TypeMark.tokens, Token.continuesName, opening.2]
    | pointer star => simp [TypeMark.tokens, Token.continuesName, star.2.1]

mutual

/-- The tokens of a type are read as its tree. -/
theorem type_reads : (t : TypeTerm) → {us rest : List Token} → us = t.tree.tokens ++ rest →
    rest.head?.any Token.continuesType = false → Yields (type us) t.tree rest
  | .ref word readonly t, us, rest, hus, hends => by
    obtain rfl : us = word.1 :: (readonly.toList.map (·.1) ++ (t.tree.tokens ++ rest)) := by
      rw [hus]
      cases readonly <;> simp [TypeTerm.tree]
    obtain ⟨first, tail, hfirst, hstarts⟩ := t.exists_first
    have hnext : (t.tree.tokens ++ rest).head?.any (·.isKeyword ["readonly"]) = false := by
      rw [hfirst]
      exact not_readonly_of_startsType hstarts
    obtain ⟨hchildren, hrest⟩ := optional_reads (r := Begun.token word.1 _)
      (f := (·.isKeyword ["readonly"])) (fun u hu => hu) readonly rfl hnext
    obtain ⟨p, hp, htree, hprest⟩ := type_reads t hrest hends
    rw [type, if_pos word.2]
    simp only [hp]
    refine ⟨_, rfl, ?_, hprest⟩
    rw [Begun.tree_finish, Begun.children_add, hchildren, htree, Begun.children_token]
    simp [TypeTerm.tree]
  | .marked core marks, us, rest, hus, hends => by
    rw [TypeTerm.tree, TypeMark.tokens_marks, List.append_assoc] at hus
    obtain ⟨p, hp, htree, hrest⟩ := core_reads core hus (marks_end marks hends)
    rw [hp, TypeTerm.tree, ← htree]
    exact typeMarks_reads marks hrest hends

/-- The tokens of a type without marks are read up to its marks. -/
theorem core_reads : (c : CoreTerm) → {us rest : List Token} → us = c.tree.tokens ++ rest →
    rest.head?.any Token.continuesName = false →
    ∃ p : Parsed us, type us = typeMarks p ∧ p.tree = c.tree ∧ p.rest = rest
  | .predefined word, us, rest, hus, hends => by
    obtain rfl : us = word.1 :: rest := by rw [hus]; simp [CoreTerm.tree]
    have href : word.1.isKeyword ["ref"] = false := Token.isKeyword_eq_false word.2 (by decide)
    have hkind := Token.kind_of_isKeyword word.2
    refine ⟨(Begun.token word.1 rest).finish .predefinedType, ?_, rfl, rfl⟩
    rw [type, if_neg (by simp [href]), if_neg (by simp [hkind]), if_pos word.2]
  | .name qualifier segments, us, rest, hus, hends => by
    obtain ⟨word, tail, hword, htail⟩ := segments.exists_word
    have hsplit : us = Tree.tokensAll ((qualifier.map AliasTerm.trees).getD [])
        ++ word.1 :: (tail ++ rest) := by
      rw [hus, CoreTerm.tree, Tree.tokens_node, Tree.tokensAll_append, hword]
      simp
    have hnext : nextIs .doubleColon (tail ++ rest) = false := by
      cases tail with
      | nil => exact head?_any_false hends (by simp +contextual [Token.continuesName])
      | cons t tail =>
        have ht : t.kind = .lessThan ∨ t.kind = .dot := by simpa using htail
        rcases ht with ht | ht <;> simp [nextIs, ht]
    obtain ⟨hchildren, hrest⟩ := aliasQualifier_reads qualifier hsplit hnext
    obtain ⟨p, hp, htree, hprest⟩ := segments_reads segments (r := aliasQualifier us)
      (by rw [hrest, hword]; rfl) hends
    refine ⟨p, ?_, ?_, hprest⟩
    · obtain ⟨first, us', rfl, hfirst⟩ : ∃ first us', us = first :: us'
          ∧ first.kind = .identifier := by
        cases qualifier with
        | none => exact ⟨_, _, hsplit, word.2⟩
        | some q => exact ⟨_, _, hsplit, q.word.2⟩
      rw [type, if_neg (by simp [Token.isKeyword, hfirst]), if_neg (by simp [hfirst]),
        if_neg (by simp [Token.isKeyword, hfirst]), if_pos (by simp [hfirst]), hp]
    · rw [htree, hchildren]
      rfl
  | .tuple opening type name comma more closing, us, rest, hus, hends => by
    obtain ⟨us', rfl⟩ : ∃ us', us = opening.1 :: us' := ⟨_, by rw [hus]; simp [CoreTerm.tree]; rfl⟩
    have hfirst : (Begun.token opening.1 us').rest = type.tree.tokens ++ (name.toList.map (·.1)
        ++ comma.1 :: (Tree.tokensAll more.trees ++ closing.1 :: rest)) := by
      rw [CoreTerm.tree, Tree.tokens_node, Tree.tokensAll_cons, Tree.tokens_token] at hus
      obtain ⟨-, hus⟩ := List.cons.inj hus
      refine hus.trans ?_
      simp [tokens_elementTree]
    have htype := type_reads type hfirst (element_ends name comma.2 (by decide))
    obtain ⟨s, hs, hchildren, hsrest⟩ := tupleElements_comma htype 0
    obtain ⟨p, hp, htree, hprest⟩ := elements_reads more (Nat.succ_ne_zero 0) hsrest
    refine ⟨p, ?_, ?_, hprest⟩
    · rw [Grammar.type, if_neg (by simp [Token.isKeyword, opening.2]), if_pos (by simp [opening.2]),
        hs, hp]
    · rw [htree, hchildren]
      simp [CoreTerm.tree]

/-- The tokens of dotted segments are read as a name. -/
theorem segments_reads : (s : SegmentTerms) → {ts rest : List Token} → {r : Reading ts} →
    r.rest = Tree.tokensAll s.trees ++ rest → rest.head?.any Token.continuesName = false →
    Yields (nameSegments r none) (.node .name (r.children ++ s.trees)) rest
  | .last segment, ts, rest, r, hrest, hends => by
    obtain ⟨b, hb, hchildren, hbrest⟩ := segment_reads segment hrest
      (head?_any_false hends (by simp +contextual [Token.continuesName]))
    rw [hb]
    refine (nameTail_last hbrest hends).congr ?_
    rw [hchildren, SegmentTerms.trees]
  | .cons segment dot more, ts, rest, r, hrest, hends => by
    rw [SegmentTerms.trees, Tree.tokensAll_append, List.append_assoc, Tree.tokensAll_cons,
      Tree.tokens_token] at hrest
    obtain ⟨b, hb, hchildren, hbrest⟩ := segment_reads segment hrest (by simp [nextIs, dot.2])
    obtain ⟨word, tail, hword, -⟩ := more.exists_word
    obtain ⟨s, hs, hschildren, hsrest⟩ := nameTail_dot hbrest
      (by rw [hword]; simp [nextIs, word.2])
    rw [hb, hs]
    refine (segments_reads more hsrest hends).congr ?_
    rw [hschildren, hchildren, SegmentTerms.trees]
    simp

theorem segment_reads : (s : SegmentTerm) → {ts rest : List Token} → {r : Reading ts} →
    r.rest = Tree.tokensAll s.trees ++ rest → nextIs .lessThan rest = false →
    ∃ b : Begun ts, nameSegments r none = nameTail b none ∧ b.children = r.children ++ s.trees
      ∧ b.rest = rest
  | .plain word, ts, rest, r, hrest, hnext => by
    have hword : r.rest = word.1 :: rest := by rw [hrest]; simp [SegmentTerm.trees]
    obtain ⟨p, hp, htree, hprest⟩ := yields_expect word hword
    have hnone : typeArgumentList p.rest = .error .mismatch := by
      rw [typeArgumentList, show expect .lessThan p.rest = _ from
        expectThat_mismatch (by rw [hprest]; exact hnext)]
    refine ⟨r.add p, ?_, ?_, hprest⟩
    · rw [nameSegments, hp]
      simp only [hnone]
    · rw [Reading.children_add, htree]
      rfl
  | .generic word list, ts, rest, r, hrest, hnext => by
    have hword : r.rest = word.1 :: (list.tree.tokens ++ rest) := by
      rw [hrest]
      simp [SegmentTerm.trees]
    obtain ⟨p, hp, htree, hprest⟩ := yields_expect word hword
    obtain ⟨q, hq, hqtree, hqrest⟩ := argumentList_reads list hprest
    refine ⟨(r.add p).add q, ?_, ?_, hqrest⟩
    · rw [nameSegments, hp]
      simp only [hq]
    · rw [Reading.children_add_add, htree, hqtree]
      rfl

/-- The tokens of type arguments between angle brackets are read as a list of them. -/
theorem argumentList_reads : (l : ArgumentList) → {us rest : List Token} →
    us = l.tree.tokens ++ rest → Yields (typeArgumentList us) l.tree rest
  | .mk opening arguments closing, us, rest, hus => by
    have hopening : us = opening.1 :: (Tree.tokensAll arguments.trees ++ closing.1 :: rest) := by
      rw [hus]
      simp [ArgumentList.tree]
    obtain ⟨p, hp, htree, hprest⟩ := yields_expect opening hopening
    rw [typeArgumentList, hp]
    refine (arguments_reads arguments (r := .ofParsed p) hprest).congr ?_
    rw [Begun.children_ofParsed, htree]
    rfl

theorem arguments_reads : (as : ArgumentTerms) → {ts rest : List Token} → {r : Begun ts} →
    {closing : TokenOf .greaterThan} → r.rest = Tree.tokensAll as.trees ++ closing.1 :: rest →
    Yields (typeArguments r)
      (.node .typeArgumentList (r.children ++ as.trees ++ [.token closing])) rest
  | .last type, ts, rest, r, closing, hrest => by
    have htype : r.rest = type.tree.tokens ++ closing.1 :: rest := by
      rw [hrest]
      simp [ArgumentTerms.trees]
    obtain ⟨p, hp, htree, hprest⟩ :=
      type_reads type htype (Token.not_continuesType closing.2 (by decide))
    have hcomma : expectThat (·.kind == .comma) p.rest = .error .mismatch :=
      expectThat_mismatch (by rw [hprest]; simp [closing.2])
    obtain ⟨q, hq, hqtree, hqrest⟩ := yields_expect closing hprest
    rw [typeArguments, hp]
    simp only [expect] at hq ⊢
    simp only [hcomma, hq]
    refine ⟨_, rfl, ?_, hqrest⟩
    rw [Begun.tree_finish, Begun.children_add_add, htree, hqtree]
    simp [ArgumentTerms.trees]
  | .cons type comma more, ts, rest, r, closing, hrest => by
    have htype : r.rest = type.tree.tokens
        ++ comma.1 :: (Tree.tokensAll more.trees ++ closing.1 :: rest) := by
      rw [hrest]
      simp [ArgumentTerms.trees]
    obtain ⟨p, hp, htree, hprest⟩ :=
      type_reads type htype (Token.not_continuesType comma.2 (by decide))
    obtain ⟨q, hq, hqtree, hqrest⟩ := yields_expect comma hprest
    rw [typeArguments, hp]
    simp only [hq]
    refine (arguments_reads more (r := (r.add p).add q) hqrest).congr ?_
    rw [Begun.children_add_add, htree, hqtree]
    simp [ArgumentTerms.trees]

theorem elements_reads : (es : ElementTerms) → {ts rest : List Token} → {r : Begun ts} →
    {closing : TokenOf .rparen} → {count : Nat} → count ≠ 0 →
    r.rest = Tree.tokensAll es.trees ++ closing.1 :: rest →
    Yields (tupleElements r count)
      (.node .tupleType (r.children ++ es.trees ++ [.token closing])) rest
  | .last type name, ts, rest, r, closing, count, hcount, hrest => by
    have hlast : r.rest = type.tree.tokens
        ++ (name.toList.map (·.1) ++ closing.1 :: rest) := by
      rw [hrest, ElementTerms.trees, Tree.tokensAll_cons, tokens_elementTree]
      simp
    have htype := type_reads type hlast (element_ends name closing.2 (by decide))
    refine (tupleElements_last htype hcount).congr ?_
    simp [ElementTerms.trees]
  | .cons type name comma more, ts, rest, r, closing, count, hcount, hrest => by
    have hfirst : r.rest = type.tree.tokens ++ (name.toList.map (·.1)
        ++ comma.1 :: (Tree.tokensAll more.trees ++ closing.1 :: rest)) := by
      rw [hrest, ElementTerms.trees, Tree.tokensAll_cons, tokens_elementTree]
      simp
    have htype := type_reads type hfirst (element_ends name comma.2 (by decide))
    obtain ⟨s, hs, hchildren, hsrest⟩ := tupleElements_comma htype count
    rw [hs]
    refine (elements_reads more (Nat.succ_ne_zero count) hsrest).congr ?_
    simp [ElementTerms.trees, hchildren]

end

/-- Where no token follows that could go on a type, reading takes exactly the tokens of the type and
gives its tree. -/
theorem type_complete (t : TypeTerm) {rest : List Token}
    (hrest : rest.head?.any Token.continuesType = false) :
    ∃ p, type (t.tokens ++ rest) = .ok p ∧ p.tree = t.tree ∧ p.rest = rest :=
  type_reads t rfl hrest

theorem type_complete_nested :
    ∃ (t : TypeTerm) (last : Token), t.tokens.map (·.value)
        = ["ref", "readonly", "g", "::", "A", "<", "int", "[", ",", "]", ",", "(", "B", "b", ",",
          "C", "*", ")", ">", ".", "D", "?"]
      ∧ ∃ p, type (t.tokens ++ [last]) = .ok p ∧ p.tree = t.tree ∧ p.rest = [last] := by
  let word (value : String) : TokenOf .identifier := ⟨{ kind := .identifier, value }, rfl⟩
  let comma : TokenOf .comma := ⟨{ kind := .comma, value := "," }, rfl⟩
  let array : TypeMark := .array ⟨{ kind := .lbracket, value := "[" }, rfl⟩ [comma]
    ⟨{ kind := .rbracket, value := "]" }, rfl⟩
  let named (value : String) : CoreTerm := .name none (.last (.plain (word value)))
  let tuple : CoreTerm := .tuple ⟨{ kind := .lparen, value := "(" }, rfl⟩
    (.marked (named "B") []) (some (word "b")) comma
    (.last (.marked (named "C") [.pointer ⟨{ kind := .operator, value := "*" }, rfl, rfl⟩]) none)
    ⟨{ kind := .rparen, value := ")" }, rfl⟩
  let arguments : ArgumentList := .mk ⟨{ kind := .lessThan, value := "<" }, rfl⟩
    (.cons (.marked (.predefined ⟨{ kind := .keyword, value := "int" }, by decide⟩) [array]) comma
      (.last (.marked tuple [])))
    ⟨{ kind := .greaterThan, value := ">" }, rfl⟩
  let name : CoreTerm := .name
    (some ⟨word "g", ⟨{ kind := .doubleColon, value := "::" }, rfl⟩⟩)
    (.cons (.generic (word "A") arguments) ⟨{ kind := .dot, value := "." }, rfl⟩
      (.last (.plain (word "D"))))
  refine ⟨.ref ⟨{ kind := .keyword, value := "ref" }, by decide⟩
      (some ⟨{ kind := .keyword, value := "readonly" }, by decide⟩)
      (.marked name [.question ⟨{ kind := .question, value := "?" }, rfl⟩]),
    { kind := .semicolon, value := ";" }, by decide, type_complete _ (by decide)⟩

end Grammar

end NullableMarker
