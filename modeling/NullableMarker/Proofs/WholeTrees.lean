import NullableMarker.Proofs.NodeParts

/-!
# Whole members and units

All readers of members and units give trees whose nodes have their parts, and a skipped construct
holds no node that could lack one.

* `Grammar.member_whole` — members, skipped ones included
* `Grammar.namespaceDeclaration_whole` — namespaces
* `TokenStream.toUnit_whole` — units
-/

namespace NullableMarker.Grammar

open NullableMarker.Tree

/-! ## Groups and preambles -/

theorem attributeListsAfter_whole {ts : List Token} {r s : Reading ts}
    (hr : ∀ c ∈ r.children, c.Whole) (h : attributeListsAfter r = .ok s) :
    ∀ c ∈ s.children, c.Whole := by
  fun_induction attributeListsAfter r with
  | case1 => cases h
  | case2 r _ g hg ih => exact ih (forall_mem_add hr _ (whole_ofGroup rfl g)) h
  | case3 => cases h; exact hr

theorem preamble_whole {p : Token → List Token → Bool} {ts : List Token} {r : Reading ts}
    (h : preamble p ts = .ok r) : ∀ c ∈ r.children, c.Whole := by
  obtain ⟨s, hs, rfl⟩ := ok_of_map h
  intro c hc
  rcases List.mem_append.mp hc with hc | hc
  · exact attributeListsAfter_whole (by simp [Reading.start]) hs c hc
  · rw [List.mem_singleton.mp hc]
    exact whole_of_needsParts rfl (by simp)

theorem skipped_whole : Reads Whole skipped := by
  intro ts p h
  obtain ⟨g, -, rfl⟩ := ok_of_map h
  exact whole_ofGroup rfl g

/-! ## Parts of members -/

theorem typeParameterList_whole : Reads Whole typeParameterList := by
  intro ts p h
  unfold typeParameterList at h
  split at h
  · cases h
  · obtain ⟨g, -, rfl⟩ := ok_of_map h
    exact whole_ofGroup rfl _

theorem constraintClause_whole : Reads Whole constraintClause := by
  intro ts p h
  unfold constraintClause at h
  split at h
  · cases h
  · obtain ⟨g, -, rfl⟩ := ok_of_map h
    exact whole_ofGroup rfl _

theorem constraintClauses_whole {ts : List Token} {r s : Begun ts}
    (h : constraintClauses r = .ok s) : r.Adds Whole s := by
  fun_induction constraintClauses r with
  | case1 => cases h
  | case2 r _ p hp ih => exact (r.adds_add p (constraintClause_whole _ _ hp)).trans (ih h)
  | case3 => cases h; exact .refl _

theorem body_whole : Reads Whole body := by
  intro ts p h
  unfold body at h
  split at h
  · cases h
  · split at h
    · obtain ⟨g, -, rfl⟩ := ok_of_map h
      exact whole_ofGroup rfl g
    · split at h
      · obtain ⟨g, -, rfl⟩ := ok_of_map h
        exact whole_ofGroup rfl g
      · exact reads_token _ _ _ h

theorem equalsValue_whole (stop : Token → List Token → Bool) : Reads Whole (equalsValue stop) := by
  intro ts p h
  unfold equalsValue at h
  split at h
  · cases h
  · obtain ⟨g, -, rfl⟩ := ok_of_map h
    exact whole_ofGroup rfl _

theorem ofParsed_whole {ts : List Token} {f : Token → Bool} {p : Parsed ts}
    (h : expectThat f ts = .ok p) : ∀ c ∈ (Begun.ofParsed p).children, c.Whole := by
  simpa using reads_token _ _ _ h

theorem accessor_whole : Reads Whole accessor := by
  intro ts p h
  obtain ⟨r, hr, h⟩ := ok_of_bind h
  obtain ⟨q, hq, h⟩ := ok_of_bind h
  obtain ⟨s, hs, h⟩ := ok_of_bind h
  cases h
  refine whole_of_needsParts rfl ((Begun.adds_next body_whole hs).forall_mem ?_)
  exact forall_mem_add (preamble_whole hr) q (reads_token _ _ _ hq)

theorem accessors_whole {ts : List Token} {r : Begun ts} {p : Parsed ts}
    (hr : ∀ c ∈ r.children, c.Whole) (h : accessors r = .ok p) : p.tree.Whole := by
  fun_induction accessors r with
  | case1 r last hlast =>
    cases h
    exact whole_of_needsParts rfl (forall_mem_add hr last (reads_token _ _ _ hlast))
  | case2 => cases h
  | case3 r _ _ q hq ih => exact ih (forall_mem_add hr q (accessor_whole _ _ hq)) h

theorem accessorList_whole : Reads Whole accessorList := by
  intro ts p h
  unfold accessorList at h
  split at h
  · cases h
  · next opening hopening => exact accessors_whole (ofParsed_whole hopening) h

theorem baseTypes_whole {ts : List Token} {r : Begun ts} {p : Parsed ts}
    (hr : ∀ c ∈ r.children, c.Whole) (h : baseTypes r = .ok p) : p.tree.Whole := by
  fun_induction baseTypes r with
  | case1 => cases h
  | case2 => cases h
  | case3 r q hq named _ g hg built comma hcomma ih =>
    have hnamed := forall_mem_add hr q (type_whole hq)
    have hbuilt := forall_mem_add hnamed (.ofGroup .skipped g) (whole_ofGroup rfl g)
    exact ih (forall_mem_add hbuilt comma (reads_token _ _ _ hcomma)) h
  | case4 r q hq named _ g hg built _ _ =>
    cases h
    have hnamed := forall_mem_add hr q (type_whole hq)
    exact whole_of_needsParts rfl
      (forall_mem_add hnamed (.ofGroup .skipped g) (whole_ofGroup rfl g))
  | case5 r q hq named _ comma hcomma ih =>
    have hnamed := forall_mem_add hr q (type_whole hq)
    exact ih (forall_mem_add hnamed comma (reads_token _ _ _ hcomma)) h
  | case6 r q hq named _ _ _ =>
    cases h
    exact whole_of_needsParts rfl (forall_mem_add hr q (type_whole hq))

theorem baseList_whole : Reads Whole baseList := by
  intro ts p h
  unfold baseList at h
  split at h
  · cases h
  · next colon hcolon => exact baseTypes_whole (ofParsed_whole hcolon) h

/-! ## Parameters and fields -/

theorem parameter_whole (closing : TokenKind) : Reads Whole (parameter closing) := by
  intro ts p h
  obtain ⟨r, hr, h⟩ := ok_of_bind h
  have hpre := preamble_whole hr
  split at h
  · obtain ⟨q, hq, h⟩ := ok_of_bind h
    cases h
    exact whole_of_needsParts rfl (forall_mem_add hpre q (reads_token _ _ _ hq))
  · obtain ⟨q, hq, h⟩ := ok_of_bind h
    obtain ⟨named, hnamed, h⟩ := ok_of_bind h
    obtain ⟨s, hs, h⟩ := ok_of_bind h
    cases h
    have hadds := (Begun.adds_next (reads_token _) hnamed).trans
      (Begun.adds_nextIf (equalsValue_whole _) hs)
    exact whole_of_needsParts rfl (hadds.forall_mem (forall_mem_add hpre q (type_whole hq)))

theorem parameters_whole {closing : TokenKind} {ts : List Token} {r : Begun ts} {p : Parsed ts}
    (hr : ∀ c ∈ r.children, c.Whole) (h : parameters closing r = .ok p) : p.tree.Whole := by
  fun_induction parameters closing r with
  | case1 => cases h
  | case2 r q hq comma hcomma ih =>
    have hmore := forall_mem_add hr q (parameter_whole _ _ _ hq)
    exact ih (forall_mem_add hmore comma (reads_token _ _ _ hcomma)) h
  | case3 r q hq _ _ =>
    obtain ⟨last, hlast, rfl⟩ := ok_of_map h
    have hmore := forall_mem_add hr q (parameter_whole _ _ _ hq)
    exact whole_of_needsParts rfl (forall_mem_add hmore last (reads_token _ _ _ hlast))

theorem parameterListIn_whole (opening closing : TokenKind) :
    Reads Whole (parameterListIn opening closing) := by
  intro ts p h
  obtain ⟨q, hq, h⟩ := ok_of_bind h
  dsimp only at h
  split at h
  · next last hlast =>
    cases h
    exact whole_of_needsParts rfl
      (forall_mem_add (ofParsed_whole hq) last (reads_token _ _ _ hlast))
  · exact parameters_whole (ofParsed_whole hq) h

/-- A declarator starts with the token of its name. -/
theorem variableDeclarator_whole : Reads Whole variableDeclarator := by
  intro ts p h
  obtain ⟨q, hq, h⟩ := ok_of_bind h
  obtain ⟨s, hadds, rfl⟩ : ∃ s, (Begun.ofParsed q).Adds Whole s
      ∧ p = s.finish .variableDeclarator := by
    dsimp only at h
    split at h
    · obtain ⟨r, hr, h⟩ := ok_of_bind h
      obtain ⟨g, -, rfl⟩ := ok_of_map hr
      obtain ⟨s, hs, h⟩ := ok_of_bind h
      cases h
      exact ⟨s, (adds_run _ _).trans (Begun.adds_nextIf (equalsValue_whole _) hs), rfl⟩
    · obtain ⟨r, hr, h⟩ := ok_of_bind h
      cases hr
      obtain ⟨s, hs, h⟩ := ok_of_bind h
      cases h
      exact ⟨s, Begun.adds_nextIf (equalsValue_whole _) hs, rfl⟩
  have hwhole := hadds.forall_mem (ofParsed_whole hq)
  obtain ⟨t, ht, -⟩ := expectThat_ok hq
  obtain ⟨cs, hcs, -⟩ := hadds
  -- the name stays the first token, whatever brackets and initialiser follow
  have hname : Tree.token t ∈ s.children := by
    rw [hcs, Begun.children_ofParsed, ht]
    exact List.mem_cons_self
  exact whole_node (hasParts_declarator hname) hwhole

theorem declarators_whole {ts : List Token} {r s : Begun ts} (h : declarators r = .ok s) :
    r.Adds Whole s := by
  fun_induction declarators r with
  | case1 => cases h
  | case2 r q hq comma hcomma ih =>
    exact (r.adds_add q (variableDeclarator_whole _ _ hq)).trans
      (((r.add q).adds_add comma (reads_token _ _ _ hcomma)).trans (ih h))
  | case3 r q hq _ _ =>
    obtain ⟨last, hlast, rfl⟩ := ok_of_map h
    exact (r.adds_add q (variableDeclarator_whole _ _ hq)).trans
      ((r.add q).adds_add last (reads_token _ _ _ hlast))

theorem explicitInterface?_whole {ts : List Token} {p : Parsed ts}
    (h : explicitInterface? ts = .ok (some p)) : p.tree.Whole := by
  obtain ⟨whole, -, h⟩ := ok_of_bind h
  dsimp only at h
  generalize (if nextIs .dot whole.rest && nextKeyword ["this"] whole.rest.tail then
    segmentCount whole.tree else segmentCount whole.tree - 1) = count at h
  split at h
  · cases h
  · obtain ⟨q, hq, h⟩ := ok_of_bind h
    obtain ⟨r, hr, h⟩ := ok_of_bind h
    cases h
    have hname := (nameSegments_whole hq).2
    exact whole_of_needsParts rfl
      ((Begun.adds_next (reads_token _) hr).forall_mem (by simpa using hname))

/-! ## Shapes -/

/-- After any preamble, what a shape has read makes a node that has its parts. -/
structure Shape.Whole {ts : List Token} (s : Shape ts) : Prop where
  children : ∀ c ∈ s.read.children, c.Whole
  parts : ∀ pre : List Tree, (Tree.node s.kind (pre ++ s.read.children)).HasParts

theorem Shape.whole_of_needsParts {ts : List Token} {kind : NodeKind} {r : Begun ts}
    (hkind : kind.needsParts = false) (hr : ∀ c ∈ r.children, c.Whole) :
    (⟨kind, r⟩ : Shape ts).Whole :=
  ⟨hr, fun _ => hasParts_of_needsParts hkind _⟩

theorem enumShape_whole {ts : List Token} {s : Shape ts} (h : enumShape ts = .ok s) : s.Whole := by
  obtain ⟨q, hq, h⟩ := ok_of_bind h
  obtain ⟨r, hr, h⟩ := ok_of_bind h
  obtain ⟨u, hu, h⟩ := ok_of_bind h
  split at h
  · obtain ⟨g, -, h⟩ := ok_of_bind h
    cases h
    have hadds := (Begun.adds_next (reads_token _) hr).trans
      ((Begun.adds_nextIf baseList_whole hu).trans
        ((u.adds_add (.ofGroup .block g) (whole_ofGroup rfl g)).trans
          (adds_optionally _ (·.kind == .semicolon))))
    exact Shape.whole_of_needsParts rfl (hadds.forall_mem (ofParsed_whole hq))
  · cases h

theorem delegateShape_whole {ts : List Token} {s : Shape ts} (h : delegateShape ts = .ok s) :
    s.Whole := by
  obtain ⟨q, hq, h⟩ := ok_of_bind h
  obtain ⟨r₁, h₁, h⟩ := ok_of_bind h
  obtain ⟨r₂, h₂, h⟩ := ok_of_bind h
  obtain ⟨r₃, h₃, h⟩ := ok_of_bind h
  obtain ⟨r₄, h₄, h⟩ := ok_of_bind h
  obtain ⟨r₅, h₅, h⟩ := ok_of_bind h
  obtain ⟨r₆, h₆, h⟩ := ok_of_bind h
  cases h
  have hbefore := (Begun.adds_next reads_type h₁).trans
    ((Begun.adds_next (reads_token _) h₂).trans (Begun.adds_nextIf typeParameterList_whole h₃))
  have hafter := (Begun.adds_next (parameterListIn_whole _ _) h₄).trans
    ((constraintClauses_whole h₅).trans (Begun.adds_next (reads_token _) h₆))
  exact Shape.whole_of_needsParts rfl ((hbefore.trans hafter).forall_mem (ofParsed_whole hq))

theorem eventShape_whole {ts : List Token} {s : Shape ts} (h : eventShape ts = .ok s) :
    s.Whole := by
  obtain ⟨q, hq, h⟩ := ok_of_bind h
  obtain ⟨r, hr, h⟩ := ok_of_bind h
  obtain ⟨found, hfound, h⟩ := ok_of_bind h
  have hread := (Begun.adds_next reads_type hr).forall_mem (ofParsed_whole hq)
  split at h
  · next explicit =>
    obtain ⟨r₁, h₁, h⟩ := ok_of_bind h
    obtain ⟨r₂, h₂, h⟩ := ok_of_bind h
    cases h
    have hadds := (r.adds_add explicit (explicitInterface?_whole hfound)).trans
      ((Begun.adds_next (reads_token _) h₁).trans (Begun.adds_next accessorList_whole h₂))
    exact Shape.whole_of_needsParts rfl (hadds.forall_mem hread)
  · obtain ⟨named, hnamed, h⟩ := ok_of_bind h
    split at h
    · obtain ⟨r₁, h₁, h⟩ := ok_of_bind h
      cases h
      have hadds := (Begun.adds_next (reads_token _) hnamed).trans
        (Begun.adds_next accessorList_whole h₁)
      exact Shape.whole_of_needsParts rfl (hadds.forall_mem hread)
    · obtain ⟨r₁, h₁, h⟩ := ok_of_bind h
      cases h
      exact Shape.whole_of_needsParts rfl ((declarators_whole h₁).forall_mem hread)

theorem destructorShape_whole {ts : List Token} {s : Shape ts} (h : destructorShape ts = .ok s) :
    s.Whole := by
  obtain ⟨q, hq, h⟩ := ok_of_bind h
  obtain ⟨r₁, h₁, h⟩ := ok_of_bind h
  obtain ⟨r₂, h₂, h⟩ := ok_of_bind h
  obtain ⟨r₃, h₃, h⟩ := ok_of_bind h
  cases h
  have hadds := (Begun.adds_next (reads_token _) h₁).trans
    ((Begun.adds_next (parameterListIn_whole _ _) h₂).trans (Begun.adds_next body_whole h₃))
  exact Shape.whole_of_needsParts rfl (hadds.forall_mem (ofParsed_whole hq))

theorem conversionShape_whole {ts : List Token} {s : Shape ts} (h : conversionShape ts = .ok s) :
    s.Whole := by
  obtain ⟨q, hq, h⟩ := ok_of_bind h
  obtain ⟨r₁, h₁, h⟩ := ok_of_bind h
  obtain ⟨r₂, h₂, h⟩ := ok_of_bind h
  obtain ⟨r₃, h₃, h⟩ := ok_of_bind h
  obtain ⟨r₄, h₄, h⟩ := ok_of_bind h
  cases h
  have hbefore := (Begun.adds_next (reads_token _) h₁).trans
    ((adds_optionally r₁ (·.isKeyword ["checked"])).trans (Begun.adds_next reads_type h₂))
  have hafter := (Begun.adds_next (parameterListIn_whole _ _) h₃).trans
    (Begun.adds_next body_whole h₄)
  exact Shape.whole_of_needsParts rfl ((hbefore.trans hafter).forall_mem (ofParsed_whole hq))

theorem constructorInitializer_whole : Reads Whole constructorInitializer := by
  intro ts p h
  obtain ⟨q, hq, h⟩ := ok_of_bind h
  obtain ⟨r, hr, h⟩ := ok_of_bind h
  split at h
  · obtain ⟨g, -, h⟩ := ok_of_bind h
    cases h
    have hadds := (Begun.adds_next (reads_token _) hr).trans (adds_run r g.toRun)
    exact Tree.whole_of_needsParts rfl (hadds.forall_mem (ofParsed_whole hq))
  · cases h

theorem constructorShape_whole {ts : List Token} {s : Shape ts}
    (h : constructorShape ts = .ok s) : s.Whole := by
  obtain ⟨q, hq, h⟩ := ok_of_bind h
  obtain ⟨r₁, h₁, h⟩ := ok_of_bind h
  obtain ⟨r₂, h₂, h⟩ := ok_of_bind h
  obtain ⟨r₃, h₃, h⟩ := ok_of_bind h
  cases h
  have hadds := (Begun.adds_next (parameterListIn_whole _ _) h₁).trans
    ((Begun.adds_nextIf constructorInitializer_whole h₂).trans (Begun.adds_next body_whole h₃))
  exact Shape.whole_of_needsParts rfl (hadds.forall_mem (ofParsed_whole hq))

section Typed

variable {ts : List Token} {r : Begun ts} {s : Shape ts}

theorem operatorShape_whole (hr : ∀ c ∈ r.children, c.Whole) (h : operatorShape r = .ok s) :
    s.Whole := by
  obtain ⟨r₁, h₁, h⟩ := ok_of_bind h
  obtain ⟨symbol, -, h⟩ := ok_of_bind h
  dsimp only at h
  split at h
  · cases h
  · obtain ⟨r₂, h₂, h⟩ := ok_of_bind h
    obtain ⟨r₃, h₃, h⟩ := ok_of_bind h
    cases h
    have hadds := (Begun.adds_next (reads_token _) h₁).trans ((adds_run r₁ symbol).trans
      ((Begun.adds_next (parameterListIn_whole _ _) h₂).trans (Begun.adds_next body_whole h₃)))
    exact Shape.whole_of_needsParts rfl (hadds.forall_mem hr)

theorem indexerShape_whole (hr : ∀ c ∈ r.children, c.Whole) (h : indexerShape r = .ok s) :
    s.Whole := by
  obtain ⟨r₁, h₁, h⟩ := ok_of_bind h
  obtain ⟨r₂, h₂, h⟩ := ok_of_bind h
  have hbefore := (Begun.adds_next (reads_token _) h₁).trans
    (Begun.adds_next (parameterListIn_whole _ _) h₂)
  split at h
  · obtain ⟨r₃, h₃, h⟩ := ok_of_bind h
    cases h
    exact Shape.whole_of_needsParts rfl
      ((hbefore.trans (Begun.adds_next accessorList_whole h₃)).forall_mem hr)
  · split at h
    · obtain ⟨r₃, h₃, h⟩ := ok_of_bind h
      cases h
      exact Shape.whole_of_needsParts rfl
        ((hbefore.trans (Begun.adds_next body_whole h₃)).forall_mem hr)
    · cases h

theorem methodShape_whole (hr : ∀ c ∈ r.children, c.Whole) (h : methodShape r = .ok s) :
    s.Whole := by
  obtain ⟨r₁, h₁, h⟩ := ok_of_bind h
  obtain ⟨r₂, h₂, h⟩ := ok_of_bind h
  obtain ⟨r₃, h₃, h⟩ := ok_of_bind h
  obtain ⟨r₄, h₄, h⟩ := ok_of_bind h
  cases h
  have hadds := (Begun.adds_nextIf typeParameterList_whole h₁).trans
    ((Begun.adds_next (parameterListIn_whole _ _) h₂).trans
      ((constraintClauses_whole h₃).trans (Begun.adds_next body_whole h₄)))
  exact Shape.whole_of_needsParts rfl (hadds.forall_mem hr)

theorem propertyShape_whole (hr : ∀ c ∈ r.children, c.Whole) (h : propertyShape r = .ok s) :
    s.Whole := by
  unfold propertyShape at h
  split at h
  · obtain ⟨r₁, h₁, h⟩ := ok_of_bind h
    cases h
    exact Shape.whole_of_needsParts rfl ((Begun.adds_next body_whole h₁).forall_mem hr)
  · obtain ⟨r₁, h₁, h⟩ := ok_of_bind h
    have hlist := Begun.adds_next accessorList_whole h₁
    split at h
    · obtain ⟨r₂, h₂, h⟩ := ok_of_bind h
      obtain ⟨r₃, h₃, h⟩ := ok_of_bind h
      cases h
      have hvalue := (Begun.adds_next (equalsValue_whole _) h₂).trans
        (Begun.adds_next (reads_token _) h₃)
      exact Shape.whole_of_needsParts rfl ((hlist.trans hvalue).forall_mem hr)
    · cases h
      exact Shape.whole_of_needsParts rfl (hlist.forall_mem hr)

theorem namedShape_whole (hr : ∀ c ∈ r.children, c.Whole) (h : namedShape r = .ok s) :
    s.Whole := by
  unfold namedShape at h
  split at h
  · exact methodShape_whole hr h
  · split at h
    · exact propertyShape_whole hr h
    · cases h

end Typed

theorem typedShape_whole {ts : List Token} {s : Shape ts} (h : typedShape ts = .ok s) :
    s.Whole := by
  obtain ⟨q, hq, h⟩ := ok_of_bind h
  have hwhole := type_whole hq
  have htype : ∀ c ∈ (Begun.ofParsed q).children, c.Whole := by simpa using hwhole
  dsimp only at h
  split at h
  · exact operatorShape_whole htype h
  · split at h
    · exact indexerShape_whole htype h
    · obtain ⟨found, hfound, h⟩ := ok_of_bind h
      split at h
      · next explicit =>
        have hexplicit := forall_mem_add htype explicit (explicitInterface?_whole hfound)
        split at h
        · exact indexerShape_whole hexplicit h
        · obtain ⟨named, hnamed, h⟩ := ok_of_bind h
          exact namedShape_whole ((Begun.adds_next (reads_token _) hnamed).forall_mem hexplicit) h
      · obtain ⟨named, hnamed, h⟩ := ok_of_bind h
        split at h
        · obtain ⟨r, hr, h⟩ := ok_of_bind h
          cases h
          exact Shape.whole_of_needsParts rfl ((declarators_whole hr).forall_mem htype)
        · exact namedShape_whole ((Begun.adds_next (reads_token _) hnamed).forall_mem htype) h

theorem plainShape_whole {typeName : Option String} {ts : List Token} {s : Shape ts}
    (h : plainShape typeName ts = .ok s) : s.Whole := by
  unfold plainShape at h
  split at h
  · exact enumShape_whole h
  · split at h
    · exact delegateShape_whole h
    · split at h
      · exact eventShape_whole h
      · split at h
        · exact destructorShape_whole h
        · split at h
          · exact conversionShape_whole h
          · split at h
            · exact constructorShape_whole h
            · exact typedShape_whole h

/-! ## Types with members -/

/-- The word that a type declaration starts with is one of those with a kind. -/
theorem word_of_startsTypeDeclaration {ts : List Token} (h : startsTypeDeclaration ts = true) :
    ∃ word rest, ts = word :: rest ∧ word.value ∈ declarationWords := by
  cases ts with
  | nil => cases h
  | cons word rest =>
    refine ⟨word, rest, rfl, ?_⟩
    simp only [startsTypeDeclaration, nextKeyword, nextWord, List.head?_cons, Option.any_some,
      Bool.or_eq_true, Bool.and_eq_true, Token.isKeyword, Token.isWord, List.contains_iff_mem,
      List.mem_cons, List.not_mem_nil, or_false] at h
    simp only [declarationWords, List.mem_cons, List.not_mem_nil, or_false]
    rcases h with ⟨-, h | h | h⟩ | ⟨⟨-, h⟩, -⟩ <;> simp [h]

/-- The head of a type declaration keeps the word that its kind is read off. -/
theorem typeHead_whole {ts : List Token} {head : TypeHead ts}
    (hstarts : startsTypeDeclaration ts = true) (h : typeHead ts = .ok head) :
    (∀ c ∈ head.read.children, c.Whole) ∧ ∃ word, word.value ∈ declarationWords
      ∧ head.kind = declarationKind word.value ∧ Tree.token word ∈ head.read.children := by
  obtain ⟨word, rest, rfl, hword⟩ := word_of_startsTypeDeclaration hstarts
  obtain ⟨name, hname, h⟩ := ok_of_bind h
  obtain ⟨r₁, h₁, h⟩ := ok_of_bind h
  obtain ⟨r₂, h₂, h⟩ := ok_of_bind h
  obtain ⟨r₃, h₃, h⟩ := ok_of_bind h
  obtain ⟨r₄, h₄, h⟩ := ok_of_bind h
  cases h
  have hstart : (Begun.token word rest).Adds Whole
      (if declarationKind word.value == .recordType then
        (Begun.token word rest).optional (·.isKeyword ["class", "struct"])
      else Begun.token word rest) := by
    -- a record may have a second word, which comes after the one that tells the kind
    split
    · exact adds_optionally _ _
    · exact .refl _
  have hadds := hstart.trans ((Begun.adds_add _ name (reads_token _ _ _ hname)).trans
    ((Begun.adds_nextIf typeParameterList_whole h₁).trans
      ((Begun.adds_nextIf (parameterListIn_whole _ _) h₂).trans
        ((Begun.adds_nextIf baseList_whole h₃).trans (constraintClauses_whole h₄)))))
  refine ⟨hadds.forall_mem (by simp), word, hword, rfl, ?_⟩
  obtain ⟨cs, hcs, -⟩ := hadds
  show Tree.token word ∈ r₄.children
  rw [hcs]
  exact List.mem_cons_self

/-- A type declaration, whatever was read after its head. -/
theorem Shape.whole_of_head {ts : List Token} {head : TypeHead ts} {r : Begun ts}
    (hstarts : startsTypeDeclaration ts = true) (h : typeHead ts = .ok head)
    (hadds : head.read.Adds Tree.Whole r) : (⟨head.kind, r⟩ : Shape ts).Whole := by
  obtain ⟨hwhole, word, hword, hkind, hmem⟩ := typeHead_whole hstarts h
  refine ⟨hadds.forall_mem hwhole, fun pre => ?_⟩
  obtain ⟨cs, hcs, -⟩ := hadds
  show (Tree.node head.kind (pre ++ r.children)).HasParts
  rw [hkind, hcs]
  refine hasParts_declaration hword ?_
  exact List.mem_append_right _ (List.mem_append_left _ hmem)

mutual

theorem member_whole {typeName : Option String} {ts : List Token} {p : Parsed ts}
    (h : member typeName ts = .ok p) : p.tree.Whole := by
  rw [member] at h
  -- what fits no shape is kept as tokens, which are asked for nothing
  rcases ok_of_orSkipped h with h | h
  · exact declaration_whole h
  · exact skipped_whole _ _ h
termination_by (ts.length, 4)
decreasing_by exact Prod.Lex.right _ (by decide)

theorem declaration_whole {typeName : Option String} {ts : List Token} {p : Parsed ts}
    (h : declaration typeName ts = .ok p) : p.tree.Whole := by
  unfold declaration at h
  split at h
  · cases h
  · next r hr =>
    have hle := r.length_le
    split at h
    · cases h
    · next s hs =>
      cases h
      obtain ⟨hchildren, hparts⟩ := shape_whole hs
      refine whole_node (hparts r.children) ?_
      intro c hc
      rcases List.mem_append.mp hc with hc | hc
      · exact preamble_whole hr c hc
      · exact hchildren c hc
termination_by (ts.length, 3)
decreasing_by (simp only [Prod.lex_def]; omega)

theorem shape_whole {typeName : Option String} {ts : List Token} {s : Shape ts}
    (h : shape typeName ts = .ok s) : s.Whole := by
  unfold shape at h
  split at h
  · next hstarts =>
    split at h
    · cases h
    · next head hhead =>
      split at h
      · next last hlast =>
        cases h
        exact Shape.whole_of_head hstarts hhead (head.read.adds_add last (reads_token _ _ _ hlast))
      · split at h
        · cases h
        · next opening hopening =>
          have hlt := Nat.lt_trans opening.progress head.read.progress
          split at h
          · cases h
          · next r hr =>
            cases h
            have hadds := (head.read.adds_add opening (reads_token _ _ _ hopening)).trans
              ((members_whole hr).trans (adds_optionally r (·.kind == .semicolon)))
            exact Shape.whole_of_head hstarts hhead hadds
  · exact plainShape_whole h
termination_by (ts.length, 2)
decreasing_by exact Prod.Lex.left _ _ (by assumption)

theorem members_whole {typeName : String} {opening : Option Token} {ts : List Token}
    {r s : Begun ts} (h : members typeName opening r = .ok s) : r.Adds Tree.Whole s := by
  unfold members at h
  split at h
  · next last hlast =>
    cases h
    exact r.adds_add last (reads_token _ _ _ hlast)
  · split at h
    · cases h
    · split at h
      · cases h
      · next p hp =>
        have hlt := p.progress
        exact (r.adds_add p (member_whole hp)).trans (members_whole h)
termination_by (r.rest.length, 5)
decreasing_by
  · exact Prod.Lex.right _ (by decide)
  · exact Prod.Lex.left _ _ (by assumption)

end

/-! ## Units -/

theorem usingName_whole (ts : List Token) : ∀ c ∈ (usingName ts).children, c.Whole := by
  unfold usingName
  split
  · next t u rest =>
    split
    · show ∀ c ∈ [Tree.token t, Tree.token u], c.Whole
      simp
    · simp [Reading.start]
  · simp [Reading.start]

theorem usingDirective_whole : Reads Tree.Whole usingDirective := by
  intro ts p h
  obtain ⟨q, hq, h⟩ := ok_of_bind h
  obtain ⟨r₁, h₁, h⟩ := ok_of_bind h
  obtain ⟨r₂, h₂, h⟩ := ok_of_bind h
  cases h
  have hstart : ∀ c ∈ (Reading.ofRun (.optional (·.isWord ["global"]) ts)).children, c.Whole := by
    simp
  have hname : ∀ {us : List Token} (r : Begun us),
      r.Adds Tree.Whole (r.extend (usingName r.rest)) := fun r => ⟨_, rfl, usingName_whole _⟩
  have hadds := ((adds_optionally _ _).trans (hname _)).trans
    ((Begun.adds_next reads_type h₁).trans (Begun.adds_next (reads_token _) h₂))
  exact whole_of_needsParts rfl
    (hadds.forall_mem (forall_mem_add hstart q (reads_token _ _ _ hq)))

theorem simpleMember_whole : Reads Tree.Whole simpleMember := by
  intro ts p h
  unfold simpleMember at h
  split at h
  · unfold externAlias at h
    split at h
    · cases h
    · obtain ⟨g, -, rfl⟩ := ok_of_map h
      exact whole_ofGroup rfl g
  · split at h
    · rcases ok_of_orSkipped h with h | h
      · exact usingDirective_whole _ _ h
      · exact skipped_whole _ _ h
    · split at h
      · obtain ⟨g, -, rfl⟩ := ok_of_map h
        exact whole_ofGroup rfl g
      · exact member_whole h

/-- A namespace has its name before all else that is read of it. -/
theorem namespaceHead_whole {ts : List Token} {r : Begun ts} (h : namespaceHead ts = .ok r) :
    (∀ c ∈ r.children, c.Whole) ∧ ∃ name ∈ r.children, name.isNode (· == .name) = true := by
  unfold namespaceHead at h
  split at h
  · cases h
  · next keyword rest =>
    split at h
    · cases h
    · cases h
    · next p hp =>
      cases h
      obtain ⟨hname, hwhole⟩ := nameSegments_whole hp
      have hkeyword : ∀ c ∈ (Begun.token keyword rest).children, c.Whole := by simp
      have hmem : p.tree ∈ [Tree.token keyword, p.tree] := by simp
      exact ⟨forall_mem_add hkeyword p hwhole, p.tree, hmem, hname⟩

/-- A namespace, whatever was read after its head. -/
theorem whole_of_namespaceHead {ts : List Token} {kind : NodeKind} {head r : Begun ts}
    (hkind : kind.isNamespace = true) (h : namespaceHead ts = .ok head)
    (hadds : head.Adds Tree.Whole r) : (r.finish kind).tree.Whole := by
  obtain ⟨hwhole, name, hmem, hname⟩ := namespaceHead_whole h
  refine whole_node (hasParts_namespace hkind ?_ hname) (hadds.forall_mem hwhole)
  obtain ⟨cs, hcs, -⟩ := hadds
  rw [hcs]
  exact List.mem_append_left _ hmem

mutual

theorem namespaceMembers_whole {top : Bool} {ts : List Token} {r s : Reading ts}
    (hr : ∀ c ∈ r.children, c.Whole) (h : namespaceMembers top r = .ok s) :
    ∀ c ∈ s.children, c.Whole := by
  unfold namespaceMembers at h
  split at h
  · split at h
    · cases h; exact hr
    · cases h
  · split at h
    · split at h
      · cases h
      · cases h; exact hr
    · split at h
      · cases h
      · next p hp =>
        have hlt := p.progress
        exact namespaceMembers_whole (forall_mem_add hr p (namespaceMember_whole hp)) h
termination_by (r.rest.length, 2)
decreasing_by
  · exact Prod.Lex.right _ (by decide)
  · exact Prod.Lex.left _ _ (by assumption)

theorem namespaceMember_whole {ts : List Token} {p : Parsed ts} (h : namespaceMember ts = .ok p) :
    p.tree.Whole := by
  rw [namespaceMember] at h
  split at h
  · exact namespaceDeclaration_whole h
  · exact simpleMember_whole _ _ h
termination_by (ts.length, 1)
decreasing_by exact Prod.Lex.right _ (by decide)

theorem namespaceDeclaration_whole {ts : List Token} {p : Parsed ts}
    (h : namespaceDeclaration ts = .ok p) : p.tree.Whole := by
  unfold namespaceDeclaration at h
  split at h
  · cases h
  · next head hhead =>
    split at h
    · next mark hmark =>
      have hlt := Nat.lt_trans mark.progress head.progress
      split at h
      · cases h
      · next inner hinner =>
        cases h
        have hinner := namespaceMembers_whole (by simp [Reading.start]) hinner
        have hmembers : (head.add mark).Adds Tree.Whole ((head.add mark).extend inner) :=
          ⟨inner.children, rfl, hinner⟩
        exact whole_of_namespaceHead rfl hhead
          ((head.adds_add mark (reads_token _ _ _ hmark)).trans hmembers)
    · split at h
      · cases h
      · next opening hopening =>
        have hlt := Nat.lt_trans opening.progress head.progress
        split at h
        · cases h
        · next inner hinner =>
          split at h
          · cases h
          · next closing hclosing =>
            cases h
            have hinner := namespaceMembers_whole (by simp [Reading.start]) hinner
            have hmembers : (head.add opening).Adds Tree.Whole ((head.add opening).extend inner) :=
              ⟨inner.children, rfl, hinner⟩
            have hclose := ((head.add opening).extend inner).adds_add closing
              (reads_token _ _ _ hclosing)
            have hadds := (head.adds_add opening (reads_token _ _ _ hopening)).trans
              (hmembers.trans (hclose.trans (adds_optionally _ (·.kind == .semicolon))))
            exact whole_of_namespaceHead rfl hhead hadds
termination_by (ts.length, 0)
decreasing_by
  · exact Prod.Lex.left _ _ (by assumption)
  · exact Prod.Lex.left _ _ (by assumption)

end

end NullableMarker.Grammar

namespace NullableMarker

open Grammar

/-- All nodes of a unit have their parts. -/
theorem TokenStream.toUnit_whole {stream : TokenStream} {root : Tree}
    (h : stream.toUnit = .ok root) : root.Whole := by
  unfold toUnit at h
  split at h
  · cases h
  · next r hr =>
    cases h
    refine Tree.whole_of_needsParts rfl ?_
    intro c hc
    rcases List.mem_append.mp hc with hc | hc
    · exact namespaceMembers_whole (by simp [Reading.start]) hr c hc
    · rw [List.mem_singleton.mp hc]
      exact Tree.whole_token _

end NullableMarker
