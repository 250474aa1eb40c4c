import NullableMarker.Proofs.Brackets
import NullableMarker.Proofs.TokenOrder

/-!
# Nested trees

Every reader of members and units takes brackets in pairs: groups that are kept as they stand, lists
between brackets of their own, and bodies in braces. So all nodes of a tree are nested, and a source
whose brackets do not match has no tree.

* `Grammar.member_closed` — members, skipped ones included
* `Grammar.namespaceDeclaration_closed` — namespaces
* `parse_nested` — trees of sources
-/

namespace NullableMarker

namespace Grammar

open NullableMarker.Tree

/-! ## Preambles -/

theorem attributeListsAfter_awaits {ts : List Token} {r s : Reading ts}
    (hr : Awaits [] r.children) (h : attributeListsAfter r = .ok s) : Awaits [] s.children := by
  fun_induction attributeListsAfter r with
  | case1 => cases h
  | case2 r _ g hg ih => exact ih (hr.add (closed_ofGroup (balanced_nested hg) _)) h
  | case3 => cases h; exact hr

theorem takeWhile_nested {f : Token → List Token → Bool}
    (hf : ∀ t rest, f t rest = true → t.kind.isBracket = false) (ts : List Token) :
    Nested (Run.takeWhile f ts).taken := by
  induction ts with
  | nil => exact nested_nil
  | cons t ts ih =>
    rw [Run.takeWhile]
    split
    · next ht => exact ih.cons (hf t ts ht)
    · exact nested_nil

theorem preamble_awaits {f : Token → List Token → Bool}
    (hf : ∀ t rest, f t rest = true → t.kind.isBracket = false) {ts : List Token} {r : Reading ts}
    (h : preamble f ts = .ok r) : Awaits [] r.children := by
  obtain ⟨s, hs, rfl⟩ := ok_of_map h
  exact (attributeListsAfter_awaits awaits_nil hs).add
    (closed_node (awaits_tokens (takeWhile_nested hf s.rest)))

theorem isBracket_of_isModifier (t : Token) (rest : List Token) (h : isModifier t rest = true) :
    t.kind.isBracket = false := by
  simp only [isModifier, Bool.or_eq_true, Bool.and_eq_true] at h
  rcases h with (h | ⟨h, -⟩) | ⟨⟨h, -⟩, -⟩
  · exact isBracket_of_isKeyword h
  · exact isBracket_of_isKeyword h
  · exact isBracket_of_kind rfl h

theorem skipped_closed : Reads Closed skipped := by
  intro ts p h
  obtain ⟨g, hg, rfl⟩ := ok_of_map h
  exact closed_ofGroup (statement_nested hg) _

/-! ## Parts of members -/

/-- The token that a test of the tokens ahead has seen. -/
theorem isBracket_of_nextIs {kind : TokenKind} (hkind : kind.isBracket = false) {t : Token}
    {ts : List Token} (h : nextIs kind (t :: ts) = true) : t.kind.isBracket = false :=
  isBracket_of_kind hkind h

theorem typeParameters_nested {ts : List Token} {g : Group ts} (h : typeParameters ts = .ok g) :
    Nested g.taken := by
  fun_induction typeParameters ts with
  | case1 => cases h
  | case2 t rest hend =>
    cases h
    exact nested_singleton (isBracket_of_kind rfl hend)
  | case3 => cases h
  | case4 t rest _ _ g' hg' ih =>
    obtain ⟨more, hmore, rfl⟩ := ok_of_map h
    exact (balanced_nested hg').append (ih hmore)
  | case5 t rest _ _ htoken ih =>
    obtain ⟨more, hmore, rfl⟩ := ok_of_map h
    refine (ih hmore).cons ?_
    simp only [Bool.or_eq_true] at htoken
    rcases htoken with (ht | ht) | ht
    · exact isBracket_of_kind rfl ht
    · exact isBracket_of_kind rfl ht
    · exact isBracket_of_isKeyword ht
  | case6 => cases h

theorem typeParameterList_closed (ts : List Token) (p : Parsed ts)
    (hnext : nextIs .lessThan ts = true) (h : typeParameterList ts = .ok p) : p.tree.Closed := by
  unfold typeParameterList at h
  split at h
  · cases h
  · obtain ⟨g, hg, rfl⟩ := ok_of_map h
    exact closed_ofGroup ((typeParameters_nested hg).cons (isBracket_of_nextIs rfl hnext)) _

theorem equalsValue_closed {stop : Token → List Token → Bool} (ts : List Token) (p : Parsed ts)
    (hnext : nextIs .equals ts = true) (h : equalsValue stop ts = .ok p) : p.tree.Closed := by
  unfold equalsValue at h
  split at h
  · cases h
  · obtain ⟨r, hr, rfl⟩ := ok_of_map h
    exact closed_ofGroup ((takeUntil_nested hr).cons (isBracket_of_nextIs rfl hnext)) _

theorem constraintClause_closed {ts : List Token} {p : Parsed ts}
    (hnext : nextWord ["where"] ts = true) (h : constraintClause ts = .ok p) : p.tree.Closed := by
  unfold constraintClause at h
  split at h
  · cases h
  · obtain ⟨r, hr, rfl⟩ := ok_of_map h
    exact closed_ofGroup ((takeUntil_nested hr).cons (isBracket_of_isWord hnext)) _

theorem constraintClauses_awaits {expected : List TokenKind} {ts : List Token} {r s : Begun ts}
    (hr : Awaits expected r.children) (h : constraintClauses r = .ok s) :
    Awaits expected s.children := by
  fun_induction constraintClauses r with
  | case1 => cases h
  | case2 r hwhere p hp ih => exact ih (hr.add (constraintClause_closed hwhere hp)) h
  | case3 => cases h; exact hr

theorem body_closed : Reads Closed body := by
  intro ts p h
  unfold body at h
  split at h
  · cases h
  · split at h
    · obtain ⟨g, hg, rfl⟩ := ok_of_map h
      exact closed_ofGroup (balanced_nested hg) _
    · split at h
      · next harrow =>
        obtain ⟨g, hg, rfl⟩ := ok_of_map h
        exact closed_ofGroup (through_nested rfl (isBracket_of_kind rfl harrow) hg) _
      · exact closed_expect rfl _ _ h

theorem accessor_closed : Reads Closed accessor := by
  intro ts p h
  obtain ⟨r, hr, h⟩ := ok_of_bind h
  obtain ⟨q, hq, h⟩ := ok_of_bind h
  obtain ⟨s, hs, h⟩ := ok_of_bind h
  cases h
  have hpre := preamble_awaits (fun _ _ => isBracket_of_isWord) hr
  have hword : Awaits [] (r.add q).children := hpre.add (closed_expectWord _ _ _ hq)
  exact closed_node (awaits_next body_closed hword hs)

theorem accessors_closed {ts : List Token} {r : Begun ts} {p : Parsed ts}
    (hr : Awaits [.rbrace] r.children) (h : accessors r = .ok p) : p.tree.Closed := by
  fun_induction accessors r with
  | case1 r last hlast =>
    cases h
    exact closed_node (awaits_closing rfl hr hlast)
  | case2 => cases h
  | case3 r _ _ q hq ih => exact ih (hr.add (accessor_closed _ _ hq)) h

theorem accessorList_closed : Reads Closed accessorList := by
  intro ts p h
  unfold accessorList at h
  split at h
  · cases h
  · next opening hopening => exact accessors_closed (awaits_opening rfl hopening) h

theorem baseTypes_closed {ts : List Token} {r : Begun ts} {p : Parsed ts}
    (hr : Awaits [] r.children) (h : baseTypes r = .ok p) : p.tree.Closed := by
  fun_induction baseTypes r with
  | case1 => cases h
  | case2 => cases h
  | case3 r q hq named _ g hg built comma hcomma ih =>
    have hnamed : Awaits [] named.children := hr.add (type_closed hq)
    have hbuilt : Awaits [] built.children := hnamed.add (closed_ofGroup (balanced_nested hg) _)
    exact ih (hbuilt.add (closed_expect rfl _ _ hcomma)) h
  | case4 r q hq named _ g hg built _ _ =>
    cases h
    have hnamed : Awaits [] named.children := hr.add (type_closed hq)
    exact closed_node (hnamed.add (closed_ofGroup (balanced_nested hg) _))
  | case5 r q hq named _ comma hcomma ih =>
    have hnamed : Awaits [] named.children := hr.add (type_closed hq)
    exact ih (hnamed.add (closed_expect rfl _ _ hcomma)) h
  | case6 r q hq named _ _ _ =>
    cases h
    exact closed_node (hr.add (type_closed hq))

theorem baseList_closed : Reads Closed baseList := by
  intro ts p h
  unfold baseList at h
  split at h
  · cases h
  · next colon hcolon =>
    have hstart : Awaits [] (Begun.ofParsed colon).children := closed_expect rfl _ _ hcolon
    exact baseTypes_closed hstart h

/-! ## Parameters and fields -/

theorem parameter_closed (closing : TokenKind) : Reads Closed (parameter closing) := by
  intro ts p h
  obtain ⟨r, hr, h⟩ := ok_of_bind h
  have hpre := preamble_awaits (fun _ _ => isBracket_of_isWord) hr
  split at h
  · obtain ⟨q, hq, h⟩ := ok_of_bind h
    cases h
    exact closed_node (hpre.add (closed_expectWord _ _ _ hq))
  · obtain ⟨q, hq, h⟩ := ok_of_bind h
    obtain ⟨named, hnamed, h⟩ := ok_of_bind h
    obtain ⟨s, hs, h⟩ := ok_of_bind h
    cases h
    have htyped : Awaits [] (r.add q).children := hpre.add (type_closed hq)
    have hname := awaits_next (closed_expect rfl) htyped hnamed
    exact closed_node (awaits_nextIf equalsValue_closed hname hs)

theorem parameters_closed {closing : TokenKind} (hclosing : isCloser closing = true)
    {ts : List Token} {r : Begun ts} {p : Parsed ts} (hr : Awaits [closing] r.children)
    (h : parameters closing r = .ok p) : p.tree.Closed := by
  fun_induction parameters closing r with
  | case1 => cases h
  | case2 r q hq comma hcomma ih =>
    have hmore : Awaits [closing] (r.add q).children := hr.add (parameter_closed _ _ _ hq)
    exact ih (hmore.add (closed_expect rfl _ _ hcomma)) h
  | case3 r q hq _ _ =>
    obtain ⟨last, hlast, rfl⟩ := ok_of_map h
    have hmore : Awaits [closing] (r.add q).children := hr.add (parameter_closed _ _ _ hq)
    exact closed_node (awaits_closing hclosing hmore hlast)

theorem parameterListIn_closed {opening closing : TokenKind}
    (hopening : closer? opening = some closing) (hclosing : isCloser closing = true) :
    Reads Closed (parameterListIn opening closing) := by
  intro ts p h
  obtain ⟨q, hq, h⟩ := ok_of_bind h
  have hstart := awaits_opening hopening hq
  dsimp only at h
  split at h
  · next last hlast =>
    cases h
    exact closed_node (awaits_closing hclosing hstart hlast)
  · exact parameters_closed hclosing hstart h

theorem parameterList_closed : Reads Closed parameterList := parameterListIn_closed rfl rfl

theorem variableDeclarator_closed : Reads Closed variableDeclarator := by
  intro ts p h
  obtain ⟨q, hq, h⟩ := ok_of_bind h
  have hname : Awaits [] (Begun.ofParsed q).children := closed_expect rfl _ _ hq
  dsimp only at h
  split at h
  · obtain ⟨r, hr, h⟩ := ok_of_bind h
    obtain ⟨g, hg, rfl⟩ := ok_of_map hr
    obtain ⟨s, hs, h⟩ := ok_of_bind h
    cases h
    have hsized := awaits_run hname (u := g.toRun) (balanced_nested hg)
    exact closed_node (awaits_nextIf equalsValue_closed hsized hs)
  · obtain ⟨r, hr, h⟩ := ok_of_bind h
    cases hr
    obtain ⟨s, hs, h⟩ := ok_of_bind h
    cases h
    exact closed_node (awaits_nextIf equalsValue_closed hname hs)

theorem declarators_awaits {ts : List Token} {r s : Begun ts} (hr : Awaits [] r.children)
    (h : declarators r = .ok s) : Awaits [] s.children := by
  fun_induction declarators r with
  | case1 => cases h
  | case2 r q hq comma hcomma ih =>
    have hmore : Awaits [] (r.add q).children := hr.add (variableDeclarator_closed _ _ hq)
    exact ih (hmore.add (closed_expect rfl _ _ hcomma)) h
  | case3 r q hq _ _ =>
    obtain ⟨last, hlast, rfl⟩ := ok_of_map h
    have hmore : Awaits [] (r.add q).children := hr.add (variableDeclarator_closed _ _ hq)
    exact hmore.add (closed_expect rfl _ _ hlast)

theorem explicitInterface?_closed {ts : List Token} {p : Parsed ts}
    (h : explicitInterface? ts = .ok (some p)) : p.tree.Closed := by
  obtain ⟨whole, -, h⟩ := ok_of_bind h
  dsimp only at h
  generalize (if nextIs .dot whole.rest && nextKeyword ["this"] whole.rest.tail then
    segmentCount whole.tree else segmentCount whole.tree - 1) = count at h
  split at h
  · cases h
  · obtain ⟨q, hq, h⟩ := ok_of_bind h
    obtain ⟨r, hr, h⟩ := ok_of_bind h
    cases h
    have hname : Awaits [] (Begun.ofParsed q).children := (name_derives hq).1.awaits
    exact closed_node (awaits_next (closed_expect rfl) hname hr)

/-! ## Shapes -/

section Shapes

variable {ts : List Token} {s : Shape ts}

theorem enumShape_awaits (h : enumShape ts = .ok s) : Awaits [] s.read.children := by
  obtain ⟨q, hq, h⟩ := ok_of_bind h
  obtain ⟨r₁, h₁, h⟩ := ok_of_bind h
  obtain ⟨r₂, h₂, h⟩ := ok_of_bind h
  have hword : Awaits [] (Begun.ofParsed q).children := closed_expectKeyword _ _ _ hq
  have hname := awaits_next (closed_expect rfl) hword h₁
  have hbases := awaits_nextIf (fun us p _ => baseList_closed us p) hname h₂
  split at h
  · obtain ⟨g, hg, h⟩ := ok_of_bind h
    cases h
    have hblock : Awaits [] (r₂.add (.ofGroup .block g)).children :=
      hbases.add (closed_ofGroup (balanced_nested hg) _)
    exact awaits_optional hblock fun _ => isBracket_of_kind rfl
  · cases h

theorem delegateShape_awaits (h : delegateShape ts = .ok s) : Awaits [] s.read.children := by
  obtain ⟨q, hq, h⟩ := ok_of_bind h
  obtain ⟨r₁, h₁, h⟩ := ok_of_bind h
  obtain ⟨r₂, h₂, h⟩ := ok_of_bind h
  obtain ⟨r₃, h₃, h⟩ := ok_of_bind h
  obtain ⟨r₄, h₄, h⟩ := ok_of_bind h
  obtain ⟨r₅, h₅, h⟩ := ok_of_bind h
  obtain ⟨r₆, h₆, h⟩ := ok_of_bind h
  cases h
  have hword : Awaits [] (Begun.ofParsed q).children := closed_expectKeyword _ _ _ hq
  have htype := awaits_next reads_closed_type hword h₁
  have hname := awaits_next (closed_expect rfl) htype h₂
  have hgeneric := awaits_nextIf typeParameterList_closed hname h₃
  have hparameters := awaits_next parameterList_closed hgeneric h₄
  exact awaits_next (closed_expect rfl) (constraintClauses_awaits hparameters h₅) h₆

theorem eventShape_awaits (h : eventShape ts = .ok s) : Awaits [] s.read.children := by
  obtain ⟨q, hq, h⟩ := ok_of_bind h
  obtain ⟨r, hr, h⟩ := ok_of_bind h
  obtain ⟨found, hfound, h⟩ := ok_of_bind h
  have hword : Awaits [] (Begun.ofParsed q).children := closed_expectKeyword _ _ _ hq
  have htype := awaits_next reads_closed_type hword hr
  split at h
  · next explicit =>
    obtain ⟨r₁, h₁, h⟩ := ok_of_bind h
    obtain ⟨r₂, h₂, h⟩ := ok_of_bind h
    cases h
    have hexplicit : Awaits [] (r.add explicit).children :=
      htype.add (explicitInterface?_closed hfound)
    exact awaits_next accessorList_closed (awaits_next (closed_expect rfl) hexplicit h₁) h₂
  · obtain ⟨named, hnamed, h⟩ := ok_of_bind h
    split at h
    · obtain ⟨r₁, h₁, h⟩ := ok_of_bind h
      cases h
      exact awaits_next accessorList_closed (awaits_next (closed_expect rfl) htype hnamed) h₁
    · obtain ⟨r₁, h₁, h⟩ := ok_of_bind h
      cases h
      exact declarators_awaits htype h₁

/-- A destructor is only read where its mark is an operator. -/
theorem destructorShape_awaits
    (hmark : ts.head?.any (fun t => t.kind == .operator && t.value == "~") = true)
    (h : destructorShape ts = .ok s) : Awaits [] s.read.children := by
  obtain ⟨q, hq, h⟩ := ok_of_bind h
  obtain ⟨r₁, h₁, h⟩ := ok_of_bind h
  obtain ⟨r₂, h₂, h⟩ := ok_of_bind h
  obtain ⟨r₃, h₃, h⟩ := ok_of_bind h
  cases h
  have hstart : Awaits [] (Begun.ofParsed q).children := by
    obtain ⟨t, ht, -, hts⟩ := expectThat_ok hq
    rw [hts] at hmark
    rw [Begun.children_ofParsed, ht]
    exact closed_token (isBracket_of_kind rfl (Bool.and_eq_true_iff.mp hmark).1)
  have hname := awaits_next (closed_expect rfl) hstart h₁
  exact awaits_next body_closed (awaits_next parameterList_closed hname h₂) h₃

theorem conversionShape_awaits (h : conversionShape ts = .ok s) : Awaits [] s.read.children := by
  obtain ⟨q, hq, h⟩ := ok_of_bind h
  obtain ⟨r₁, h₁, h⟩ := ok_of_bind h
  obtain ⟨r₂, h₂, h⟩ := ok_of_bind h
  obtain ⟨r₃, h₃, h⟩ := ok_of_bind h
  obtain ⟨r₄, h₄, h⟩ := ok_of_bind h
  cases h
  have hword : Awaits [] (Begun.ofParsed q).children := closed_expectKeyword _ _ _ hq
  have hoperator := awaits_next (closed_expectWord _) hword h₁
  have hchecked : Awaits [] (r₁.optional (·.isKeyword ["checked"])).children :=
    awaits_optional hoperator fun _ => isBracket_of_isKeyword
  have htype := awaits_next reads_closed_type hchecked h₂
  exact awaits_next body_closed (awaits_next parameterList_closed htype h₃) h₄

theorem constructorInitializer_closed : Reads Closed constructorInitializer := by
  intro ts p h
  obtain ⟨q, hq, h⟩ := ok_of_bind h
  obtain ⟨r, hr, h⟩ := ok_of_bind h
  have hcolon : Awaits [] (Begun.ofParsed q).children := closed_expect rfl _ _ hq
  have hword := awaits_next (closed_expectWord _) hcolon hr
  split at h
  · obtain ⟨g, hg, h⟩ := ok_of_bind h
    cases h
    exact closed_node (awaits_run hword (u := g.toRun) (balanced_nested hg))
  · cases h

theorem constructorShape_awaits (h : constructorShape ts = .ok s) : Awaits [] s.read.children := by
  obtain ⟨q, hq, h⟩ := ok_of_bind h
  obtain ⟨r₁, h₁, h⟩ := ok_of_bind h
  obtain ⟨r₂, h₂, h⟩ := ok_of_bind h
  obtain ⟨r₃, h₃, h⟩ := ok_of_bind h
  cases h
  have hname : Awaits [] (Begun.ofParsed q).children := closed_expect rfl _ _ hq
  have hparameters := awaits_next parameterList_closed hname h₁
  have hinitializer :=
    awaits_nextIf (fun us p _ => constructorInitializer_closed us p) hparameters h₂
  exact awaits_next body_closed hinitializer h₃

section Typed

variable {r : Begun ts}

theorem operatorShape_awaits (hr : Awaits [] r.children) (h : operatorShape r = .ok s) :
    Awaits [] s.read.children := by
  obtain ⟨r₁, h₁, h⟩ := ok_of_bind h
  obtain ⟨symbol, hsymbol, h⟩ := ok_of_bind h
  dsimp only at h
  split at h
  · cases h
  · obtain ⟨r₂, h₂, h⟩ := ok_of_bind h
    obtain ⟨r₃, h₃, h⟩ := ok_of_bind h
    cases h
    have hword := awaits_next (closed_expectKeyword _) hr h₁
    have hmarks := awaits_run hword (takeUntil_nested hsymbol)
    exact awaits_next body_closed (awaits_next parameterList_closed hmarks h₂) h₃

theorem indexerShape_awaits (hr : Awaits [] r.children) (h : indexerShape r = .ok s) :
    Awaits [] s.read.children := by
  obtain ⟨r₁, h₁, h⟩ := ok_of_bind h
  obtain ⟨r₂, h₂, h⟩ := ok_of_bind h
  have hword := awaits_next (closed_expectKeyword _) hr h₁
  have hparameters := awaits_next (parameterListIn_closed rfl rfl) hword h₂
  split at h
  · obtain ⟨r₃, h₃, h⟩ := ok_of_bind h
    cases h
    exact awaits_next accessorList_closed hparameters h₃
  · split at h
    · obtain ⟨r₃, h₃, h⟩ := ok_of_bind h
      cases h
      exact awaits_next body_closed hparameters h₃
    · cases h

theorem methodShape_awaits (hr : Awaits [] r.children) (h : methodShape r = .ok s) :
    Awaits [] s.read.children := by
  obtain ⟨r₁, h₁, h⟩ := ok_of_bind h
  obtain ⟨r₂, h₂, h⟩ := ok_of_bind h
  obtain ⟨r₃, h₃, h⟩ := ok_of_bind h
  obtain ⟨r₄, h₄, h⟩ := ok_of_bind h
  cases h
  have hgeneric := awaits_nextIf typeParameterList_closed hr h₁
  have hparameters := awaits_next parameterList_closed hgeneric h₂
  exact awaits_next body_closed (constraintClauses_awaits hparameters h₃) h₄

theorem propertyShape_awaits (hr : Awaits [] r.children) (h : propertyShape r = .ok s) :
    Awaits [] s.read.children := by
  unfold propertyShape at h
  split at h
  · obtain ⟨r₁, h₁, h⟩ := ok_of_bind h
    cases h
    exact awaits_next body_closed hr h₁
  · obtain ⟨r₁, h₁, h⟩ := ok_of_bind h
    have hlist := awaits_next accessorList_closed hr h₁
    split at h
    · next hequals =>
      obtain ⟨r₂, h₂, h⟩ := ok_of_bind h
      obtain ⟨r₃, h₃, h⟩ := ok_of_bind h
      cases h
      obtain ⟨value, hvalue, rfl⟩ := Begun.next_ok h₂
      have hassigned : Awaits [] (r₁.add value).children :=
        hlist.add (equalsValue_closed _ _ hequals hvalue)
      exact awaits_next (closed_expect rfl) hassigned h₃
    · cases h
      exact hlist

theorem namedShape_awaits (hr : Awaits [] r.children) (h : namedShape r = .ok s) :
    Awaits [] s.read.children := by
  unfold namedShape at h
  split at h
  · exact methodShape_awaits hr h
  · split at h
    · exact propertyShape_awaits hr h
    · cases h

end Typed

theorem typedShape_awaits (h : typedShape ts = .ok s) : Awaits [] s.read.children := by
  obtain ⟨q, hq, h⟩ := ok_of_bind h
  have htype : Awaits [] (Begun.ofParsed q).children := type_closed hq
  dsimp only at h
  split at h
  · exact operatorShape_awaits htype h
  · split at h
    · exact indexerShape_awaits htype h
    · obtain ⟨found, hfound, h⟩ := ok_of_bind h
      split at h
      · next explicit =>
        have hexplicit : Awaits [] ((Begun.ofParsed q).add explicit).children :=
          htype.add (explicitInterface?_closed hfound)
        split at h
        · exact indexerShape_awaits hexplicit h
        · obtain ⟨named, hnamed, h⟩ := ok_of_bind h
          exact namedShape_awaits (awaits_next (closed_expect rfl) hexplicit hnamed) h
      · obtain ⟨named, hnamed, h⟩ := ok_of_bind h
        split at h
        · obtain ⟨r, hr, h⟩ := ok_of_bind h
          cases h
          exact declarators_awaits htype hr
        · exact namedShape_awaits (awaits_next (closed_expect rfl) htype hnamed) h

theorem plainShape_awaits {typeName : Option String} (h : plainShape typeName ts = .ok s) :
    Awaits [] s.read.children := by
  unfold plainShape at h
  split at h
  · exact enumShape_awaits h
  · split at h
    · exact delegateShape_awaits h
    · split at h
      · exact eventShape_awaits h
      · split at h
        · next hmark => exact destructorShape_awaits hmark h
        · split at h
          · exact conversionShape_awaits h
          · split at h
            · exact constructorShape_awaits h
            · exact typedShape_awaits h

end Shapes

/-! ## Types with members -/

/-- The head of a type declaration starts with a word. -/
theorem typeHead_awaits {ts : List Token} {head : TypeHead ts}
    (hstarts : startsTypeDeclaration ts = true) (h : typeHead ts = .ok head) :
    Awaits [] head.read.children := by
  unfold typeHead at h
  split at h
  · cases h
  · next word rest =>
    obtain ⟨name, hname, h⟩ := ok_of_bind h
    obtain ⟨r₁, h₁, h⟩ := ok_of_bind h
    obtain ⟨r₂, h₂, h⟩ := ok_of_bind h
    obtain ⟨r₃, h₃, h⟩ := ok_of_bind h
    obtain ⟨r₄, h₄, h⟩ := ok_of_bind h
    cases h
    have hword : Awaits [] (Begun.token word rest).children := by
      refine closed_token ?_
      rcases Bool.or_eq_true_iff.mp hstarts with hkeyword | hrecord
      · exact isBracket_of_isKeyword hkeyword
      · exact isBracket_of_isWord (Bool.and_eq_true_iff.mp hrecord).1
    have hwords : Awaits [] (if declarationKind word.value == .recordType then
        (Begun.token word rest).optional (·.isKeyword ["class", "struct"])
      else Begun.token word rest).children := by
      split
      · exact awaits_optional hword fun _ => isBracket_of_isKeyword
      · exact hword
    have hnamed := hwords.add (closed_expect rfl _ _ hname)
    have hgeneric := awaits_nextIf typeParameterList_closed hnamed h₁
    have hparameters := awaits_nextIf (fun us p _ => parameterList_closed us p) hgeneric h₂
    have hbases := awaits_nextIf (fun us p _ => baseList_closed us p) hparameters h₃
    exact constraintClauses_awaits hbases h₄

mutual

theorem member_closed {typeName : Option String} {ts : List Token} {p : Parsed ts}
    (h : member typeName ts = .ok p) : p.tree.Closed := by
  rw [member] at h
  -- what was tried and given up leaves nothing behind: a skipped construct is read from the start
  rcases ok_of_orSkipped h with h | h
  · exact declaration_closed h
  · exact skipped_closed _ _ h
termination_by (ts.length, 4)
decreasing_by exact Prod.Lex.right _ (by decide)

theorem declaration_closed {typeName : Option String} {ts : List Token} {p : Parsed ts}
    (h : declaration typeName ts = .ok p) : p.tree.Closed := by
  unfold declaration at h
  split at h
  · cases h
  · next r hr =>
    have hle := r.length_le
    split at h
    · cases h
    · next s hs =>
      cases h
      exact closed_node ((preamble_awaits isBracket_of_isModifier hr).append (shape_awaits hs))
termination_by (ts.length, 3)
decreasing_by (simp only [Prod.lex_def]; omega)

theorem shape_awaits {typeName : Option String} {ts : List Token} {s : Shape ts}
    (h : shape typeName ts = .ok s) : Awaits [] s.read.children := by
  unfold shape at h
  split at h
  · next hstarts =>
    split at h
    · cases h
    · next head hhead =>
      have hread := typeHead_awaits hstarts hhead
      split at h
      · next last hlast =>
        cases h
        exact hread.add (closed_expect rfl _ _ hlast)
      · split at h
        · cases h
        · next opening hopening =>
          have hlt := Nat.lt_trans opening.progress head.read.progress
          split at h
          · cases h
          · next r hr =>
            cases h
            obtain ⟨t, ht, hkind, -⟩ := expectThat_ok hopening
            have hopened : Awaits [.rbrace] (head.read.add opening).children := by
              rw [Begun.children_add, ht]
              exact hread.opened (by rw [beq_iff_eq.mp hkind]; rfl)
            exact awaits_optional (members_awaits hopened hr) fun _ => isBracket_of_kind rfl
  · exact plainShape_awaits h
termination_by (ts.length, 2)
decreasing_by exact Prod.Lex.left _ _ (by assumption)

theorem members_awaits {typeName : String} {opening : Option Token} {ts : List Token}
    {r s : Begun ts} (hr : Awaits [.rbrace] r.children)
    (h : members typeName opening r = .ok s) : Awaits [] s.children := by
  unfold members at h
  split at h
  · next last hlast =>
    cases h
    exact awaits_closing rfl hr hlast
  · split at h
    · cases h
    · split at h
      · cases h
      · next p hp =>
        have hlt := p.progress
        have hmore : Awaits [.rbrace] (r.add p).children := hr.add (member_closed hp)
        exact members_awaits hmore h
termination_by (r.rest.length, 5)
decreasing_by
  · exact Prod.Lex.right _ (by decide)
  · exact Prod.Lex.left _ _ (by assumption)

end

/-! ## Units -/

theorem usingName_awaits (ts : List Token) : Awaits [] (usingName ts).children := by
  unfold usingName
  split
  · next t u rest =>
    split
    · next hnamed =>
      obtain ⟨ht, hu⟩ := Bool.and_eq_true_iff.mp hnamed
      have hnested : Nested [t, u] :=
        (nested_singleton (isBracket_of_kind rfl hu)).cons (isBracket_of_kind rfl ht)
      exact awaits_tokens hnested
    · exact awaits_nil
  · exact awaits_nil

/-- A directive takes its keyword untested; it is only read where the keyword follows. -/
theorem usingWord_awaits {ts : List Token} (hstarts : startsUsing ts = true)
    {q : Parsed (Reading.ofRun (.optional (·.isWord ["global"]) ts)).rest}
    (hq : expectThat (fun _ => true) (Reading.ofRun (.optional (·.isWord ["global"]) ts)).rest
      = .ok q) :
    Awaits [] ((Reading.ofRun (.optional (·.isWord ["global"]) ts)).add q).children := by
  have hstart : Awaits [] (Reading.ofRun (.optional (·.isWord ["global"]) ts)).children :=
    awaits_tokens (optional_nested (fun _ => isBracket_of_isWord) ts)
  refine hstart.add ?_
  obtain ⟨u, hu, -, hrest⟩ := expectThat_ok hq
  rw [hu]
  refine closed_token ?_
  cases ts with
  | nil => cases hstarts
  | cons t rest =>
    by_cases hglobal : t.isWord ["global"] = true
    · -- `global` is not the keyword itself, so the keyword is the token after it
      have hrest : rest = u :: q.rest := by
        simpa [Reading.ofRun, Run.optional, hglobal, Run.cons, Run.none] using hrest
      rcases Bool.or_eq_true_iff.mp hstarts with husing | husing
      · have hvalue := (Bool.and_eq_true_iff.mp (Bool.and_eq_true_iff.mp husing).1).2
        have hvalue' := (Bool.and_eq_true_iff.mp hglobal).2
        simp_all
      · have husing := (Bool.and_eq_true_iff.mp husing).2
        rw [List.tail_cons, hrest] at husing
        exact isBracket_of_isKeyword husing
    · have hrest : t :: rest = u :: q.rest := by
        simpa [Reading.ofRun, Run.optional, hglobal, Run.none] using hrest
      obtain ⟨rfl, -⟩ := List.cons.inj hrest
      rcases Bool.or_eq_true_iff.mp hstarts with husing | husing
      · exact isBracket_of_isKeyword (Bool.and_eq_true_iff.mp husing).1
      · exact absurd (Bool.and_eq_true_iff.mp husing).1 hglobal

theorem usingDirective_closed {ts : List Token} {p : Parsed ts} (hstarts : startsUsing ts = true)
    (h : usingDirective ts = .ok p) : p.tree.Closed := by
  obtain ⟨q, hq, h⟩ := ok_of_bind h
  obtain ⟨r₁, h₁, h⟩ := ok_of_bind h
  obtain ⟨r₂, h₂, h⟩ := ok_of_bind h
  cases h
  have hword := usingWord_awaits hstarts hq
  have hstatic : Awaits [] (Begun.optional (Reading.add _ q) (·.isKeyword ["static"])).children :=
    awaits_optional hword fun _ => isBracket_of_isKeyword
  have htype := awaits_next reads_closed_type (hstatic.append (usingName_awaits _)) h₁
  exact closed_node (awaits_next (closed_expect rfl) htype h₂)

theorem simpleMember_closed : Reads Closed simpleMember := by
  intro ts p h
  unfold simpleMember at h
  split at h
  · next hextern =>
    unfold externAlias at h
    split at h
    · cases h
    · obtain ⟨g, hg, rfl⟩ := ok_of_map h
      have hword := isBracket_of_isKeyword (Bool.and_eq_true_iff.mp hextern).1
      exact closed_ofGroup (through_nested rfl hword hg) _
  · split at h
    · next hstarts =>
      rcases ok_of_orSkipped h with h | h
      · exact usingDirective_closed hstarts h
      · exact skipped_closed _ _ h
    · split at h
      · obtain ⟨g, hg, rfl⟩ := ok_of_map h
        exact closed_ofGroup (balanced_nested hg) _
      · exact member_closed h

theorem namespaceHead_awaits {ts : List Token} {r : Begun ts}
    (hstarts : nextKeyword ["namespace"] ts = true) (h : namespaceHead ts = .ok r) :
    Awaits [] r.children := by
  unfold namespaceHead at h
  split at h
  · cases h
  · next keyword rest =>
    split at h
    · cases h
    · cases h
    · next p hp =>
      cases h
      have hword : Awaits [] (Begun.token keyword rest).children :=
        closed_token (isBracket_of_isKeyword hstarts)
      exact hword.add (name_derives hp).1.awaits

mutual

theorem namespaceMembers_awaits {top : Bool} {ts : List Token} {r s : Reading ts}
    (hr : Awaits [] r.children) (h : namespaceMembers top r = .ok s) : Awaits [] s.children := by
  unfold namespaceMembers at h
  split at h
  · split at h
    · cases h; exact hr
    · cases h
  · split at h
    · split at h
      · cases h
      · cases h; exact hr
    · split at h
      · cases h
      · next p hp =>
        have hlt := p.progress
        have hmore : Awaits [] (r.add p).children := hr.add (namespaceMember_closed hp)
        exact namespaceMembers_awaits hmore h
termination_by (r.rest.length, 2)
decreasing_by
  · exact Prod.Lex.right _ (by decide)
  · exact Prod.Lex.left _ _ (by assumption)

theorem namespaceMember_closed {ts : List Token} {p : Parsed ts} (h : namespaceMember ts = .ok p) :
    p.tree.Closed := by
  rw [namespaceMember] at h
  split at h
  · next hstarts => exact namespaceDeclaration_closed hstarts h
  · exact simpleMember_closed _ _ h
termination_by (ts.length, 1)
decreasing_by exact Prod.Lex.right _ (by decide)

theorem namespaceDeclaration_closed {ts : List Token} {p : Parsed ts}
    (hstarts : nextKeyword ["namespace"] ts = true) (h : namespaceDeclaration ts = .ok p) :
    p.tree.Closed := by
  unfold namespaceDeclaration at h
  split at h
  · cases h
  · next head hhead =>
    have hread := namespaceHead_awaits hstarts hhead
    split at h
    · next mark hmark =>
      have hlt := Nat.lt_trans mark.progress head.progress
      split at h
      · cases h
      · next inner hinner =>
        cases h
        have hmarked : Awaits [] (head.add mark).children := hread.add (closed_expect rfl _ _ hmark)
        exact closed_node (hmarked.append (namespaceMembers_awaits awaits_nil hinner))
    · split at h
      · cases h
      · next opening hopening =>
        have hlt := Nat.lt_trans opening.progress head.progress
        split at h
        · cases h
        · next inner hinner =>
          split at h
          · cases h
          · next closing hclosing =>
            cases h
            obtain ⟨t, ht, hkind, -⟩ := expectThat_ok hopening
            have hopened : Awaits [.rbrace] (head.add opening).children := by
              rw [Begun.children_add, ht]
              exact hread.opened (by rw [beq_iff_eq.mp hkind]; rfl)
            have hbody : Awaits [.rbrace] ((head.add opening).extend inner).children :=
              hopened.append (namespaceMembers_awaits awaits_nil hinner)
            have hclosed := awaits_closing rfl hbody hclosing
            exact closed_node (awaits_optional hclosed fun _ => isBracket_of_kind rfl)
termination_by (ts.length, 0)
decreasing_by
  · exact Prod.Lex.left _ _ (by assumption)
  · exact Prod.Lex.left _ _ (by assumption)

end

theorem fragmentMembers_awaits {ts : List Token} {r s : Reading ts} (hr : Awaits [] r.children)
    (h : fragmentMembers r = .ok s) : Awaits [] s.children := by
  fun_induction fragmentMembers r with
  | case1 => cases h; exact hr
  | case2 => cases h
  | case3 => cases h
  | case4 r _ _ p hp ih => exact ih (hr.add (member_closed hp)) h

end Grammar

open Grammar

namespace TokenStream

variable {stream : TokenStream} {root : Tree}

theorem toUnit_closed (heof : stream.eof.kind = .eof) (h : stream.toUnit = .ok root) :
    root.Closed := by
  unfold toUnit at h
  split at h
  · cases h
  · next r hr =>
    cases h
    have hmembers := namespaceMembers_awaits Tree.awaits_nil hr
    exact Tree.closed_node (hmembers.add (Tree.closed_token (by rw [heof]; rfl)))

theorem toFragment_closed (heof : stream.eof.kind = .eof) (h : stream.toFragment = .ok root) :
    root.Closed := by
  unfold toFragment at h
  split at h
  · cases h
  · next r hr =>
    cases h
    have hmembers := fragmentMembers_awaits Tree.awaits_nil hr
    exact Tree.closed_node (hmembers.add (Tree.closed_token (by rw [heof]; rfl)))

end TokenStream

/-- A source that has tokens but no tree is refused by the reader of its tokens. -/
theorem readSource_error {reader : TokenStream → Except ParseError Tree} {source : String}
    {defined : List String} {stream : TokenStream}
    (hstream : TokenStream.ofSource source defined = .ok stream)
    (h : ∀ root, reader stream ≠ .ok root) :
    ∃ e, readSource reader source defined = .error (.parse e) := by
  cases hread : reader stream with
  | ok root => exact absurd hread (h root)
  | error e => exact ⟨e, by simp only [readSource, hstream, hread]; rfl⟩

/-- In a tree that is read, of a unit or of a fragment, each closer of a node matches the bracket
that was opened last in it, and none is left open. So a source whose brackets do not match is
refused by both readers. -/
theorem parse_nested (source : String) (defined : List String) :
    (∀ root, parseUnit source defined = .ok root ∨ parseFragment source defined = .ok root →
      ∀ n ∈ root.nodes, Nested n.tokens)
    ∧ ∀ stream, TokenStream.ofSource source defined = .ok stream → ¬Nested stream.all →
      (∃ e, parseUnit source defined = .error (.parse e))
        ∧ ∃ e, parseFragment source defined = .error (.parse e) := by
  constructor
  · rintro root (h | h)
    · obtain ⟨stream, hstream, hroot⟩ := stream_of_readSource h
      have heof := (TokenStream.tiles_of_ofSource hstream).eof_kind
      exact (TokenStream.toUnit_closed heof hroot).nested_nodes
    · obtain ⟨stream, hstream, hroot⟩ := stream_of_readSource h
      have heof := (TokenStream.tiles_of_ofSource hstream).eof_kind
      exact (TokenStream.toFragment_closed heof hroot).nested_nodes
  · intro stream hstream hcrossed
    have heof := (TokenStream.tiles_of_ofSource hstream).eof_kind
    -- the tokens of a tree would be all those of the source
    refine ⟨readSource_error hstream fun root hroot => hcrossed ?_,
      readSource_error hstream fun root hroot => hcrossed ?_⟩
    · rw [← TokenStream.tokens_of_toUnit hroot]
      exact (TokenStream.toUnit_closed heof hroot).nested
    · rw [← TokenStream.tokens_of_toFragment hroot]
      exact (TokenStream.toFragment_closed heof hroot).nested

theorem parse_nested_crossed :
    (∃ root, parseUnit "class A{int[] f(){}}" [] = .ok root ∧ ∀ n ∈ root.nodes, Nested n.tokens)
    ∧ ∃ stream, TokenStream.ofSource "class A{([)]}" [] = .ok stream ∧ ¬Nested stream.all
      ∧ ∃ e, parseUnit "class A{([)]}" [] = .error (.parse e) := by
  constructor
  · have hok : (parseUnit "class A{int[] f(){}}" []).toOption.isSome = true := by
      decide +kernel
    obtain ⟨root, hroot⟩ := Option.isSome_iff_exists.mp hok
    have hroot := ok_of_toOption hroot
    exact ⟨root, hroot, (parse_nested _ _).1 root (.inl hroot)⟩
  · have hok : ((TokenStream.ofSource "class A{([)]}" []).toOption.map fun stream =>
        decide (Nested stream.all)) = some false := by decide +kernel
    obtain ⟨stream, hstream, hcrossed⟩ := Option.map_eq_some_iff.mp hok
    have hstream := ok_of_toOption hstream
    have hcrossed := of_decide_eq_false hcrossed
    exact ⟨stream, hstream, hcrossed, ((parse_nested _ _).2 stream hstream hcrossed).1⟩

end NullableMarker
