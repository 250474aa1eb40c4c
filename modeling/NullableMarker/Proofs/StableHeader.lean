import NullableMarker.Proofs.Formatting

/-!
# The header is put in once

The text of a unit with the header is read as the same unit with the header among the trivia of its
first token. So it has the header, and it stays as it is when the header is put in again. The line of
the header ends as the first line of the unit that ends outside comments and disabled text.

* `Tree.tokens_addHeader` — the tokens of a tree with the header
* `LinesEnd` — how lines end
* `addHeader_stable` — the text of a unit with the header, and what it is read as
-/

namespace NullableMarker

namespace Tree

variable {t : Tree}

/-! ## The header in a tree -/

theorem leading_of_tokens {first : Token} {rest : List Token} (h : t.tokens = first :: rest) :
    t.leading = first.leading := by
  rw [leading, firstToken?_eq, h]
  rfl

/-- Trees start with the same trivia if their tokens differ in positions only. -/
theorem leading_congr {u : Tree}
    (h : u.tokens.map Token.unplaced = t.tokens.map Token.unplaced) : u.leading = t.leading := by
  cases ht : t.tokens with
  | nil =>
    rw [ht, List.map_nil, List.map_eq_nil_iff] at h
    rw [leading, leading, firstToken?_eq, firstToken?_eq, h, ht]
  | cons first rest =>
    rw [ht] at h
    obtain ⟨first', rest', hu, hfirst, -⟩ := List.map_eq_cons_iff.mp h
    have hleading := congrArg Token.leading hfirst
    rw [leading_of_tokens hu, leading_of_tokens ht]
    exact hleading

/-- The trivia that a tree starts with tells whether it has the header. -/
theorem hasHeader_congr {u : Tree} (h : u.leading = t.leading) : u.hasHeader = t.hasHeader := by
  rw [hasHeader, hasHeader, h]

/-- The header comes before the trivia of the first token. -/
theorem tokens_addHeader (h : t.tokens ≠ []) :
    t.addHeader.tokens = prependLeading t.headerOf t.tokens := by
  obtain ⟨first, rest, htokens⟩ := List.exists_cons_of_ne_nil h
  rw [addHeader, headerOf]
  split
  · rw [tokens_withLeading _ t htokens, htokens, leading_of_tokens htokens]
    rfl
  · rw [htokens]
    rfl

theorem leading_addHeader (h : t.tokens ≠ []) : t.addHeader.leading = t.headerOf ++ t.leading := by
  obtain ⟨first, rest, htokens⟩ := List.exists_cons_of_ne_nil h
  have hwith := tokens_addHeader h
  rw [htokens] at hwith
  rw [leading_of_tokens hwith, leading_of_tokens htokens]

/-- A tree that has the header gets no other. -/
theorem addHeader_of_hasHeader (h : t.hasHeader = true) : t.addHeader = t := by
  rw [addHeader, needsHeader, h, Bool.not_true, Bool.and_false]
  rfl

/-- A unit with the header has it. -/
theorem hasHeader_addHeader (hunit : t.isNode (· == .compilationUnit) = true) (h : t.tokens ≠ []) :
    t.addHeader.hasHeader = true := by
  cases hheader : t.hasHeader with
  | true =>
    rw [addHeader_of_hasHeader hheader]
    exact hheader
  | false =>
    have hneeds : t.needsHeader = true := by rw [needsHeader, hunit, hheader]; rfl
    rw [hasHeader, leading_addHeader h, headerOf, hneeds]
    show (TriviaKind.directive == .directive
      && Text.trim nullableDirective.toList == nullableDirective.toList) = true
    decide

end Tree

/-! ## How lines end -/

/-- How lines end among some trivia: as the first of them that end does, or with a line feed if none
does. -/
inductive LinesEnd (trivia : List Trivia) : String → Prop
  | none (h : ∀ u ∈ trivia, u.kind ≠ .endOfLine) : LinesEnd trivia "\n"
  | first {before after : List Trivia} {u : Trivia} (h : trivia = before ++ u :: after)
      (hkind : u.kind = .endOfLine) (hbefore : ∀ v ∈ before, v.kind ≠ .endOfLine) :
      LinesEnd trivia u.text

theorem Tree.linesEnd_newline (t : Tree) : LinesEnd (Token.triviaOf t.tokens) t.newline := by
  have hnewline : t.newline
      = (((Token.triviaOf t.tokens).find? (·.kind == .endOfLine)).map (·.text)).getD "\n" := rfl
  rw [hnewline]
  cases hfound : (Token.triviaOf t.tokens).find? (·.kind == .endOfLine) with
  | none => exact .none fun u hu => by simpa using List.find?_eq_none.mp hfound u hu
  | some u =>
    obtain ⟨hkind, before, after, hsplit, hbefore⟩ := List.find?_eq_some_iff_append.mp hfound
    exact .first hsplit (eq_of_beq hkind) fun v hv => by simpa using hbefore v hv

/-! ## Reading the header again -/

section Units

variable {source : String} {defined : List String} {root : Tree}

/-- The text of a unit with the header is read as the tokens of the unit with the header, apart from
their positions. -/
theorem ofSource_addHeader {stream : TokenStream}
    (hstream : TokenStream.ofSource source defined = .ok stream)
    (htokens : root.tokens = stream.all) (hne : root.tokens ≠ []) :
    ∃ stream', TokenStream.ofSource root.addHeader.fullText defined = .ok stream'
      ∧ stream'.all.map Token.unplaced = root.addHeader.tokens.map Token.unplaced
      ∧ stream'.symbols = stream.symbols := by
  have hfs : (unflagged root.tokens).map (·.1) = stream.all := by rw [map_fst_unflagged, htokens]
  obtain ⟨stream', hstream', hall, hsymbols⟩ := relex hstream htokens hfs (by simp) root.needsHeader
  refine ⟨stream', ?_, ?_, hsymbols⟩
  · rw [Tree.fullText_addHeader hne]
    rwa [expand_unflagged] at hstream'
  · rw [hall, expand_unflagged, Tree.tokens_addHeader hne]
    show prependLeading root.headerOf (root.tokens.map Token.unplaced) = _
    cases root.tokens <;> rfl

/-- The header is put in once. The text of a unit with it is the source, if the unit has the header,
or else the source behind the directive on a line of its own, which ends as the first line of the
source does. The header is not put in again, neither in the unit nor in what its text is read as: the
same unit with the header. -/
theorem addHeader_stable (hroot : parseUnit source defined = .ok root) :
    root.addHeader.fullText
        = (if root.hasHeader then source else nullableDirective ++ root.newline ++ source)
      ∧ root.newline.toList ∈ newlines ∧ LinesEnd (Token.triviaOf root.tokens) root.newline
      ∧ root.addHeader.hasHeader = true ∧ root.addHeader.addHeader = root.addHeader
      ∧ ∃ root', parseUnit root.addHeader.fullText defined = .ok root'
        ∧ root'.outline = root.outline
        ∧ root'.tokens.map Token.unplaced = root.addHeader.tokens.map Token.unplaced
        ∧ root'.hasHeader = true ∧ root'.addHeader.fullText = root.addHeader.fullText := by
  obtain ⟨stream, hstream, hread⟩ := stream_of_readSource hroot
  have htokens := TokenStream.tokens_of_toUnit hread
  have hunit := Tree.isUnitOf_of_parseUnit hroot
  have hne := hunit.tokens_ne_nil
  have hhas := Tree.hasHeader_addHeader hunit.isUnit hne
  refine ⟨?_, ?_, root.linesEnd_newline, hhas, Tree.addHeader_of_hasHeader hhas, ?_⟩
  · rw [Tree.fullText_addHeader hne, ← Tree.headerText_of_isUnit hunit.isUnit, hunit.fullText,
      Tree.headerText]
    cases root.hasHeader with
    | true => exact String.empty_append
    | false => rfl
  · obtain ⟨pieces, hcut, rfl⟩ := ok_of_map hstream
    exact (newline_ofCut hcut htokens).1
  · obtain ⟨stream', hstream', hall, -⟩ := ofSource_addHeader hstream htokens hne
    have hsame : stream'.all.map Token.spelling = stream.all.map Token.spelling := by
      rw [← Token.map_spelling_unplaced, hall, Token.map_spelling_unplaced,
        Tree.tokens_addHeader hne, map_spelling_prependLeading, htokens]
    obtain ⟨w, hunmarked, -, hparse⟩ := parseUnit_respelled hstream hstream' hsame hroot
    obtain ⟨stream₁, hstream₁, hread'⟩ := stream_of_readSource hparse
    obtain rfl := Except.ok.inj (hstream'.symm.trans hstream₁)
    have htokens' := TokenStream.tokens_of_toUnit hread'
    -- the tokens start with the same trivia, so both trees have the header
    have hleading := Tree.leading_congr ((congrArg _ htokens').trans hall)
    have hheader : (w.tree root).hasHeader = true :=
      (Tree.hasHeader_congr hleading).trans hhas
    refine ⟨w.tree root, hparse, ?_, by rw [htokens', hall], hheader, ?_⟩
    · rw [Weaving.tree_of_unmarked root fun t _ => hunmarked t, Weaving.outline_relabelTree]
    · rw [Tree.addHeader_of_hasHeader hheader]
      exact (Tree.isUnitOf_of_parseUnit hparse).fullText

end Units

/-- The first line ends with a carriage return, and so does that of the header. -/
theorem addHeader_stable_comment :
    ∃ root, parseUnit "//a\rclass A{}\n" [] = .ok root ∧ root.hasHeader = false
      ∧ root.addHeader.fullText = "#nullable enable annotations\r//a\rclass A{}\n"
      ∧ ∃ root', parseUnit root.addHeader.fullText [] = .ok root' ∧ root'.hasHeader = true
        ∧ root'.addHeader.fullText = root.addHeader.fullText := by
  have hheader : (parseUnit "//a\rclass A{}\n" []).toOption.map
      (fun root => (root.hasHeader, root.newline)) = some (false, "\r") := by
    decide +kernel
  obtain ⟨root, hroot, hheader⟩ := Option.map_eq_some_iff.mp hheader
  obtain ⟨hfalse, hnewline⟩ := Prod.mk.inj hheader
  obtain ⟨htext, -, -, -, -, root', hroot', -, -, hheader', hsame⟩ :=
    addHeader_stable (ok_of_toOption hroot)
  rw [hfalse, hnewline] at htext
  exact ⟨root, ok_of_toOption hroot, hfalse, htext, root', hroot', hheader', hsame⟩

end NullableMarker
