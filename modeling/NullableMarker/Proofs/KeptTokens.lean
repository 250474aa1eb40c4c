import NullableMarker.Proofs.MarkedStream

/-!
# Marking keeps the tokens of a source

The text of a marked tree is read as the tokens of the source, with one question mark right after
the last token of each type that is marked. No mark runs into its neighbours, no line turns into a
directive or stops being one, and the header changes nothing behind it: the trivia between the tokens
is that of the source too, so the same regions are disabled.

* `relexed` — the tokens of the annotated text, with all their trivia
* `annotated_tokens_kept` — their kinds and values
-/

namespace NullableMarker

/-- What a token is, apart from where it stands and what is around it. -/
def Token.spelling (t : Token) : TokenKind × String := (t.kind, t.value)

/-- All the trivia of some tokens, in order. -/
def Token.triviaOf (ts : List Token) : List Trivia := ts.flatMap fun t => t.leading ++ t.trailing

/-- The trivia that a tree gets before its own. -/
def Tree.headerOf (t : Tree) : List Trivia :=
  if t.needsHeader then Tree.headerTrivia t.newline else []

/-! ## Spellings and trivia -/

theorem Token.map_spelling_unplaced (ts : List Token) :
    (ts.map Token.unplaced).map Token.spelling = ts.map Token.spelling := by
  rw [List.map_map]
  rfl

theorem Token.triviaOf_unplaced (ts : List Token) :
    Token.triviaOf (ts.map Token.unplaced) = Token.triviaOf ts := by
  rw [Token.triviaOf, List.flatMap_map]
  rfl

theorem map_spelling_prependLeading (more : List Trivia) (ts : List Token) :
    (prependLeading more ts).map Token.spelling = ts.map Token.spelling := by
  cases ts <;> rfl

theorem triviaOf_prependLeading (more : List Trivia) {ts : List Token} (h : ts ≠ []) :
    Token.triviaOf (prependLeading more ts) = more ++ Token.triviaOf ts := by
  cases ts with
  | nil => exact absurd rfl h
  | cons t ts => simp [prependLeading, Token.triviaOf]

/-- A mark is one question mark after its token. -/
theorem map_spelling_expand (fs : List (Token × Bool)) :
    (expand fs).map Token.spelling
      = fs.flatMap fun f => f.1.spelling :: if f.2 then [(.question, "?")] else [] := by
  induction fs with
  | nil => rfl
  | cons f fs ih =>
    obtain ⟨t, flag⟩ := f
    cases flag with
    | false => exact congrArg (t.spelling :: ·) ih
    | true => exact congrArg (t.spelling :: (.question, "?") :: ·) ih

theorem expand_ne_nil {fs : List (Token × Bool)} (h : fs ≠ []) : expand fs ≠ [] := by
  cases fs with
  | nil => exact absurd rfl h
  | cons f fs =>
    obtain ⟨t, flag⟩ := f
    cases flag <;> exact List.cons_ne_nil _ _

/-! ## The annotated text -/

section Relexed

variable {source : String} {defined : List String} {root : Tree} {v : Verdicts}
  {fs : List (Token × Bool)}

/-- The tokens of the annotated text are those of the source with the marks, behind the header. -/
theorem relexed {stream : TokenStream} (hstream : TokenStream.ofSource source defined = .ok stream)
    (htokens : root.tokens = stream.all) (htree : root.IsTreeOf source)
    (hfs : Tree.MarkedAs v root.tokens (root.mark v).tokens root.sites fs) :
    ∃ stream', TokenStream.ofSource (root.mark v).addHeader.fullText defined = .ok stream'
      ∧ stream'.all.map Token.unplaced
        = prependLeading root.headerOf ((expand fs).map Token.unplaced)
      ∧ stream'.symbols = stream.symbols := by
  rw [htree.fullText_annotated hfs, Tree.headerOf]
  exact relex hstream htokens (hfs.tokens.trans htokens) hfs.sound.endsType root.needsHeader

/-- The annotated text is read, for any verdicts, as the tokens of the source with one question mark
right after the last token of each type that is marked, and with the same trivia behind the header;
and the same symbols are defined at its end. -/
theorem annotated_tokens_kept (v : Verdicts)
    (hroot : parseUnit source defined = .ok root ∨ parseFragment source defined = .ok root) :
    ∃ stream stream' flagged, TokenStream.ofSource source defined = .ok stream
      ∧ TokenStream.ofSource (root.mark v).addHeader.fullText defined = .ok stream'
      ∧ flagged.map (·.1) = stream.all
      ∧ (Tree.marked v root.sites).map Tree.typeEnd? = (flaggedTokens flagged).map some
      ∧ stream'.all.map Token.spelling
        = flagged.flatMap (fun f => f.1.spelling :: if f.2 then [(.question, "?")] else [])
      ∧ Token.triviaOf stream'.all = root.headerOf ++ Token.triviaOf stream.all
      ∧ stream'.symbols = stream.symbols := by
  obtain ⟨stream, hstream, htokens, htree⟩ : ∃ stream,
      TokenStream.ofSource source defined = .ok stream ∧ root.tokens = stream.all
        ∧ root.IsTreeOf source := by
    rcases hroot with h | h
    · obtain ⟨stream, hstream, hread⟩ := stream_of_readSource h
      exact ⟨stream, hstream, TokenStream.tokens_of_toUnit hread,
        (Tree.isUnitOf_of_parseUnit h).toIsTreeOf⟩
    · obtain ⟨stream, hstream, hread⟩ := stream_of_readSource h
      exact ⟨stream, hstream, TokenStream.tokens_of_toFragment hread,
        Tree.isTreeOf_of_parseFragment h⟩
  obtain ⟨fs, hfs⟩ := htree.orderly.marks v
  obtain ⟨stream', hstream', hall, hsymbols⟩ := relexed hstream htokens htree hfs
  refine ⟨stream, stream', fs, hstream, hstream', hfs.tokens.trans htokens, hfs.ends, ?_, ?_,
    hsymbols⟩
  · rw [← Token.map_spelling_unplaced, hall, map_spelling_prependLeading,
      Token.map_spelling_unplaced, map_spelling_expand]
  · have hne : fs ≠ [] := by
      rintro rfl
      exact htree.tokens_ne_nil hfs.tokens.symm
    have hne : (expand fs).map Token.unplaced ≠ [] := by
      rw [Ne, List.map_eq_nil_iff]
      exact expand_ne_nil hne
    rw [← Token.triviaOf_unplaced, hall, triviaOf_prependLeading _ hne, Token.triviaOf_unplaced,
      Token.triviaOf, trivia_expand, hfs.tokens, htokens]
    rfl

end Relexed

theorem tokens_kept_in_class :
    ∃ root stream', parseUnit "class A{A a;}" [] = .ok root
      ∧ TokenStream.ofSource (root.mark [(8, true)]).addHeader.fullText [] = .ok stream'
      ∧ (root.mark [(8, true)]).addHeader.fullText
        = "#nullable enable annotations\nclass A{A? a;}"
      ∧ stream'.symbols = [] := by
  have htext : (parseUnit "class A{A a;}" []).toOption.map
      (fun root => ((root.mark [(8, true)]).addHeader.fullText))
        = some "#nullable enable annotations\nclass A{A? a;}" := by
    decide +kernel
  have hsymbols : (TokenStream.ofSource "class A{A a;}" []).toOption.map (·.symbols) = some [] := by
    decide +kernel
  cases hroot : parseUnit "class A{A a;}" [] with
  | error e => rw [hroot] at htext; cases htext
  | ok root =>
    rw [hroot] at htext
    obtain ⟨stream, stream', _, hstream, hstream', _, _, _, _, hsame⟩ :=
      annotated_tokens_kept [(8, true)] (.inl hroot)
    rw [hstream] at hsymbols
    refine ⟨root, stream', rfl, hstream', Option.some.inj htext, ?_⟩
    rw [hsame]
    exact Option.some.inj hsymbols

end NullableMarker
