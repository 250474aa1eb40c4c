import NullableMarker.Proofs.LexemeBounds
import NullableMarker.Token.Stream

/-!
# Tokens tile their source

The lexemes of a source stand one after another without a gap, and attaching trivia to tokens keeps
that: the full texts of the tokens, in order, are the source, and each token starts where its offset
says.

* `cut_tiled` — the lexemes of a text tile it
* `attach_tiled` — so do the tokens made of them
* `TokenStream.ofSource_tiles` — the tokens of a source, the end-of-file token last
-/

namespace NullableMarker

/-! ## Lexemes -/

/-- The joined text of lexemes. -/
def Lexeme.textOf (ls : List Lexeme) : List Char := ls.flatMap (·.text)

@[simp] theorem Lexeme.textOf_nil : textOf [] = [] := rfl

@[simp] theorem Lexeme.textOf_cons (l : Lexeme) (ls : List Lexeme) :
    textOf (l :: ls) = l.text ++ textOf ls := rfl

/-- Lexemes that follow one another from offset `n` on: none is empty, none ends the file. -/
def Lexeme.TiledFrom (n : Nat) : List Lexeme → Prop
  | [] => True
  | l :: ls =>
    l.offset = n ∧ l.text ≠ [] ∧ l.kind ≠ .token .eof ∧ TiledFrom (n + l.text.length) ls

/-- The lexemes of a text are its pieces, each at its offset. -/
theorem cut_tiled {st : ScanState} {s : List Char} {pieces : Cut} (h : cut st s = .ok pieces) :
    Lexeme.textOf pieces.lexemes = s ∧ Lexeme.TiledFrom st.offset pieces.lexemes
      ∧ pieces.final.offset = st.offset + s.length := by
  fun_induction cut st s generalizing pieces with
  | case1 st _ =>
    cases h
    exact ⟨rfl, trivial, rfl⟩
  | case2 => cases h
  | case3 => cases h
  | case4 => cases h
  | case5 => cases h
  | case6 st c r kind extra hahead region hregion rest hrest ih =>
    cases h
    obtain ⟨hextra, hkind⟩ := lexemeAhead_bounds hahead
    obtain ⟨htext, htiled, hfinal⟩ := ih hrest
    have hlen : (c :: r.take extra).length = extra + 1 := by
      rw [List.length_cons, List.length_take, Nat.min_eq_left hextra]
    refine ⟨?_, ⟨rfl, by simp, hkind, ?_⟩, ?_⟩
    · show c :: r.take extra ++ Lexeme.textOf rest.lexemes = c :: r
      rw [htext, List.cons_append, List.take_append_drop]
    · show Lexeme.TiledFrom (st.offset + (c :: r.take extra).length) rest.lexemes
      rw [hlen]
      exact htiled
    · show rest.final.offset = st.offset + (c :: r).length
      rw [hfinal, List.length_drop, List.length_cons]
      show st.offset + (extra + 1) + (r.length - extra) = _
      omega

/-! ## Attaching trivia -/

/-- The trivia after a token and the lexemes that are left keep text and order. -/
theorem trailingTrivia_tiled (ls : List Lexeme) :
    (Trivia.textOf (trailingTrivia ls).1).toList ++ Lexeme.textOf (trailingTrivia ls).2
      = Lexeme.textOf ls := by
  induction ls with
  | nil => simp [trailingTrivia]
  | cons l ls ih =>
    unfold trailingTrivia
    split
    · simp
    · simp
    · show (Trivia.textOf (_ :: (trailingTrivia ls).1)).toList ++ Lexeme.textOf (trailingTrivia ls).2
        = l.text ++ Lexeme.textOf ls
      rw [← ih]
      simp

theorem trailingTrivia_tiledFrom {n : Nat} {ls : List Lexeme} (h : Lexeme.TiledFrom n ls) :
    Lexeme.TiledFrom (n + (Trivia.textOf (trailingTrivia ls).1).length) (trailingTrivia ls).2 := by
  induction ls generalizing n with
  | nil => exact trivial
  | cons l ls ih =>
    obtain ⟨hoffset, hne, hkind, hrest⟩ := h
    unfold trailingTrivia
    split
    · exact ⟨hoffset, hne, hkind, hrest⟩
    · simpa using hrest
    · have := ih hrest
      simpa [Nat.add_assoc] using this

/-- Tokens that follow one another from offset `n` on: each stands after its leading trivia. -/
def Token.PlacedFrom (n : Nat) : List Token → Prop
  | [] => True
  | t :: ts =>
    t.offset = some (n + (Trivia.textOf t.leading).length) ∧ PlacedFrom (n + t.fullText.length) ts

theorem Token.placedFrom_append (n : Nat) (as bs : List Token) :
    PlacedFrom n (as ++ bs) ↔
      PlacedFrom n as ∧ PlacedFrom (n + (fullTextOf as).length) bs := by
  induction as generalizing n with
  | nil => simp [PlacedFrom]
  | cons a as ih =>
    rw [List.cons_append, PlacedFrom, PlacedFrom, ih, and_assoc, fullTextOf_cons,
      String.length_append, Nat.add_assoc]

/-- Attaching trivia keeps the text. -/
theorem attach_text (leading : List Trivia) (ls : List Lexeme) :
    (Token.fullTextOf (attach leading ls).1).toList ++ (Trivia.textOf (attach leading ls).2).toList
      = (Trivia.textOf leading).toList ++ Lexeme.textOf ls := by
  fun_induction attach leading ls with
  | case1 leading => simp
  | case2 leading l ls kind hkind ih =>
    rw [ih]
    simp
  | case3 leading l ls kind hkind tokens last hattach ih =>
    have hls := trailingTrivia_tiled ls
    rw [hattach] at ih
    simp only [Trivia.textOf_nil, String.toList_empty, List.nil_append] at ih
    simp only [Token.fullTextOf_cons, String.toList_append, List.append_assoc, ih]
    simp [Token.fullText, hls]

/-- Attaching trivia keeps order and offsets. -/
theorem attach_tiled (n : Nat) (leading : List Trivia) (ls : List Lexeme)
    (h : Lexeme.TiledFrom (n + (Trivia.textOf leading).length) ls) :
    Token.PlacedFrom n (attach leading ls).1
      ∧ ∀ t ∈ (attach leading ls).1, t.kind ≠ .eof ∧ t.value ≠ "" := by
  fun_induction attach leading ls generalizing n with
  | case1 leading => simp [Token.PlacedFrom]
  | case2 leading l ls kind hkind ih =>
    obtain ⟨-, -, -, hrest⟩ := h
    refine ih n ?_
    simpa [Nat.add_assoc] using hrest
  | case3 leading l ls kind hkind tokens last hattach ih =>
    obtain ⟨hoffset, hne, heof, hrest⟩ := h
    have htrail := trailingTrivia_tiledFrom hrest
    have hlen : (⟨kind, String.ofList l.text, some l.offset, l.place, leading,
        (trailingTrivia ls).1⟩ : Token).fullText.length
          = (Trivia.textOf leading).length + l.text.length
            + (Trivia.textOf (trailingTrivia ls).1).length := by
      simp [Token.fullText, Nat.add_assoc]
    obtain ⟨hplaced, hmem⟩ := ih (n + (Trivia.textOf leading).length + l.text.length
      + (Trivia.textOf (trailingTrivia ls).1).length) (by simpa using htrail)
    rw [hattach] at hplaced hmem
    refine ⟨⟨?_, ?_⟩, ?_⟩
    · rw [hoffset]
    · rw [hlen]
      simpa [Nat.add_assoc] using hplaced
    · intro t ht
      rcases List.mem_cons.mp ht with rfl | ht
      · rw [hkind] at heof
        exact ⟨by simpa using heof, by simpa using hne⟩
      · exact hmem t ht

theorem trailingTrivia_subset (ls : List Lexeme) : (trailingTrivia ls).2 ⊆ ls := by
  induction ls with
  | nil => exact List.Subset.refl _
  | cons l ls ih =>
    unfold trailingTrivia
    split
    · exact List.Subset.refl _
    · exact List.subset_cons_self l ls
    · exact List.subset_cons_of_subset l ih

/-- A token is made of a lexeme. -/
theorem exists_lexeme_of_mem_attach (leading : List Trivia) (ls : List Lexeme) {t : Token}
    (ht : t ∈ (attach leading ls).1) :
    ∃ l ∈ ls, l.kind = .token t.kind ∧ t.value = String.ofList l.text ∧ t.offset = some l.offset
      ∧ t.place = l.place := by
  fun_induction attach leading ls with
  | case1 leading => cases ht
  | case2 leading l ls kind hkind ih =>
    obtain ⟨l', hl', h⟩ := ih ht
    exact ⟨l', List.mem_cons_of_mem l hl', h⟩
  | case3 leading l ls kind hkind tokens last hattach ih =>
    rcases List.mem_cons.mp ht with rfl | ht
    · exact ⟨l, List.mem_cons_self, hkind, rfl, rfl, rfl⟩
    · rw [hattach] at ih
      obtain ⟨l', hl', h⟩ := ih ht
      exact ⟨l', List.mem_cons_of_mem l (trailingTrivia_subset ls hl'), h⟩

/-! ## Streams -/

namespace TokenStream

/-- What is known of the tokens of a source. -/
structure Tiles (stream : TokenStream) (source : String) : Prop where
  /-- The full texts are the source. -/
  fullText : Token.fullTextOf stream.all = source
  placed : Token.PlacedFrom 0 stream.all
  /-- Only the last token ends the file, and only it has no text. -/
  proper : ∀ t ∈ stream.tokens, t.kind ≠ .eof ∧ t.value ≠ ""
  eof_kind : stream.eof.kind = .eof
  eof_value : stream.eof.value = ""

theorem tiles_of_ofSource {source : String} {defined : List String} {stream : TokenStream}
    (h : ofSource source defined = .ok stream) : stream.Tiles source := by
  unfold ofSource at h
  cases hcut : cut { region := Region.start defined } source.toList with
  | error e => rw [hcut] at h; cases h
  | ok pieces =>
    rw [hcut] at h
    cases h
    obtain ⟨htext, htiled, hfinal⟩ := cut_tiled hcut
    obtain ⟨hplaced, hproper⟩ := attach_tiled 0 [] pieces.lexemes (by simpa using htiled)
    have hfull := attach_text [] pieces.lexemes
    rw [htext, Trivia.textOf_nil, String.toList_empty, List.nil_append] at hfull
    refine ⟨?_, ?_, hproper, rfl, rfl⟩
    · apply String.toList_injective
      rw [all, Token.fullTextOf_append, String.toList_append]
      simpa [ofCut, Token.fullText] using hfull
    · rw [all, Token.placedFrom_append]
      refine ⟨hplaced, ?_, trivial⟩
      have hlen := congrArg List.length hfull
      rw [List.length_append, String.length_toList, String.length_toList] at hlen
      show some pieces.final.offset = some _
      rw [hfinal]
      simpa [ofCut, Nat.add_assoc] using hlen.symm

/-- A token stands in the source where its offset says. -/
theorem Tiles.offset_of_split {source : String} {stream : TokenStream} (h : stream.Tiles source)
    {before after : List Token} {t : Token} (hall : stream.all = before ++ t :: after) :
    t.offset = some ((Token.fullTextOf before).length + (Trivia.textOf t.leading).length) := by
  have hplaced := h.placed
  rw [hall, Token.placedFrom_append] at hplaced
  simpa using hplaced.2.1

/-- The text at the offset of a token is the token. -/
theorem Tiles.text_at_offset {source : String} {stream : TokenStream} (h : stream.Tiles source)
    {before after : List Token} {t : Token} (hall : stream.all = before ++ t :: after) :
    (source.toList.drop ((Token.fullTextOf before).length + (Trivia.textOf t.leading).length)).take
      t.value.length = t.value.toList := by
  have hsource : source.toList
      = ((Token.fullTextOf before).toList ++ (Trivia.textOf t.leading).toList)
        ++ (t.value.toList ++ ((Trivia.textOf t.trailing).toList
          ++ (Token.fullTextOf after).toList)) := by
    rw [← h.fullText, hall]
    simp [Token.fullText]
  rw [hsource]
  simp only [← String.length_toList]
  rw [← List.length_append, List.drop_left, List.take_left]

/-- The tokens of a source tile it: the end-of-file token comes last and only there, no other token
is empty, the full texts are the source, and each token stands where its offset says, after the
tokens before it and its own leading trivia. -/
theorem ofSource_tiles {source : String} {defined : List String} {stream : TokenStream}
    (h : ofSource source defined = .ok stream) :
    (∃ tokens eof, stream.all = tokens ++ [eof] ∧ eof.kind = .eof
        ∧ ∀ t ∈ tokens, t.kind ≠ .eof ∧ t.value ≠ "")
      ∧ Token.fullTextOf stream.all = source
      ∧ ∀ before t after, stream.all = before ++ t :: after →
          ∃ n, t.offset = some n
            ∧ n = (Token.fullTextOf before).length + (Trivia.textOf t.leading).length
            ∧ (source.toList.drop n).take t.value.length = t.value.toList := by
  have htiles := tiles_of_ofSource h
  refine ⟨⟨stream.tokens, stream.eof, rfl, htiles.eof_kind, htiles.proper⟩, htiles.fullText, ?_⟩
  intro before t after hall
  exact ⟨_, htiles.offset_of_split hall, rfl, htiles.text_at_offset hall⟩

theorem ofSource_tiles_commented :
    ∃ stream, ofSource "a /* b */ \"c\"\n" [] = .ok stream
      ∧ Token.fullTextOf stream.all = "a /* b */ \"c\"\n" := by
  have hok : (ofSource "a /* b */ \"c\"\n" []).toOption.isSome := by decide +kernel
  cases h : ofSource "a /* b */ \"c\"\n" [] with
  | error e => rw [h] at hok; cases hok
  | ok stream => exact ⟨stream, rfl, (ofSource_tiles h).2.1⟩

end TokenStream

end NullableMarker
