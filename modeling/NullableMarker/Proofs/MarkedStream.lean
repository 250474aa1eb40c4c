import NullableMarker.Proofs.ExactOutput
import NullableMarker.Proofs.Relexing

/-!
# The tokens of a marked text

The text of a marked unit, read again, gives the tokens of the marked unit: the marks come after the
tokens they were put after, all trivia stays where it was, and the header becomes the first trivia of
the first token.

* `Token.unplaced` — a token without its position
* `attach_expand` — the tokens of lexemes with marks
* `cut_header` — reading the header
* `relex_annotated` — the tokens of a marked unit with its header
-/

namespace NullableMarker

open Text

/-! ## Tokens without their position -/

/-- The token, as if it stood in no source. -/
def Token.unplaced (t : Token) : Token := { t with offset := none, place := ⟨0, 0⟩ }

/-- The piece of trivia that a lexeme is. -/
def Lexeme.trivia? (l : Lexeme) : Option Trivia :=
  match l.kind with
  | .trivia kind => some ⟨kind, String.ofList l.text⟩
  | .token _ => none

section Faces

variable {ls ls' : List Lexeme}

theorem trailingTrivia_congr (h : ls.map Lexeme.face = ls'.map Lexeme.face) :
    (trailingTrivia ls).1 = (trailingTrivia ls').1
      ∧ (trailingTrivia ls).2.map Lexeme.face = (trailingTrivia ls').2.map Lexeme.face := by
  induction ls generalizing ls' with
  | nil =>
    rw [List.map_eq_nil_iff.mp h.symm]
    exact ⟨rfl, rfl⟩
  | cons l ls ih =>
    obtain ⟨l', ls', rfl, hl, hls⟩ := List.map_eq_cons_iff.mp h.symm
    obtain ⟨hkind, htext⟩ := Prod.mk.inj hl
    obtain ⟨hfirst, hrest⟩ := ih hls.symm
    rw [trailingTrivia, trailingTrivia, hkind, htext]
    split
    · exact ⟨rfl, h⟩
    · exact ⟨rfl, hls.symm⟩
    · exact ⟨congrArg (List.cons _) hfirst, hrest⟩

/-- The tokens depend on what the lexemes are, apart from their positions. -/
theorem attach_congr (leading : List Trivia) (h : ls.map Lexeme.face = ls'.map Lexeme.face) :
    (attach leading ls).1.map Token.unplaced = (attach leading ls').1.map Token.unplaced
      ∧ (attach leading ls).2 = (attach leading ls').2 := by
  fun_induction attach leading ls generalizing ls' with
  | case1 leading =>
    rw [List.map_eq_nil_iff.mp h.symm, attach]
    exact ⟨rfl, rfl⟩
  | case2 leading l ls kind hkind ih =>
    obtain ⟨l', ls', rfl, hl, hls⟩ := List.map_eq_cons_iff.mp h.symm
    obtain ⟨hkind', htext⟩ := Prod.mk.inj hl
    rw [attach, hkind', hkind]
    dsimp only
    rw [htext]
    exact ih hls.symm
  | case3 leading l ls kind hkind tokens last hattach ih =>
    obtain ⟨l', ls', rfl, hl, hls⟩ := List.map_eq_cons_iff.mp h.symm
    obtain ⟨hkind', htext⟩ := Prod.mk.inj hl
    obtain ⟨htrail, hrest⟩ := trailingTrivia_congr hls.symm
    obtain ⟨htokens, hlast⟩ := ih hrest
    rw [hattach] at htokens hlast
    rw [attach, hkind', hkind]
    dsimp only
    rw [List.map_cons, List.map_cons, htokens, htext, htrail]
    exact ⟨rfl, hlast⟩

/-- Trivia before the first token goes to it, or to the end of the file. -/
theorem attach_leading (more leading : List Trivia) (ls : List Lexeme) :
    attach (more ++ leading) ls
      = match attach leading ls with
        | ([], last) => ([], more ++ last)
        | (t :: ts, last) => ({ t with leading := more ++ t.leading } :: ts, last) := by
  fun_induction attach leading ls with
  | case1 leading => rw [attach]
  | case2 leading l ls kind hkind ih =>
    rw [attach, hkind]
    dsimp only
    rw [List.append_assoc, ih]
  | case3 leading l ls kind hkind tokens last hattach ih =>
    rw [attach, hkind]
    dsimp only
    rw [hattach]

end Faces

/-! ## Tokens with marks -/

/-- The trivia after a token stays with it, whatever comes after, as long as it comes no earlier. -/
theorem trailingTrivia_split (ls : List Lexeme) :
    ∃ ls₁, ls = ls₁ ++ (trailingTrivia ls).2
      ∧ ∀ rest, rest.head?.map Lexeme.kind = (trailingTrivia ls).2.head?.map Lexeme.kind →
        trailingTrivia (ls₁ ++ rest) = ((trailingTrivia ls).1, rest) := by
  induction ls with
  | nil =>
    refine ⟨[], rfl, ?_⟩
    intro rest hrest
    have : rest = [] := by simpa [trailingTrivia] using hrest
    rw [this]
    rfl
  | cons l ls ih =>
    obtain ⟨ls₁, hls, hsame⟩ := ih
    cases hkind : l.kind with
    | token k =>
      have htrail : trailingTrivia (l :: ls) = ([], l :: ls) := by rw [trailingTrivia, hkind]
      rw [htrail]
      refine ⟨[], rfl, ?_⟩
      intro rest hrest
      obtain ⟨l', hl', hk'⟩ := Option.map_eq_some_iff.mp hrest
      obtain ⟨rest, rfl⟩ := List.head?_eq_some_iff.mp hl'
      rw [List.nil_append, trailingTrivia, hk', hkind]
    | trivia k =>
      by_cases hend : k = .endOfLine
      · subst hend
        have htrail : ∀ ls, trailingTrivia (l :: ls) = ([⟨.endOfLine, String.ofList l.text⟩], ls) := by
          intro ls
          rw [trailingTrivia, hkind]
        rw [htrail]
        exact ⟨[l], rfl, fun rest _ => htrail rest⟩
      · have htrail : ∀ ls, trailingTrivia (l :: ls)
            = (⟨k, String.ofList l.text⟩ :: (trailingTrivia ls).1, (trailingTrivia ls).2) := by
          intro ls
          rw [trailingTrivia, hkind]
          cases k with
          | endOfLine => exact absurd rfl hend
          | _ => rfl
        rw [htrail]
        refine ⟨l :: ls₁, by rw [List.cons_append, ← hls], ?_⟩
        intro rest hrest
        rw [List.cons_append, htrail, hsame rest hrest]

theorem Lexeme.expand_append (as bs : List (Lexeme × Bool)) :
    expand (as ++ bs) = expand as ++ expand bs := by simp [expand]

theorem Lexeme.expand_unmarkedAll (ls : List Lexeme) : expand (ls.map (·, false)) = ls := by
  induction ls with
  | nil => rfl
  | cons l ls ih => rw [List.map_cons, expand_unmarked, ih]

theorem Lexeme.head?_kind_expand (ms : List (Lexeme × Bool)) :
    (expand ms).head?.map Lexeme.kind = (ms.map (·.1)).head?.map Lexeme.kind := by
  cases ms with
  | nil => rfl
  | cons m ms =>
    obtain ⟨l, flag⟩ := m
    cases flag <;> rfl

theorem attach_token {l : Lexeme} {kind : TokenKind} (h : l.kind = .token kind)
    (leading : List Trivia) (ls : List Lexeme) :
    attach leading (l :: ls)
      = (⟨kind, String.ofList l.text, some l.offset, l.place, leading, (trailingTrivia ls).1⟩
          :: (attach [] (trailingTrivia ls).2).1, (attach [] (trailingTrivia ls).2).2) := by
  rw [attach, h]

theorem attach_trivia {l : Lexeme} {kind : TriviaKind} (h : l.kind = .trivia kind)
    (leading : List Trivia) (ls : List Lexeme) :
    attach leading (l :: ls) = attach (leading ++ [⟨kind, String.ofList l.text⟩]) ls := by
  rw [attach, h]

/-- A lexeme that a mark follows is a token of the list. -/
def Lexeme.IsMarkedIn (ts : List Token) (m : Lexeme × Bool) : Prop :=
  m.2 = true → ∃ t ∈ ts, m.1.kind = .token t.kind ∧ String.ofList m.1.text = t.value

/-- The tokens of lexemes with marks: the tokens of the lexemes, with the marks. -/
theorem attach_expand {leading : List Trivia} {ls : List Lexeme} {fs : List (Token × Bool)}
    (h : fs.map (·.1) = (attach leading ls).1) :
    ∃ ms, ms.map (·.1) = ls
      ∧ (attach leading (Lexeme.expand ms)).1.map Token.unplaced = (expand fs).map Token.unplaced
      ∧ (attach leading (Lexeme.expand ms)).2 = (attach leading ls).2
      ∧ ∀ m ∈ ms, Lexeme.IsMarkedIn (flaggedTokens fs) m := by
  fun_induction attach leading ls generalizing fs with
  | case1 leading =>
    rw [List.map_eq_nil_iff.mp h]
    refine ⟨[], rfl, ?_, ?_, by simp⟩
    · rw [Lexeme.expand_nil, attach]
      rfl
    · rw [Lexeme.expand_nil, attach]
  | case2 leading l ls kind hkind ih =>
    obtain ⟨ms, hms, htokens, hlast, hmarked⟩ := ih h
    refine ⟨(l, false) :: ms, by rw [List.map_cons, hms], ?_, ?_, ?_⟩
    · rw [Lexeme.expand_unmarked, attach, hkind]
      exact htokens
    · rw [Lexeme.expand_unmarked, attach, hkind]
      exact hlast
    · intro m hm
      rcases List.mem_cons.mp hm with rfl | hm
      · intro hflag
        cases hflag
      · exact hmarked m hm
  | case3 leading l ls kind hkind tokens last hattach ih =>
    obtain ⟨⟨t, flag⟩, fs, rfl, htoken, hfs⟩ := List.map_eq_cons_iff.mp h
    have ht : t = ⟨kind, String.ofList l.text, some l.offset, l.place, leading,
      (trailingTrivia ls).1⟩ := htoken
    obtain ⟨ms, hms, htokens, hlast, hmarked⟩ := ih (hfs.trans (congrArg Prod.fst hattach).symm)
    rw [hattach] at hlast
    obtain ⟨ls₁, hls, hsame⟩ := trailingTrivia_split ls
    -- the trivia after the token comes after its mark
    have htrail : trailingTrivia (ls₁ ++ Lexeme.expand ms)
        = ((trailingTrivia ls).1, Lexeme.expand ms) :=
      hsame _ (by rw [Lexeme.head?_kind_expand, hms])
    have hexpand : Lexeme.expand (ls₁.map (·, false) ++ ms) = ls₁ ++ Lexeme.expand ms := by
      rw [Lexeme.expand_append, Lexeme.expand_unmarkedAll]
    have hboth : (attach leading (Lexeme.expand ((l, flag) :: (ls₁.map (·, false) ++ ms)))).1.map
          Token.unplaced = (expand ((t, flag) :: fs)).map Token.unplaced
        ∧ (attach leading (Lexeme.expand ((l, flag) :: (ls₁.map (·, false) ++ ms)))).2 = last := by
      cases flag with
      | false =>
        rw [Lexeme.expand_unmarked, hexpand, attach_token hkind, htrail]
        refine ⟨?_, hlast⟩
        show _ :: (attach [] (Lexeme.expand ms)).1.map Token.unplaced = (t :: expand fs).map _
        rw [htokens, ht]
        rfl
      | true =>
        rw [Lexeme.expand_marked, hexpand, attach_token hkind]
        have hmark : trailingTrivia (Lexeme.questionMark :: (ls₁ ++ Lexeme.expand ms))
            = ([], Lexeme.questionMark :: (ls₁ ++ Lexeme.expand ms)) := rfl
        rw [hmark, attach_token (l := Lexeme.questionMark) rfl, htrail]
        refine ⟨?_, hlast⟩
        show _ :: _ :: (attach [] (Lexeme.expand ms)).1.map Token.unplaced = _
        rw [htokens, expand_flagged, ht]
        rfl
    refine ⟨(l, flag) :: (ls₁.map (·, false) ++ ms), ?_, hboth.1, hboth.2, ?_⟩
    · rw [List.map_cons, List.map_append, hms, List.map_map, Function.comp_def, List.map_id', ← hls]
    · intro m hm hflag
      rcases List.mem_cons.mp hm with rfl | hm
      · cases hflag
        exact ⟨t, by simp, by rw [ht]; exact hkind, by rw [ht]⟩
      · rcases List.mem_append.mp hm with hm | hm
        · obtain ⟨l', -, rfl⟩ := List.mem_map.mp hm
          cases hflag
        · obtain ⟨u, hu, hface⟩ := hmarked m hm hflag
          refine ⟨u, ?_, hface⟩
          cases flag with
          | false => exact hu
          | true => exact List.mem_cons_of_mem _ hu

/-! ## Tokens after which a line is not blank -/

theorem take_takeWhile (p : Char → Bool) (s : List Char) :
    s.take (s.takeWhile p).length = s.takeWhile p :=
  (List.prefix_iff_eq_take.mp (List.takeWhile_prefix p)).symm

theorem isWordPart_not_blank {c : Char} (h : isWordPart c = true) :
    (!isBlank c && !isLineEnd c) = true := by
  rw [Bool.and_eq_true, Bool.not_eq_true', Bool.not_eq_true', ← Bool.not_eq_true,
    ← Bool.not_eq_true]
  have hall : [' ', '\t', '\x0c', '\x0b', '\ufeff', '\r', '\n'].all (!isWordPart ·) = true := by
    decide +kernel
  have hword : ∀ d ∈ [' ', '\t', '\x0c', '\x0b', '\ufeff', '\r', '\n'], isWordPart d = false :=
    fun d hd => by simpa using List.all_eq_true.mp hall d hd
  constructor
  · intro hblank
    have hmem : c ∈ [' ', '\t', '\x0c', '\x0b', '\ufeff', '\r', '\n'] := by
      simp only [isBlank, isMargin, Bool.or_eq_true, beq_iff_eq] at hblank
      rcases hblank with (((rfl | rfl) | rfl) | rfl) | rfl <;> simp
    rw [hword c hmem] at h
    cases h
  · intro hend
    have hmem : c ∈ [' ', '\t', '\x0c', '\x0b', '\ufeff', '\r', '\n'] := by
      simp only [isLineEnd, Bool.or_eq_true, beq_iff_eq] at hend
      rcases hend with rfl | rfl <;> simp
    rw [hword c hmem] at h
    cases h

theorem doubleMarks_not_blank {mark : List Char × TokenKind} (h : mark ∈ doubleMarks) :
    mark.1.getLast?.all (fun c => !isBlank c && !isLineEnd c) = true := by
  revert mark; decide

theorem singleMarks_not_blank {mark : Char × TokenKind} (h : mark ∈ singleMarks) :
    (!isBlank mark.1 && !isLineEnd mark.1) = true := by
  revert mark; decide

theorem word_not_blank {c : Char} {r : List Char} (h : startsWord c r = true) :
    (c :: r.take (r.takeWhile isWordPart).length).getLast?.all
      (fun c => !isBlank c && !isLineEnd c) = true := by
  rw [take_takeWhile]
  cases hmore : r.takeWhile isWordPart with
  | nil =>
    -- the word is one character, and no at sign
    rw [startsWord, Bool.or_eq_true, Bool.and_eq_true] at h
    rcases h with hstart | ⟨-, hnext⟩
    · exact isWordPart_not_blank (isWordPart_of_isWordStart hstart)
    · cases r with
      | nil => cases hnext
      | cons d r =>
        have hd : isWordPart d = true := isWordPart_of_isWordStart (by simpa using hnext)
        simp [hd] at hmore
  | cons d more =>
    rw [List.getLast?_cons_cons, ← hmore, List.getLast?_eq_some_getLast (by simp [hmore])]
    refine isWordPart_not_blank ?_
    exact List.all_eq_true.mp (List.all_takeWhile (l := r)) _ (List.getLast_mem _)

theorem punctuation?_not_blank {c : Char} {r : List Char} {kind : TokenKind} {extra : Nat}
    (h : punctuation? c r = some (kind, extra)) :
    (c :: r.take extra).getLast?.all (fun c => !isBlank c && !isLineEnd c) = true := by
  unfold punctuation? at h
  split at h
  · next k hdouble =>
    cases h
    exact doubleMarks_not_blank (mem_of_lookup_eq_some hdouble)
  · obtain ⟨k, hsingle, heq⟩ := Option.map_eq_some_iff.mp h
    cases heq
    exact singleMarks_not_blank (mem_of_lookup_eq_some hsingle)

/-- A word or a mark does not end with a blank. -/
theorem tokenAhead_not_blank {c : Char} {r : List Char} {kind : TokenKind} {extra : Nat}
    (h : tokenAhead c r = .ok (kind, extra))
    (hkind : kind ≠ .string ∧ kind ≠ .character ∧ kind ≠ .number) :
    (c :: r.take extra).getLast?.all (fun c => !isBlank c && !isLineEnd c) = true := by
  obtain ⟨hstring, hcharacter, hnumber⟩ := hkind
  cases tokenStarts_of_ok h with
  | literal hliteral hliteralKind hextra =>
    split at hliteralKind
    · exact absurd hliteralKind hcharacter
    · exact absurd hliteralKind hstring
  | word hnone hword hwordKind hextra => exact hextra ▸ word_not_blank hword
  | number hnone hword hstarts hnumberKind hextra => exact absurd hnumberKind hnumber
  | mark hnone hword hstarts hmark => exact punctuation?_not_blank hmark

/-- Where a token lexeme comes from. -/
theorem tokenAhead_of_cut {st : ScanState} {s : List Char} {pieces : Cut}
    (h : cut st s = .ok pieces) {l : Lexeme} (hl : l ∈ pieces.lexemes) {kind : TokenKind}
    (hkind : l.kind = .token kind) :
    ∃ c r extra, tokenAhead c r = .ok (kind, extra) ∧ l.text = c :: r.take extra := by
  fun_induction cut st s generalizing pieces with
  | case1 st _ => cases h; cases hl
  | case2 => cases h
  | case3 => cases h
  | case4 => cases h
  | case5 => cases h
  | case6 st c r k extra hahead region hregion rest hrest ih =>
    cases h
    rcases List.mem_cons.mp hl with rfl | hl
    · have hkind : k = .token kind := hkind
      subst hkind
      cases lexemeStarts_of_ok hahead with
      | token hactive hblank hend hhash hslash hstar htoken => exact ⟨c, r, extra, htoken.ok, rfl⟩
    · exact ih hrest hl

theorem Token.kind_of_endsType {t : Token} (h : t.endsType = true) :
    t.kind ≠ .string ∧ t.kind ≠ .character ∧ t.kind ≠ .number := by
  refine ⟨?_, ?_, ?_⟩ <;>
  · intro hkind
    rw [Token.endsType, Token.isKeyword, hkind] at h
    simp at h

/-- After a token that ends a type a line is not blank. -/
theorem closes_of_endsType {st : ScanState} {s : List Char} {pieces : Cut}
    (h : cut st s = .ok pieces) {ms : List (Lexeme × Bool)} (hms : ms.map (·.1) = pieces.lexemes)
    {ts : List Token} (hends : ∀ t ∈ ts, t.endsType = true)
    (hmarked : ∀ m ∈ ms, Lexeme.IsMarkedIn ts m) : ∀ m ∈ ms, m.2 = true → m.1.Closes := by
  intro m hm hflag
  obtain ⟨t, ht, hkind, -⟩ := hmarked m hm hflag
  have hmem : m.1 ∈ pieces.lexemes := hms ▸ List.mem_map.mpr ⟨m, hm, rfl⟩
  obtain ⟨c, r, extra, htoken, htext⟩ := tokenAhead_of_cut h hmem hkind
  refine ⟨⟨_, hkind⟩, ?_⟩
  rw [htext]
  exact tokenAhead_not_blank htoken (Token.kind_of_endsType (hends t ht))

/-! ## The header -/

theorem trivia_trailingTrivia (ls : List Lexeme) :
    (trailingTrivia ls).1 ++ (trailingTrivia ls).2.filterMap Lexeme.trivia?
      = ls.filterMap Lexeme.trivia? := by
  induction ls with
  | nil => rfl
  | cons l ls ih =>
    unfold trailingTrivia
    split
    · rfl
    · next hkind => simp [Lexeme.trivia?, hkind]
    · next k _ hkind =>
      rw [List.filterMap_cons_some (b := ⟨k, String.ofList l.text⟩) (by simp [Lexeme.trivia?, hkind]),
        ← ih]
      rfl

/-- Attaching trivia keeps its order. -/
theorem trivia_attach (leading : List Trivia) (ls : List Lexeme) :
    ((attach leading ls).1.flatMap fun t => t.leading ++ t.trailing) ++ (attach leading ls).2
      = leading ++ ls.filterMap Lexeme.trivia? := by
  fun_induction attach leading ls with
  | case1 leading => simp
  | case2 leading l ls kind hkind ih =>
    rw [ih]
    simp [Lexeme.trivia?, hkind]
  | case3 leading l ls kind hkind tokens last hattach ih =>
    rw [hattach, List.nil_append] at ih
    rw [List.filterMap_cons_none (by simp [Lexeme.trivia?, hkind]), ← trivia_trailingTrivia ls, ← ih]
    simp

/-- The first end of line of a source is that of its lexemes. -/
theorem firstNewline?_ofCut (pieces : Cut) :
    firstNewline? (TokenStream.ofCut pieces).all
      = ((pieces.lexemes.filterMap Lexeme.trivia?).find? (·.kind == .endOfLine)).map (·.text) := by
  have htrivia := trivia_attach [] pieces.lexemes
  rw [List.nil_append] at htrivia
  rw [firstNewline?, ← htrivia]
  simp [TokenStream.all, TokenStream.ofCut]

/-- How lines may end. -/
def newlines : List (List Char) := [['\n'], ['\r'], ['\r', '\n']]

theorem newline_of_lexemeAhead {fresh active : Bool} {c : Char} {r : List Char} {extra : Nat}
    (h : lexemeAhead fresh active c r = .ok (.trivia .endOfLine, extra)) :
    c :: r.take extra ∈ newlines := by
  cases lexemeStarts_of_ok h with
  | endOfLine hend hextra =>
    subst hextra
    simp only [isLineEnd, Bool.or_eq_true, beq_iff_eq] at hend
    rcases hend with rfl | rfl
    · cases r with
      | nil => decide
      | cons d r =>
        by_cases hd : d = '\n'
        · subst hd
          simp [newlines]
        · simp [newlines, hd]
    · simp [newlines]

theorem newline_of_cut {st : ScanState} {s : List Char} {pieces : Cut} (h : cut st s = .ok pieces)
    {t : Trivia} (ht : t ∈ pieces.lexemes.filterMap Lexeme.trivia?) (hkind : t.kind = .endOfLine) :
    t.text.toList ∈ newlines := by
  fun_induction cut st s generalizing pieces with
  | case1 st _ => cases h; cases ht
  | case2 => cases h
  | case3 => cases h
  | case4 => cases h
  | case5 => cases h
  | case6 st c r k extra hahead region hregion rest hrest ih =>
    cases h
    obtain ⟨l, hl, hlt⟩ := List.mem_filterMap.mp ht
    rcases List.mem_cons.mp hl with rfl | hl
    · cases k with
      | token k => cases hlt
      | trivia k =>
        cases hlt
        have hkind : k = .endOfLine := hkind
        subst hkind
        rw [String.toList_ofList]
        exact newline_of_lexemeAhead hahead
    · exact ih hrest (List.mem_filterMap.mpr ⟨l, hl, hlt⟩)

/-- A text that starts with a line feed has it as its first trivia. -/
theorem trivia_of_lineFeed {st : ScanState} {s : List Char} {pieces : Cut}
    (h : cut st ('\n' :: s) = .ok pieces) :
    (pieces.lexemes.filterMap Lexeme.trivia?).head? = some ⟨.endOfLine, "\n"⟩ := by
  have hahead : lexemeAhead st.fresh st.region.isActive '\n' s = .ok (.trivia .endOfLine, 0) :=
    LexemeStarts.ok (.endOfLine rfl rfl)
  rw [cut, hahead] at h
  dsimp only [ScanState.regionAfter] at h
  split at h
  · cases h
  · cases h
    rfl

/-- How the lines of a source end. -/
theorem newline_ofCut {st : ScanState} {s : List Char} {pieces : Cut} (h : cut st s = .ok pieces)
    {root : Tree} (hroot : root.tokens = (TokenStream.ofCut pieces).all) :
    root.newline.toList ∈ newlines ∧ (root.newline.toList = ['\r'] → s.head? ≠ some '\n') := by
  rw [Tree.newline, hroot, firstNewline?_ofCut]
  constructor
  · cases hfound : (pieces.lexemes.filterMap Lexeme.trivia?).find? (·.kind == .endOfLine) with
    | none => decide
    | some t =>
      exact newline_of_cut h (List.mem_of_find?_eq_some hfound)
        (by simpa using List.find?_some hfound)
  · intro hreturn hhead
    obtain ⟨s, rfl⟩ := List.head?_eq_some_iff.mp hhead
    obtain ⟨ts, hts⟩ := List.head?_eq_some_iff.mp (trivia_of_lineFeed h)
    rw [hts] at hreturn
    simp at hreturn

/-- Reading the header line. -/
theorem cut_header (st : ScanState) (hfresh : st.fresh = true) (hactive : st.region.isActive = true)
    {nl s : List Char} (hnl : nl ∈ newlines) (hjoin : nl = ['\r'] → s.head? ≠ some '\n') :
    ∃ st', st'.region = st.region ∧ st'.fresh = true ∧ ∀ rest, cut st' s = .ok rest →
      ∃ pieces, cut st (nullableDirective.toList ++ (nl ++ s)) = .ok pieces
        ∧ pieces.lexemes.map Lexeme.face = (.trivia .directive, nullableDirective.toList)
          :: (.trivia .endOfLine, nl) :: rest.lexemes.map Lexeme.face
        ∧ pieces.final = rest.final := by
  obtain ⟨b, hb⟩ : ∃ b, nullableDirective.toList = '#' :: b := ⟨_, rfl⟩
  have hline : ∀ c ∈ b, inLine c = true := by
    have hall : nullableDirective.toList.all inLine = true := by decide
    intro c hc
    exact List.all_eq_true.mp hall c (by rw [hb]; exact List.mem_cons_of_mem _ hc)
  have hregion : ∀ st : ScanState,
      st.regionAfter (.trivia .directive) ('#' :: b) = .ok st.region := by
    intro st
    have hofText : Directive.ofText ('#' :: b)
        = ⟨"nullable", "enable annotations".toList⟩ := by
      rw [← hb]
      decide +kernel
    rw [ScanState.regionAfter, hofText]
    rfl
  -- the end of the line, whatever its form
  obtain ⟨e, more, rfl, hend, hahead, hfreshAfter⟩ : ∃ e more, nl = e :: more
      ∧ isLineEnd e = true
      ∧ (∀ fresh, lexemeAhead fresh true e (more ++ s) = .ok (.trivia .endOfLine, more.length))
      ∧ ∀ fresh, (e :: more).foldl ScanState.freshAfter fresh = true := by
    simp only [newlines, List.mem_cons, List.not_mem_nil, or_false] at hnl
    rcases hnl with rfl | rfl | rfl
    · exact ⟨'\n', [], rfl, rfl, fun _ => rfl, fun _ => rfl⟩
    · refine ⟨'\r', [], rfl, rfl, fun _ => LexemeStarts.ok (.endOfLine rfl ?_), fun _ => rfl⟩
      have hnext : (s.head? == some '\n') = false := beq_false_of_ne (hjoin rfl)
      rw [List.nil_append, hnext]
      rfl
    · exact ⟨'\r', ['\n'], rfl, rfl, fun _ => rfl, fun _ => rfl⟩
  have hdirective : lexemeAhead st.fresh st.region.isActive '#' (b ++ (e :: (more ++ s)))
      = .ok (.trivia .directive, b.length) := by
    have hstop : (b ++ e :: (more ++ s)).takeWhile inLine = b := by
      rw [List.takeWhile_append_of_pos hline, List.takeWhile_cons_of_neg (by simp [inLine, hend]),
        List.append_nil]
    rw [hactive, hfresh]
    show (.ok (.trivia .directive, ((b ++ e :: (more ++ s)).takeWhile inLine).length)
      : Except LexFault (LexemeKind × Nat)) = _
    rw [hstop]
  refine ⟨{ ({ st.advance (b.length + 1) ('#' :: (b ++ e :: (more ++ s))) with region := st.region }
    : ScanState).advance (more.length + 1) (e :: (more ++ s)) with region := st.region }, rfl, ?_, ?_⟩
  · show ((e :: (more ++ s)).take (more.length + 1)).foldl ScanState.freshAfter _ = true
    rw [List.take_succ_cons, List.take_left]
    exact hfreshAfter _
  · intro rest hrest
    have hafter := cut_cons { st.advance (b.length + 1) ('#' :: (b ++ e :: (more ++ s))) with
      region := st.region } (by rw [hactive]; exact hahead _) rfl hrest
    have hwhole := cut_cons st hdirective (hregion st) hafter
    rw [hb]
    exact ⟨_, hwhole, rfl, rfl⟩

/-! ## Streams -/

/-- Tokens with more trivia before the first. -/
def prependLeading (more : List Trivia) : List Token → List Token
  | [] => []
  | t :: ts => { t with leading := more ++ t.leading } :: ts

theorem fullTextOf_unplaced (ts : List Token) :
    Token.fullTextOf (ts.map Token.unplaced) = Token.fullTextOf ts := by
  induction ts with
  | nil => rfl
  | cons t ts ih =>
    rw [List.map_cons, Token.fullTextOf_cons, Token.fullTextOf_cons, ih]
    rfl

/-- The tokens of a stream apart from their positions, with the end-of-file token. -/
theorem all_unplaced (pieces : Cut) :
    (TokenStream.ofCut pieces).all.map Token.unplaced
      = (attach [] pieces.lexemes).1.map Token.unplaced
        ++ [⟨.eof, "", none, ⟨0, 0⟩, (attach [] pieces.lexemes).2, []⟩] := by
  simp [TokenStream.all, TokenStream.ofCut, Token.unplaced]

/-- Trivia in front of lexemes leads their first token. -/
theorem all_unplaced_of_trivia {pieces : Cut} {kind₁ kind₂ : TriviaKind}
    {text₁ text₂ : List Char} {ls : List Lexeme}
    (h : pieces.lexemes.map Lexeme.face = (.trivia kind₁, text₁) :: (.trivia kind₂, text₂)
      :: ls.map Lexeme.face) :
    (TokenStream.ofCut pieces).all.map Token.unplaced
      = prependLeading [⟨kind₁, String.ofList text₁⟩, ⟨kind₂, String.ofList text₂⟩]
        ((attach [] ls).1.map Token.unplaced ++ [⟨.eof, "", none, ⟨0, 0⟩, (attach [] ls).2, []⟩]) := by
  have hfaces : pieces.lexemes.map Lexeme.face
      = (⟨.trivia kind₁, text₁, 0, Place.first⟩ :: ⟨.trivia kind₂, text₂, 0, Place.first⟩
        :: ls).map Lexeme.face := h
  obtain ⟨htokens, hlast⟩ := attach_congr [] hfaces
  rw [all_unplaced, htokens, hlast, attach_trivia rfl, attach_trivia rfl]
  show ((attach ([_, _] ++ []) ls).1.map Token.unplaced
    ++ [⟨.eof, "", none, ⟨0, 0⟩, (attach ([_, _] ++ []) ls).2, []⟩]) = _
  rw [attach_leading]
  cases hattach : attach [] ls with
  | mk tokens last =>
    cases tokens with
    | nil => rfl
    | cons t ts => rfl

theorem exists_concat_of_map_eq {α β : Type} {f : α → β} {l : List α} {init : List β} {b : β}
    (h : l.map f = init ++ [b]) : ∃ as a, l = as ++ [a] ∧ as.map f = init ∧ f a = b := by
  obtain ⟨as, bs, rfl, has, hbs⟩ := List.map_eq_append_iff.mp h
  obtain ⟨a, as', rfl, ha, hnil⟩ := List.map_eq_cons_iff.mp hbs
  rw [List.map_eq_nil_iff.mp hnil]
  exact ⟨as, a, rfl, has, ha⟩

/-- The tokens of a source with marks put in after tokens that may end a type, and with the header
if it is wanted. -/
theorem relex {source : String} {defined : List String} {stream : TokenStream}
    (h : TokenStream.ofSource source defined = .ok stream) {root : Tree}
    (hroot : root.tokens = stream.all) {fs : List (Token × Bool)}
    (hfs : fs.map (·.1) = stream.all) (hends : ∀ t ∈ flaggedTokens fs, t.endsType = true)
    (header : Bool) :
    ∃ stream', TokenStream.ofSource ((if header then nullableDirective ++ root.newline else "")
        ++ Token.fullTextOf (expand fs)) defined = .ok stream'
      ∧ stream'.all.map Token.unplaced
        = prependLeading (if header then Tree.headerTrivia root.newline else [])
          ((expand fs).map Token.unplaced)
      ∧ stream'.symbols = stream.symbols := by
  obtain ⟨pieces, hcut, rfl⟩ := ok_of_map h
  -- the end of the file has no mark
  obtain ⟨gs, ⟨eof, flag⟩, rfl, hgs, hlastToken⟩ := exists_concat_of_map_eq hfs
  have heof : eof = (TokenStream.ofCut pieces).eof := hlastToken
  have hflag : flag = false := by
    rw [← Bool.not_eq_true]
    rintro rfl
    have := hends eof (by simp)
    rw [heof] at this
    exact Token.kind_ne_eof_of_endsType this rfl
  subst hflag
  obtain ⟨ms, hms, htokens, hlast, hmarked⟩ := attach_expand hgs
  have hclose := closes_of_endsType hcut hms
    (fun t ht => hends t (by rw [flaggedTokens_append]; exact List.mem_append_left _ ht)) hmarked
  have hexpand : (expand (gs ++ [(eof, false)])).map Token.unplaced
      = (attach [] (Lexeme.expand ms)).1.map Token.unplaced
        ++ [⟨.eof, "", none, ⟨0, 0⟩, (attach [] (Lexeme.expand ms)).2, []⟩] := by
    rw [expand_append, List.map_append, htokens, hlast, heof]
    rfl
  have htext : (Token.fullTextOf (expand (gs ++ [(eof, false)]))).toList
      = Lexeme.textOf (Lexeme.expand ms) := by
    have hattach := attach_text [] (Lexeme.expand ms)
    rw [Trivia.textOf_nil, String.toList_empty, List.nil_append] at hattach
    rw [← hattach, ← fullTextOf_unplaced, hexpand, Token.fullTextOf_append,
      fullTextOf_unplaced]
    simp [Token.fullText]
  cases header with
  | false =>
    obtain ⟨pieces', hcut', hfaces, hregion⟩ := cut_expand { region := Region.start defined }
      hcut hms hclose rfl rfl
    refine ⟨TokenStream.ofCut pieces', ?_, ?_, congrArg Region.symbols hregion⟩
    · unfold TokenStream.ofSource
      simp only [Bool.false_eq_true, if_false, String.empty_append]
      rw [htext, hcut']
      rfl
    · obtain ⟨h₁, h₂⟩ := attach_congr [] hfaces
      rw [all_unplaced, h₁, h₂, hexpand]
      cases (attach [] (Lexeme.expand ms)).1 <;> rfl
  | true =>
    obtain ⟨hnl, hjoin⟩ := newline_ofCut hcut hroot
    have hhead : (Lexeme.textOf (Lexeme.expand ms)).head? = source.toList.head? := by
      rw [Lexeme.head?_expand (cut_text_ne_nil hcut hms), hms, (cut_tiled hcut).1]
    obtain ⟨st', hregion', hfresh', hafter⟩ := cut_header { region := Region.start defined }
      (s := Lexeme.textOf (Lexeme.expand ms)) rfl rfl hnl (by rw [hhead]; exact hjoin)
    obtain ⟨rest, hrest, hfaces, hregion⟩ := cut_expand st' hcut hms hclose hregion' hfresh'
    obtain ⟨pieces', hcut', hfaces', hfinal⟩ := hafter rest hrest
    refine ⟨TokenStream.ofCut pieces', ?_, ?_, ?_⟩
    · unfold TokenStream.ofSource
      simp only [if_true, String.toList_append, List.append_assoc]
      rw [htext, hcut']
      rfl
    · rw [hfaces] at hfaces'
      rw [all_unplaced_of_trivia hfaces', hexpand, String.ofList_toList, String.ofList_toList]
      rfl
    · show pieces'.final.region.symbols = pieces.final.region.symbols
      rw [hfinal, hregion]

end NullableMarker
