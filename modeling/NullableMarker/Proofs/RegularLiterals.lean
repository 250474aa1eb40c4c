import NullableMarker.Proofs.DottedNames
import NullableMarker.Proofs.Scans

/-!
# Regular literals

A regular string or a character literal goes on up to its mark. A backslash takes along the
character after it, whatever that is, so a line ends inside such a literal only right after a
backslash. Where the line or the text ends otherwise, the literal is unterminated.

* `Literal.Inside` — what stands between the marks
* `Literal.literalLength?_regular` — where a regular literal ends, or that it does not
* `regular_literals_end` — the literals of a source
-/

namespace NullableMarker

open Text

namespace Literal

/-! ## Between the marks -/

/-- Text between the marks of a regular literal: characters that stand for themselves, and
characters after a backslash. -/
inductive Inside (mark : Char) : List Char → Prop
  | nil : Inside mark []
  | plain {c : Char} {r : List Char} (hescape : c ≠ '\\') (hmark : c ≠ mark)
      (hline : isLineEnd c = false) (h : Inside mark r) : Inside mark (c :: r)
  | escape {c : Char} {r : List Char} (h : Inside mark r) : Inside mark ('\\' :: c :: r)

/-- A line ends between the marks only after a backslash that is not escaped itself. -/
theorem Inside.before_lineEnd {mark : Char} {body pre post : List Char} {e : Char}
    (h : Inside mark body) (hbody : body = pre ++ e :: post) (he : isLineEnd e = true) :
    ∃ before, pre = before ++ ['\\'] ∧ Inside mark before := by
  induction h generalizing pre with
  | nil => simp at hbody
  | @plain c r hescape hmark hline h ih =>
    cases pre with
    | nil =>
      obtain ⟨rfl, -⟩ := List.cons.inj hbody
      rw [hline] at he
      cases he
    | cons d pre =>
      obtain ⟨rfl, hrest⟩ := List.cons.inj hbody
      obtain ⟨before, rfl, hbefore⟩ := ih hrest
      exact ⟨c :: before, rfl, .plain hescape hmark hline hbefore⟩
  | @escape c r h ih =>
    match pre, hbody with
    | [], hbody =>
      obtain ⟨rfl, -⟩ := List.cons.inj hbody
      cases he
    | [d], hbody =>
      obtain ⟨rfl, -⟩ := List.cons.inj hbody
      exact ⟨[], rfl, .nil⟩
    | d :: d' :: pre, hbody =>
      obtain rfl := (List.cons.inj hbody).1
      obtain ⟨rfl, hrest⟩ := List.cons.inj (List.cons.inj hbody).2
      obtain ⟨before, rfl, hbefore⟩ := ih hrest
      exact ⟨'\\' :: c :: before, rfl, .escape hbefore⟩

/-- What follows the text between the marks as far as it goes: no mark comes any more. -/
def Unended (rest : List Char) : Prop :=
  rest = [] ∨ rest = ['\\'] ∨ ∃ e r, rest = e :: r ∧ isLineEnd e = true

/-- After a mark comes text that is ended by the next mark, or not at all. -/
theorem exists_inside (mark : Char) (s : List Char) :
    ∃ body rest, Inside mark body ∧ s = body ++ rest
      ∧ ((∃ r, rest = mark :: r) ∨ Unended rest) := by
  induction hn : s.length using Nat.strongRecOn generalizing s with
  | ind n ih =>
    subst hn
    match s with
    | [] => exact ⟨[], [], .nil, rfl, .inr (.inl rfl)⟩
    | c :: r =>
      by_cases hmark : c = mark
      · exact ⟨[], c :: r, .nil, rfl, .inl ⟨r, by rw [hmark]⟩⟩
      by_cases hline : isLineEnd c = true
      · exact ⟨[], c :: r, .nil, rfl, .inr (.inr (.inr ⟨c, r, rfl, hline⟩))⟩
      by_cases hescape : c = '\\'
      · subst hescape
        cases r with
        | nil => exact ⟨[], ['\\'], .nil, rfl, .inr (.inr (.inl rfl))⟩
        | cons d r =>
          obtain ⟨body, rest, hbody, rfl, hrest⟩ := ih r.length
            (by rw [List.length_cons, List.length_cons]; omega) r rfl
          exact ⟨'\\' :: d :: body, rest, .escape hbody, rfl, hrest⟩
      · obtain ⟨body, rest, hbody, rfl, hrest⟩ := ih r.length (by simp) r rfl
        exact ⟨c :: body, rest, .plain hescape hmark (Bool.not_eq_true _ ▸ hline) hbody, rfl, hrest⟩

/-! ## Where a literal ends -/

/-- The marks of regular literals. -/
def IsRegularMark (mark : Char) : Prop := mark = '"' ∨ mark = '\''

section Closing

variable {mark : Char} {start n : Nat} {fs : List Frame}

/-- The text between the marks leaves a literal open, whatever it stands in. -/
theorem closing_inside {body : List Char} (h : Inside mark body) (rest : List Char) :
    closing (.regular mark start :: fs) n (body ++ rest)
      = closing (.regular mark start :: fs) (n + body.length) rest := by
  induction h generalizing n with
  | nil => rfl
  | @plain c r hescape hmark hline h ih =>
    rw [List.cons_append, closing, Frame.step, beq_false_of_ne hescape, beq_false_of_ne hmark,
      hline]
    show closing (.regular mark start :: fs) (n + 1) (r ++ rest) = _
    rw [ih, List.length_cons]
    congr 1
    omega
  | @escape c r h ih =>
    rw [List.cons_append, List.cons_append, closing]
    show closing (.regular mark start :: fs) (n + 1 + 1) (r ++ rest) = _
    rw [ih, List.length_cons, List.length_cons]
    congr 1
    omega

/-- The mark ends the literal. -/
theorem closing_mark (hmark : IsRegularMark mark) (rest : List Char) :
    closing (.regular mark start :: fs) n (mark :: rest) = closing fs (n + 1) rest := by
  have hescape : mark ≠ '\\' := by rcases hmark with rfl | rfl <;> decide
  rw [closing, Frame.step, beq_false_of_ne hescape, beq_self_eq_true]
  rfl

/-- Without a mark the literal is unterminated. -/
theorem closing_unended (hmark : IsRegularMark mark) {rest : List Char} (h : Unended rest) :
    closing (.regular mark start :: fs) n rest
      = .error ((Frame.regular mark start).unterminated n) := by
  rcases h with rfl | rfl | ⟨e, r, rfl, he⟩
  · rw [closing]
  · rw [closing, Frame.step]
    show closing (.regular mark start :: fs) (n + 1 + 1) [] = _
    rw [closing]
    rfl
  · have hescape : e ≠ '\\' := by rintro rfl; cases he
    have hne : e ≠ mark := by
      rintro rfl
      rcases hmark with rfl | rfl <;> cases he
    rw [closing, Frame.step, beq_false_of_ne hescape, beq_false_of_ne hne, he]
    rfl

end Closing

/-- A regular literal starts with the mark before `s`, and no raw one. -/
def OpensRegular (mark : Char) (s : List Char) : Prop :=
  mark = '\'' ∨ mark = '"' ∧ quoteRun s < 2

theorem OpensRegular.isRegularMark {mark : Char} {s : List Char} (h : OpensRegular mark s) :
    IsRegularMark mark := h.elim .inr fun h => .inl h.1

theorem literalLength?_opened {mark : Char} {s : List Char} (h : OpensRegular mark s) :
    literalLength? (mark :: s) = (closing [.regular mark 0] 1 s).map some := by
  have hopening : opening? 0 (mark :: s) = some (.regular mark 0, 0) := by
    rcases h with rfl | ⟨rfl, hrun⟩
    · rw [opening?.eq_def]
      rfl
    · rw [opening?.eq_def]
      exact if_neg (Nat.not_le.mpr hrun)
  exact literalLength?_opening hopening

/-- What a regular literal takes: the text up to the next mark, and the mark. -/
theorem literalLength?_regular {mark : Char} {s : List Char} {k : Nat} (h : OpensRegular mark s)
    (hlength : literalLength? (mark :: s) = .ok (some k)) :
    ∃ body, Inside mark body ∧ s.take (k - 1) = body ++ [mark] := by
  obtain ⟨body, rest, hbody, rfl, hrest⟩ := exists_inside mark s
  rw [literalLength?_opened h, closing_inside hbody] at hlength
  rcases hrest with ⟨r, rfl⟩ | hrest
  · rw [closing_mark h.isRegularMark, closing] at hlength
    obtain rfl : 1 + body.length + 1 = k := Option.some.inj (Except.ok.inj hlength)
    refine ⟨body, hbody, ?_⟩
    rw [show 1 + body.length + 1 - 1 = body.length + 1 by omega, List.take_length_add_append]
    rfl
  · rw [closing_unended h.isRegularMark hrest] at hlength
    cases hlength

theorem quotes_of_quoteRun {s : List Char} (h : 2 ≤ quoteRun s) : ∃ r, s = '"' :: '"' :: r := by
  match s with
  | [] => cases h
  | [c] => exact absurd (quoteRun_le [c]) (Nat.not_le.mpr h)
  | c :: d :: r =>
    unfold quoteRun at h
    rw [List.takeWhile_cons, List.takeWhile_cons] at h
    split at h
    · next hc =>
      split at h
      · next hd => exact ⟨r, by rw [eq_of_beq hc, eq_of_beq hd]⟩
      · exact absurd h (by simp)
    · exact absurd h (by simp)

/-- A raw literal takes all the quotes that it starts with. -/
theorem literalLength?_raw {s : List Char} {k : Nat} (hrun : 2 ≤ quoteRun s)
    (hlength : literalLength? ('"' :: s) = .ok (some k)) : quoteRun s < k - 1 := by
  have hopening : opening? 0 ('"' :: s) = some (.raw (quoteRun s + 1) 0, quoteRun s) := by
    rw [opening?.eq_def]
    exact if_pos hrun
  rw [literalLength?_opening hopening] at hlength
  obtain ⟨m, hclose, hm⟩ := ok_of_map hlength
  obtain rfl := Option.some.inj hm
  have hlt := (closing_bounds hclose).2.2 (List.cons_ne_nil _ _)
  omega

/-! ## Literals within literals -/

/-- A scan of the text `s` with some frames open comes to other frames and to the text `s'`. -/
inductive Passes : List Frame → Nat → List Char → List Frame → Nat → List Char → Prop
  | refl (frames : List Frame) (n : Nat) (s : List Char) : Passes frames n s frames n s
  | step {f : Frame} {fs gs frames : List Frame} {n n' extra : Nat} {c : Char} {r s : List Char}
      (hstep : f.step n c r = .ok (gs, extra))
      (h : Passes (gs ++ fs) (n + 1 + extra) (r.drop extra) frames n' s) :
      Passes (f :: fs) n (c :: r) frames n' s

theorem Passes.closing_eq {frames frames' : List Frame} {n n' : Nat} {s s' : List Char}
    (h : Passes frames n s frames' n' s') : closing frames n s = closing frames' n' s' := by
  induction h with
  | refl => rfl
  | step hstep h ih => rw [closing, hstep, ← ih]

/-- A literal starts with a quote, an at sign or a dollar sign. -/
theorem opening?_head {n extra : Nat} {c : Char} {r : List Char} {f : Frame}
    (h : opening? n (c :: r) = some (f, extra)) : c ∈ ['"', '\'', '@', '$'] := by
  by_contra hne
  simp only [List.mem_cons, List.not_mem_nil, or_false, not_or] at hne
  obtain ⟨hquote, hsingle, hat, hdollar⟩ := hne
  have hmarks : (c :: r).takeWhile isStringMark = [] := by
    rw [List.takeWhile_cons, isStringMark, beq_false_of_ne hdollar, beq_false_of_ne hat]
    rfl
  rw [opening?.eq_def] at h
  split at h
  · next heq => exact hquote (List.cons.inj heq).1
  · next heq => exact hsingle (List.cons.inj heq).1
  · next heq => exact hat (List.cons.inj heq).1
  · rw [hmarks] at h
    cases h

end Literal

/-! ## Tokens -/

/-- The token is a regular string or a character literal with the mark. A string that starts with
three quotes is a raw one. -/
def Token.IsRegular (mark : Char) (t : Token) : Prop :=
  t.kind = .character ∧ mark = '\''
    ∨ t.kind = .string ∧ mark = '"' ∧ ['"'] <+: t.value.toList
      ∧ ¬ ['"', '"', '"'] <+: t.value.toList

theorem wordKind_ne_literal (word : String) :
    wordKind word ≠ .string ∧ wordKind word ≠ .character := by
  rw [wordKind]
  split <;> decide

theorem punctuation?_ne_literal {c : Char} {r : List Char} {kind : TokenKind} {extra : Nat}
    (h : punctuation? c r = some (kind, extra)) : kind ≠ .string ∧ kind ≠ .character :=
  (by decide : ∀ kind ∈ markKinds, kind ≠ .string ∧ kind ≠ .character) _ (mem_markKinds h)

/-- A string or a character token is a literal. -/
theorem tokenAhead_literal {c : Char} {r : List Char} {kind : TokenKind} {extra : Nat}
    (h : tokenAhead c r = .ok (kind, extra)) (hkind : kind = .string ∨ kind = .character) :
    ∃ k, Literal.literalLength? (c :: r) = .ok (some k) ∧ extra = k - 1
      ∧ (kind = .character ↔ c = '\'') := by
  have hnot : ¬ (kind ≠ .string ∧ kind ≠ .character) := fun hne => hkind.elim hne.1 hne.2
  cases tokenStarts_of_ok h with
  | @literal k hliteral hliteralKind hextra =>
    refine ⟨k, hliteral, hextra, ?_⟩
    by_cases hc : c = '\'' <;> simp [hliteralKind, hc]
  | word hnone hword hwordKind hextra => exact absurd (hwordKind ▸ wordKind_ne_literal _) hnot
  | number hnone hword hnumber hnumberKind hextra => exact absurd (hnumberKind ▸ by decide) hnot
  | mark hnone hword hnumber hmark => exact absurd (punctuation?_ne_literal hmark) hnot

/-- The text of a regular literal. -/
theorem regular_of_tokenAhead {c mark : Char} {r : List Char} {extra : Nat} {t : Token}
    (h : tokenAhead c r = .ok (t.kind, extra)) (ht : t.IsRegular mark)
    (hvalue : t.value.toList = c :: r.take extra) :
    ∃ body, Literal.Inside mark body ∧ t.value.toList = mark :: (body ++ [mark]) := by
  obtain ⟨k, hlength, rfl, hkind⟩ :=
    tokenAhead_literal h (ht.elim (fun h => .inr h.1) fun h => .inl h.1)
  have hopens : c = mark ∧ Literal.OpensRegular mark r := by
    rcases ht with ⟨hcharacter, rfl⟩ | ⟨-, rfl, hquote, hraw⟩
    · exact ⟨hkind.mp hcharacter, .inl rfl⟩
    · rw [hvalue] at hquote hraw
      obtain rfl : '"' = c := (List.cons_prefix_cons.mp hquote).1
      refine ⟨rfl, .inr ⟨rfl, ?_⟩⟩
      by_contra hrun
      have hrun : 2 ≤ Literal.quoteRun r := Nat.not_lt.mp hrun
      have hlong := Literal.literalLength?_raw hrun hlength
      -- the quotes that the literal starts with are among the characters that it takes
      obtain ⟨r', rfl⟩ := Literal.quotes_of_quoteRun hrun
      obtain ⟨n, hn⟩ : ∃ n, k - 1 = n + 2 := ⟨k - 1 - 2, by omega⟩
      rw [hn] at hraw
      exact hraw ⟨r'.take n, rfl⟩
  obtain ⟨rfl, hopens⟩ := hopens
  obtain ⟨body, hbody, htake⟩ := Literal.literalLength?_regular hopens hlength
  exact ⟨body, hbody, by rw [hvalue, htake]⟩

/-- Where a literal is at fault, so is the lexeme. -/
theorem lexemeAhead_of_fault {fresh : Bool} {c : Char} {r : List Char} {fault : LexFault}
    (h : Literal.literalLength? (c :: r) = .error fault) :
    lexemeAhead fresh true c r = .error fault := by
  obtain ⟨f, extra, hopening, -⟩ := Literal.literalLength?_eq_error h
  have hplain : isBlank c = false ∧ isLineEnd c = false ∧ (c == '#') = false
      ∧ (c == '/') = false := by
    have hc := Literal.opening?_head hopening
    simp only [List.mem_cons, List.not_mem_nil, or_false] at hc
    rcases hc with rfl | rfl | rfl | rfl <;> decide
  obtain ⟨hblank, hline, hhash, hslash⟩ := hplain
  unfold lexemeAhead
  rw [hblank, hline, hhash, hslash, tokenAhead_of_fault h]
  rfl

/-! ## Sources -/

/-- The kind and the text of the first token of a source. -/
def headToken? (source : String) (defined : List String) : Option (TokenKind × List Char) :=
  (TokenStream.ofSource source defined).toOption.bind fun stream =>
    stream.all.head?.map fun t => (t.kind, t.value.toList)

theorem exists_of_headToken? {source : String} {defined : List String} {kind : TokenKind}
    {text : List Char} (h : headToken? source defined = some (kind, text)) :
    ∃ stream t, TokenStream.ofSource source defined = .ok stream ∧ t ∈ stream.all
      ∧ t.kind = kind ∧ t.value.toList = text := by
  obtain ⟨stream, hstream, h⟩ := Option.bind_eq_some_iff.mp h
  obtain ⟨t, ht, h⟩ := Option.map_eq_some_iff.mp h
  obtain ⟨hkind, htext⟩ := Prod.mk.inj h
  exact ⟨stream, t, ok_of_toOption hstream, List.mem_of_head? ht, hkind, htext⟩

/-- In active text of a source a regular literal with the mark is open before `s`. It stands by
itself or in a hole of an interpolated string, and starts at `place`. -/
structure RegularOpen (source : String) (defined : List String) (mark : Char) (s : List Char)
    (place : Place) : Prop where
  isMark : Literal.IsRegularMark mark
  reached : ∃ steps st c r f extra fs start n,
    Reaches { region := Region.start defined } source.toList steps st (c :: r)
      ∧ st.region.isActive = true ∧ Literal.opening? 0 (c :: r) = some (f, extra)
      ∧ Literal.Passes [f] (1 + extra) (r.drop extra) (.regular mark start :: fs) n s
      ∧ place = st.place.after start (c :: r)

/-- A source with an open regular literal that no mark ends has no tokens. -/
theorem RegularOpen.ofSource_eq {source : String} {defined : List String} {mark : Char}
    {body rest : List Char} {place : Place}
    (h : RegularOpen source defined mark (body ++ rest) place) (hbody : Literal.Inside mark body)
    (hrest : Literal.Unended rest) :
    TokenStream.ofSource source defined = .error
      ⟨if mark == '"' then .unterminatedString else .unterminatedCharacter, place⟩ := by
  obtain ⟨steps, st, c, r, f, extra, fs, start, n, hreach, hactive, hopening, hpasses, rfl⟩ :=
    h.reached
  have hlength : Literal.literalLength? (c :: r)
      = .error ((Literal.Frame.regular mark start).unterminated (n + body.length)) := by
    rw [Literal.literalLength?_opening hopening, Nat.add_comm 1 extra, List.drop_succ_cons,
      Nat.add_comm extra 1, hpasses.closing_eq, Literal.closing_inside hbody,
      Literal.closing_unended h.isMark hrest]
    rfl
  have hstep : st.step c r = .error (st.blame (c :: r)
      ((Literal.Frame.regular mark start).unterminated (n + body.length))) := by
    rw [ScanState.step, hactive, lexemeAhead_of_fault hlength]
  rw [TokenStream.ofSource, hreach.cut_eq, cut_step, hstep]
  rfl

/-- A regular literal of a source is what its marks enclose, so a line ends inside it only right
after a backslash that starts an escape. A source in which such a literal is open where the line or
the text ends otherwise has no tokens. -/
theorem regular_literals_end (source : String) (defined : List String) :
    (∀ stream, TokenStream.ofSource source defined = .ok stream →
      ∀ t ∈ stream.all, ∀ mark, t.IsRegular mark →
        ∃ body, Literal.Inside mark body ∧ t.value.toList = mark :: (body ++ [mark])
          ∧ ∀ pre e post, body = pre ++ e :: post → isLineEnd e = true →
            ∃ before, pre = before ++ ['\\'] ∧ Literal.Inside mark before)
      ∧ ∀ mark body rest place, RegularOpen source defined mark (body ++ rest) place →
        Literal.Inside mark body → Literal.Unended rest →
          TokenStream.ofSource source defined = .error
            ⟨if mark == '"' then .unterminatedString else .unterminatedCharacter, place⟩ := by
  constructor
  · intro stream hsource t ht mark hregular
    obtain ⟨pieces, hcut, rfl⟩ := ok_of_map hsource
    have ht : t ∈ (attach [] pieces.lexemes).1 := by
      rcases List.mem_append.mp ht with ht | ht
      · exact ht
      · rw [List.mem_singleton.mp ht] at hregular
        rcases hregular with ⟨hkind, -⟩ | ⟨hkind, -⟩ <;> cases hkind
    obtain ⟨l, hl, hlexeme, hvalue, -⟩ := exists_lexeme_of_mem_attach [] pieces.lexemes ht
    obtain ⟨c, r, extra, htoken, htext⟩ := tokenAhead_of_cut hcut hl hlexeme
    have hlist : t.value.toList = c :: r.take extra := by
      rw [hvalue, String.toList_ofList, htext]
    obtain ⟨body, hbody, heq⟩ := regular_of_tokenAhead htoken hregular hlist
    exact ⟨body, hbody, heq, fun pre e post hsplit he => hbody.before_lineEnd hsplit he⟩
  · intro mark body rest place hopen hbody hrest
    exact hopen.ofSource_eq hbody hrest

/-- An escaped quote and an escaped line end in a string, and a character literal that is left open
in a hole of an interpolated string. -/
theorem regular_literals_end_escaped :
    (∃ stream t body, TokenStream.ofSource "\"a\\\"\\\nb\"" [] = .ok stream ∧ t ∈ stream.all
      ∧ t.IsRegular '"' ∧ Literal.Inside '"' body ∧ t.value.toList = '"' :: (body ++ ['"']))
      ∧ TokenStream.ofSource "$\"\x7b'a\n" [] = .error ⟨.unterminatedCharacter, ⟨1, 4⟩⟩ := by
  constructor
  · have hhead : headToken? "\"a\\\"\\\nb\"" []
        = some (.string, ['"', 'a', '\\', '"', '\\', '\n', 'b', '"']) := by decide +kernel
    obtain ⟨stream, t, hstream, ht, hkind, hvalue⟩ := exists_of_headToken? hhead
    have hregular : t.IsRegular '"' :=
      .inr ⟨hkind, rfl, by rw [hvalue]; decide, by rw [hvalue]; decide⟩
    obtain ⟨body, hbody, hlist, -⟩ := (regular_literals_end _ _).1 stream hstream t ht '"' hregular
    exact ⟨stream, t, body, hstream, ht, hregular, hbody, hlist⟩
  · have hopen : RegularOpen "$\"\x7b'a\n" [] '\'' (['a'] ++ ['\n']) ⟨1, 4⟩ :=
      ⟨.inr rfl, [], _, '$', ['"', '\x7b', '\'', 'a', '\n'], _, _, _, 3, 4, .start, rfl, rfl,
        .step rfl (.step rfl (.refl _ _ _)), rfl⟩
    exact (regular_literals_end _ _).2 '\'' ['a'] ['\n'] ⟨1, 4⟩ hopen
      (.plain (by decide) (by decide) rfl .nil) (.inr (.inr ⟨'\n', [], rfl, rfl⟩))

/-- A backslash at the end of a line takes a string on to the next line. -/
theorem string_past_line_end :
    ∃ stream t, TokenStream.ofSource "\"a\\\nb\"" [] = .ok stream ∧ t ∈ stream.all
      ∧ t.kind = .string ∧ ['"'] <+: t.value.toList ∧ ¬ ['"', '"', '"'] <+: t.value.toList
      ∧ '\n' ∈ t.value.toList := by
  have hhead : headToken? "\"a\\\nb\"" [] = some (.string, ['"', 'a', '\\', '\n', 'b', '"']) := by
    decide +kernel
  obtain ⟨stream, t, hstream, ht, hkind, hvalue⟩ := exists_of_headToken? hhead
  refine ⟨stream, t, hstream, ht, hkind, ?_⟩
  rw [hvalue]
  decide

end NullableMarker
