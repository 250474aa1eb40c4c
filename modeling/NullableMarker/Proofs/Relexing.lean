import NullableMarker.Proofs.Forms
import NullableMarker.Proofs.LexemeLocality
import NullableMarker.Proofs.Tiling

/-!
# Reading a marked text again

A text with question marks put in after some of its tokens has the same lexemes as before, with one
more for each mark. Directives stay directives, so the same regions are active.

* `SameLine` — what a disabled region looks at
* `Lexeme.expand` — lexemes with marks after some of them
* `cut_expand` — the lexemes of a marked text
-/

namespace NullableMarker

open Text

/-! ## The first line of a text -/

/-- Texts that start with the same line, its end included. -/
def SameLine (x x' : List Char) : Prop :=
  x = x' ∨ ∃ u e w w', isLineEnd e = true ∧ x = u ++ e :: w ∧ x' = u ++ e :: w'

theorem SameLine.prepend (b : List Char) {x x' : List Char} (h : SameLine x x') :
    SameLine (b ++ x) (b ++ x') := by
  rcases h with rfl | ⟨u, e, w, w', he, rfl, rfl⟩
  · exact .inl rfl
  · exact .inr ⟨b ++ u, e, w, w', he, by simp, by simp⟩

theorem SameLine.head?_eq {x x' : List Char} (h : SameLine x x') : x'.head? = x.head? := by
  rcases h with rfl | ⟨u, e, w, w', he, rfl, rfl⟩
  · rfl
  · cases u <;> rfl

/-- Texts that start with the same end of line, or are both empty. -/
theorem SameLine.of_head? {x x' : List Char} (h : x'.head? = x.head?)
    (hx : x.head?.any inLine = false) : SameLine x x' := by
  cases x with
  | nil => exact .inl (List.head?_eq_none_iff.mp h).symm
  | cons e w =>
    obtain ⟨w', rfl⟩ := List.head?_eq_some_iff.mp h
    exact .inr ⟨[], e, w, w', by simpa [inLine] using hx, rfl, rfl⟩

/-- The name of the directive in a line, without a window. -/
def lineName (s : List Char) : List Char :=
  match s.dropWhile isMargin with
  | '#' :: r => (r.dropWhile fun c => c == ' ' || c == '\t').takeWhile Char.isAlpha
  | _ => []

section Lines

variable {e : Char} {p : Char → Bool}

theorem dropWhile_before (hp : p e = false) (u y : List Char) :
    (u ++ e :: y).dropWhile p = u.dropWhile p ++ e :: y := by
  induction u with
  | nil => simp [hp]
  | cons c u ih => cases hc : p c <;> simp [hc, ih]

theorem takeWhile_before (hp : p e = false) (u y : List Char) :
    (u ++ e :: y).takeWhile p = u.takeWhile p := by
  induction u with
  | nil => simp [hp]
  | cons c u ih => cases hc : p c <;> simp [hc, ih]

/-- A name that a line holds ends with the line. -/
theorem lineName_before (he : isLineEnd e = true) (u y : List Char) :
    lineName (u ++ e :: y) = lineName u := by
  simp only [isLineEnd, Bool.or_eq_true, beq_iff_eq] at he
  have hmargin : isMargin e = false := by rcases he with rfl | rfl <;> rfl
  have hspace : (e == ' ' || e == '\t') = false := by rcases he with rfl | rfl <;> rfl
  have halpha : e.isAlpha = false := by rcases he with rfl | rfl <;> rfl
  have hhash : e ≠ '#' := by rcases he with rfl | rfl <;> decide
  unfold lineName
  rw [dropWhile_before hmargin]
  cases u.dropWhile isMargin with
  | nil =>
    rw [List.nil_append]
    split
    · next heq => cases heq; exact absurd rfl hhash
    · rfl
  | cons c r =>
    by_cases hc : c = '#'
    · subst hc
      simp only [List.cons_append]
      rw [dropWhile_before (p := fun c => c == ' ' || c == '\t') hspace,
        takeWhile_before halpha]
    · rw [List.cons_append]
      split
      · next heq => cases heq; exact absurd rfl hc
      · split
        · next heq => cases heq; exact absurd rfl hc
        · rfl

theorem directiveName_line (he : isLineEnd e = true) (u w w' : List Char) :
    directiveName (u ++ e :: w) = directiveName (u ++ e :: w') := by
  show lineName ((u ++ e :: w).take directiveWindow) = lineName ((u ++ e :: w').take directiveWindow)
  by_cases hlen : directiveWindow ≤ u.length
  · rw [List.take_append_of_le_length hlen, List.take_append_of_le_length hlen]
  · have hcut : ∀ w : List Char, (u ++ e :: w).take directiveWindow
        = u ++ e :: w.take (directiveWindow - u.length - 1) := by
      intro w
      obtain ⟨k, hk⟩ : ∃ k, directiveWindow - u.length = k + 1 :=
        ⟨directiveWindow - u.length - 1, by omega⟩
      rw [List.take_append, List.take_of_length_le (by omega), hk]
      rfl
    rw [hcut, hcut, lineName_before he, lineName_before he]

end Lines

theorem SameLine.startsConditional_eq {x x' : List Char} (h : SameLine x x') :
    startsConditional x' = startsConditional x := by
  rcases h with rfl | ⟨u, e, w, w', he, rfl, rfl⟩
  · rfl
  · unfold startsConditional
    rw [directiveName_line he u w' w]

/-- A disabled region ends where it did. -/
theorem disabledLength_sameLine {lineStart : Bool} {b x x' : List Char} (h : SameLine x x')
    (hlen : disabledLength lineStart (b ++ x) = b.length) :
    disabledLength lineStart (b ++ x') = b.length := by
  induction b generalizing lineStart with
  | nil =>
    rw [List.nil_append] at hlen ⊢
    have hhead := h.head?_eq
    cases x with
    | nil =>
      rw [List.head?_eq_none_iff.mp hhead]
      rfl
    | cons c r =>
      obtain ⟨r', rfl⟩ := List.head?_eq_some_iff.mp hhead
      unfold disabledLength at hlen ⊢
      rw [h.startsConditional_eq]
      split at hlen
      · next hc => rw [if_pos hc]; rfl
      · simp at hlen
  | cons c b ih =>
    have hstart : startsConditional (c :: (b ++ x')) = startsConditional (c :: (b ++ x)) :=
      (h.prepend (c :: b)).startsConditional_eq
    have hends : endsLine c (b ++ x') = endsLine c (b ++ x) := by
      unfold endsLine
      rw [(h.prepend b).head?_eq]
    rw [List.cons_append, disabledLength] at hlen ⊢
    rw [hstart, hends]
    split at hlen
    · simp at hlen
    · next hc =>
      rw [if_neg hc]
      rw [List.length_cons, Nat.add_right_cancel_iff] at hlen ⊢
      exact ih hlen

/-! ## One lexeme -/

/-- The end of a comment has two characters. -/
theorem commentEnd?_ne_zero (s : List Char) : commentEnd? s ≠ some 0 := by
  intro hs
  unfold commentEnd? at hs
  split at hs
  · cases hs
  · obtain ⟨m, -, hm⟩ := Option.map_eq_some_iff.mp hs
    omega
  · cases hs

theorem commentEnd?_append {b x : List Char} (x' : List Char)
    (h : commentEnd? (b ++ x) = some b.length) : commentEnd? (b ++ x') = some b.length := by
  generalize hs : b ++ x = s at h
  fun_induction commentEnd? s generalizing b with
  | case1 r =>
    rcases b with _ | ⟨c, _ | ⟨d, _ | ⟨a, b⟩⟩⟩
    · simp at h
    · simp at h
    · cases hs
      rfl
    · simp at h
  | case2 c r hne ih =>
    obtain ⟨m, hm, hlen⟩ := Option.map_eq_some_iff.mp h
    cases b with
    | nil => simp at hlen
    | cons d b =>
      rw [List.cons_append, List.cons.injEq] at hs
      obtain ⟨rfl, rfl⟩ := hs
      rw [List.length_cons, Nat.add_right_cancel_iff] at hlen
      subst hlen
      have hrest := ih rfl hm
      rw [List.cons_append, commentEnd?, hrest]
      · rfl
      · intro r' hd hr'
        cases b with
        | nil => exact commentEnd?_ne_zero _ hm
        | cons a b =>
          rw [List.cons_append, List.cons.injEq] at hr'
          exact hne (b ++ x) hd (by rw [hr'.1]; rfl)
  | case3 => cases h

/-- Trivia does not notice what changes after it, if the next character stays, and in a disabled
region the line. -/
theorem lexemeAhead_trivia {fresh active : Bool} {c : Char} {b x x' : List Char} {kind : TriviaKind}
    (hhead : x'.head? = x.head?) (hline : active = false → SameLine x x')
    (h : lexemeAhead fresh active c (b ++ x) = .ok (.trivia kind, b.length)) :
    lexemeAhead fresh active c (b ++ x') = .ok (.trivia kind, b.length) := by
  have hnext : (b ++ x').head? = (b ++ x).head? := by
    cases b with
    | nil => exact hhead
    | cons d b => rfl
  have hrun : ∀ p : Char → Bool, b.length = ((b ++ x).takeWhile p).length →
      b.length = ((b ++ x').takeWhile p).length := by
    intro p hp
    rwa [takeWhile_append_of_le (fun hx' => by rw [← hhead]; exact hx') (Nat.le_of_eq hp.symm)]
  have hsame : isDisabled fresh active c (b ++ x') = isDisabled fresh active c (b ++ x) := by
    cases active with
    | true => rfl
    | false =>
      have hstart := ((hline rfl).prepend (c :: b)).startsConditional_eq
      rw [List.cons_append, List.cons_append] at hstart
      rw [isDisabled, hstart, isDisabled]
  refine LexemeStarts.ok ?_
  cases lexemeStarts_of_ok h with
  | disabledText hdisabled hlength =>
    have hactive := (isDisabled_iff.mp hdisabled).1
    exact .disabledText (hsame.trans hdisabled)
      (disabledLength_sameLine (b := c :: b) (hline hactive) hlength)
  | whitespace hread hblank hextra => exact .whitespace (hsame.trans hread) hblank (hrun _ hextra)
  | endOfLine hend hextra => exact .endOfLine hend (by rw [hnext]; exact hextra)
  | directive hread hhash hfresh hextra =>
    exact .directive (hsame.trans hread) hhash hfresh (hrun _ hextra)
  | lineComment hactive hslash hslash' hextra =>
    exact .lineComment hactive hslash (hnext.trans hslash') (hrun _ hextra)
  | comment hactive hslash hstar hcomment hextra =>
    cases b with
    | nil => cases hextra
    | cons d b =>
      obtain rfl := Nat.succ.inj hextra
      exact .comment hactive hslash (hnext.trans hstar) (commentEnd?_append x' hcomment) rfl

theorem head?_drop_takeWhile (p : Char → Bool) (r : List Char) :
    (r.drop (r.takeWhile p).length).head?.any p = false := by
  induction r with
  | nil => rfl
  | cons d r ih =>
    rw [List.takeWhile_cons]
    cases hd : p d with
    | false => simp [hd]
    | true => exact ih

/-- A directive takes the rest of its line. -/
theorem head?_of_directive {fresh active : Bool} {c : Char} {r : List Char} {extra : Nat}
    (h : lexemeAhead fresh active c r = .ok (.trivia .directive, extra)) :
    (r.drop extra).head?.any inLine = false := by
  cases lexemeStarts_of_ok h with
  | directive hread hhash hfresh hextra =>
    rw [hextra]
    exact head?_drop_takeWhile inLine r

/-- No token starts in a disabled region. -/
theorem active_of_token {fresh active : Bool} {c : Char} {r : List Char} {kind : TokenKind}
    {extra : Nat} (h : lexemeAhead fresh active c r = .ok (.token kind, extra)) : active = true := by
  cases lexemeStarts_of_ok h with
  | token hactive hblank hend hhash hslash hstar htoken => exact hactive

/-- A token does not notice question marks put in after it. -/
theorem lexemeAhead_token {fresh active : Bool} {c : Char} {b x x' : List Char} {kind : TokenKind}
    (hins : Inserted x x')
    (h : lexemeAhead fresh active c (b ++ x) = .ok (.token kind, b.length)) :
    lexemeAhead fresh active c (b ++ x') = .ok (.token kind, b.length) := by
  -- no comment starts where none did
  have hcomment : ∀ d, d ≠ '?' → (c == '/' && (b ++ x).head? == some d) = false →
      (c == '/' && (b ++ x').head? == some d) = false := by
    intro d hd hno
    rw [← Bool.not_eq_true, Bool.and_eq_true, beq_iff_eq, beq_iff_eq] at hno ⊢
    exact fun hyes => hno ⟨hyes.1, (hins.prepend b).head?_eq hd hyes.2⟩
  cases lexemeStarts_of_ok h with
  | token hactive hblank hend hhash hslash hstar htoken =>
    exact LexemeStarts.ok (.token hactive hblank hend hhash (hcomment '/' (by decide) hslash)
      (hcomment '*' (by decide) hstar) (tokenStarts_of_ok (tokenAhead_inserted hins htoken.ok)))

/-- A question mark is a token. -/
theorem lexemeAhead_question (fresh : Bool) (r : List Char) :
    lexemeAhead fresh true '?' r = .ok (.token .question, 0) := by
  have hnone : Literal.literalLength? ('?' :: r) = .ok none := by
    rw [Literal.literalLength?_eq_none_iff, Literal.opening?_marked (by decide) (by decide) (by simp)]
    rfl
  have hmark : punctuation? '?' r = some (.question, 0) := by
    have hfirst : ∀ mark ∈ doubleMarks, mark.1.head? ≠ some '?' := by decide
    have hdouble : doubleMarks.lookup ('?' :: r.take 1) = none := by
      rw [← Option.not_isSome_iff_eq_none]
      intro hsome
      obtain ⟨k, hk⟩ := Option.isSome_iff_exists.mp hsome
      exact hfirst _ (mem_of_lookup_eq_some hk) rfl
    rw [punctuation?, hdouble]
    rfl
  have hword : startsWord '?' r = false := by
    rw [startsWord, show isWordStart '?' = false by decide +kernel]
    rfl
  exact LexemeStarts.ok (.token rfl (by decide) (by decide) rfl rfl rfl
    (.mark hnone hword (by simp [Number.startsNumber]) hmark))

/-! ## Lexemes with marks -/

namespace Lexeme

/-- What a lexeme is, wherever it stands. -/
def face (l : Lexeme) : LexemeKind × List Char := (l.kind, l.text)

/-- A question mark that is put in. -/
def questionMark : Lexeme := ⟨.token .question, ['?'], 0, Place.first⟩

/-- Lexemes, each told whether a mark follows it, with those marks. -/
def expand (marks : List (Lexeme × Bool)) : List Lexeme :=
  marks.flatMap fun m => if m.2 then [m.1, questionMark] else [m.1]

@[simp] theorem expand_nil : expand [] = [] := rfl

@[simp] theorem expand_unmarked (l : Lexeme) (ms : List (Lexeme × Bool)) :
    expand ((l, false) :: ms) = l :: expand ms := rfl

@[simp] theorem expand_marked (l : Lexeme) (ms : List (Lexeme × Bool)) :
    expand ((l, true) :: ms) = l :: questionMark :: expand ms := rfl

/-- A token after which a line is no longer blank. -/
def Closes (l : Lexeme) : Prop :=
  (∃ kind, l.kind = .token kind)
    ∧ l.text.getLast?.all (fun c => !isBlank c && !isLineEnd c) = true

theorem inserted_expand (ms : List (Lexeme × Bool)) :
    Inserted (textOf (ms.map (·.1))) (textOf (expand ms)) := by
  induction ms with
  | nil => exact .nil
  | cons m ms ih =>
    obtain ⟨l, flag⟩ := m
    cases flag with
    | false => exact ih.prepend l.text
    | true => exact (Inserted.mark ih).prepend l.text

/-- No mark comes before the first lexeme. -/
theorem head?_expand {ms : List (Lexeme × Bool)} (h : ∀ m ∈ ms, m.1.text ≠ []) :
    (textOf (expand ms)).head? = (textOf (ms.map (·.1))).head? := by
  cases ms with
  | nil => rfl
  | cons m ms =>
    obtain ⟨l, flag⟩ := m
    have hne : l.text ≠ [] := h (l, flag) (by simp)
    obtain ⟨c, cs, hl⟩ := List.exists_cons_of_ne_nil hne
    cases flag with
    | false =>
      show (l.text ++ textOf (expand ms)).head? = (l.text ++ textOf (ms.map (·.1))).head?
      rw [hl]
      rfl
    | true =>
      show (l.text ++ textOf (questionMark :: expand ms)).head?
        = (l.text ++ textOf (ms.map (·.1))).head?
      rw [hl]
      rfl

end Lexeme

theorem Lexeme.TiledFrom.text_ne_nil {n : Nat} {ls : List Lexeme} (h : Lexeme.TiledFrom n ls) :
    ∀ l ∈ ls, l.text ≠ [] := by
  induction ls generalizing n with
  | nil => simp
  | cons l ls ih =>
    intro k hk
    rcases List.mem_cons.mp hk with rfl | hk
    · exact h.2.1
    · exact ih h.2.2.2 k hk

theorem cut_text_ne_nil {st : ScanState} {s : List Char} {pieces : Cut} (h : cut st s = .ok pieces)
    {ms : List (Lexeme × Bool)} (hms : ms.map (·.1) = pieces.lexemes) : ∀ m ∈ ms, m.1.text ≠ [] :=
  fun m hm => (cut_tiled h).2.1.text_ne_nil m.1 (hms ▸ List.mem_map.mpr ⟨m, hm, rfl⟩)

theorem isActive_of_regionAfter {st : ScanState} {kind : LexemeKind} {text : List Char}
    {region : Region} (h : st.regionAfter kind text = .ok region)
    (hkind : kind ≠ .trivia .directive) : region = st.region := by
  unfold ScanState.regionAfter at h
  split at h
  · exact absurd rfl hkind
  · cases h
    rfl

/-- In a disabled region no mark is put into the line. -/
theorem cut_sameLine {st : ScanState} {s : List Char} {pieces : Cut} (h : cut st s = .ok pieces)
    {ms : List (Lexeme × Bool)} (hms : ms.map (·.1) = pieces.lexemes)
    (hclose : ∀ m ∈ ms, m.2 = true → m.1.Closes) (hactive : st.region.isActive = false) :
    SameLine s (Lexeme.textOf (Lexeme.expand ms)) := by
  fun_induction cut st s generalizing pieces ms with
  | case1 st _ =>
    cases h
    rw [List.map_eq_nil_iff.mp hms]
    exact .inl rfl
  | case2 => cases h
  | case3 => cases h
  | case4 => cases h
  | case5 => cases h
  | case6 st c r kind extra hahead region hregion rest hrest ih =>
    cases h
    obtain ⟨hextra, -⟩ := lexemeAhead_bounds hahead
    obtain ⟨⟨l, flag⟩, ms, rfl, hl, hrestms⟩ := List.map_eq_cons_iff.mp hms
    have hl : l = ⟨kind, c :: r.take extra, st.offset, st.place⟩ := hl
    obtain ⟨kind, rfl⟩ : ∃ k, kind = .trivia k := by
      cases kind with
      | trivia k => exact ⟨k, rfl⟩
      | token k =>
        rw [active_of_token hahead] at hactive
        cases hactive
    have hflag : flag = false := by
      rw [← Bool.not_eq_true]
      rintro rfl
      obtain ⟨⟨k, hk⟩, -⟩ := hclose (l, true) (by simp) rfl
      rw [hl] at hk
      cases hk
    subst hflag hl
    have hclose := fun m hm => hclose m (List.mem_cons_of_mem _ hm)
    have hhead : (Lexeme.textOf (Lexeme.expand ms)).head? = (r.drop extra).head? := by
      rw [Lexeme.head?_expand (cut_text_ne_nil hrest hrestms), hrestms, (cut_tiled hrest).1]
    have hline : SameLine (r.drop extra) (Lexeme.textOf (Lexeme.expand ms)) →
        SameLine (c :: r) (Lexeme.textOf (Lexeme.expand ((⟨.trivia kind, c :: r.take extra,
          st.offset, st.place⟩, false) :: ms))) := by
      intro hline
      have := hline.prepend (c :: r.take extra)
      rw [List.cons_append, List.take_append_drop] at this
      exact this
    refine hline ?_
    by_cases hkind : kind = .directive
    · -- a directive takes the rest of the line
      subst hkind
      exact SameLine.of_head? hhead (head?_of_directive hahead)
    · exact ih hrest hrestms hclose (by
        rw [isActive_of_regionAfter hregion (by simpa using hkind)]
        exact hactive)

theorem regionAfter_congr {st st' : ScanState} {kind : LexemeKind} {text : List Char}
    {region : Region} (hregion : st'.region = st.region)
    (h : st.regionAfter kind text = .ok region) : st'.regionAfter kind text = .ok region := by
  unfold ScanState.regionAfter at h ⊢
  rw [hregion]
  split at h
  · split at h
    · exact h
    · cases h
  · exact h

/-- Cutting off one lexeme. -/
theorem cut_cons (st : ScanState) {c : Char} {b x : List Char} {kind : LexemeKind} {region : Region}
    {rest : Cut}
    (hahead : lexemeAhead st.fresh st.region.isActive c (b ++ x) = .ok (kind, b.length))
    (hregion : st.regionAfter kind (c :: b) = .ok region)
    (hrest : cut { st.advance (b.length + 1) (c :: (b ++ x)) with region := region } x = .ok rest) :
    cut st (c :: (b ++ x))
      = .ok { rest with lexemes := ⟨kind, c :: b, st.offset, st.place⟩ :: rest.lexemes } := by
  rw [cut, hahead]
  dsimp only
  rw [List.take_left, hregion]
  dsimp only
  rw [List.drop_left, hrest]

/-- The line is no longer blank after a token that closes. -/
theorem fresh_of_closes {text : List Char} (hne : text ≠ [])
    (h : text.getLast?.all (fun c => !isBlank c && !isLineEnd c) = true) (fresh : Bool) :
    text.foldl ScanState.freshAfter fresh = false := by
  have hlast := List.getLast?_eq_some_getLast hne
  obtain ⟨init, hinit⟩ := List.getLast?_eq_some_iff.mp hlast
  generalize text.getLast hne = last at hinit
  subst hinit
  rw [List.getLast?_concat, Option.all_some, Bool.and_eq_true, Bool.not_eq_true',
    Bool.not_eq_true'] at h
  rw [List.foldl_append, List.foldl_cons, List.foldl_nil, ScanState.freshAfter, h.1, h.2,
    Bool.and_false, Bool.or_false]

/-- The lexemes of a text with marks put in: those of the text, and the marks. -/
theorem cut_expand {st : ScanState} (st' : ScanState) {s : List Char} {pieces : Cut}
    (h : cut st s = .ok pieces) {ms : List (Lexeme × Bool)} (hms : ms.map (·.1) = pieces.lexemes)
    (hclose : ∀ m ∈ ms, m.2 = true → m.1.Closes) (hregion : st'.region = st.region)
    (hfresh : st'.fresh = st.fresh) :
    ∃ pieces', cut st' (Lexeme.textOf (Lexeme.expand ms)) = .ok pieces'
      ∧ pieces'.lexemes.map Lexeme.face = (Lexeme.expand ms).map Lexeme.face
      ∧ pieces'.final.region = pieces.final.region := by
  fun_induction cut st s generalizing pieces ms st' with
  | case1 st hgroups =>
    cases h
    rw [List.map_eq_nil_iff.mp hms]
    refine ⟨⟨[], st'⟩, ?_, rfl, hregion⟩
    show cut st' [] = _
    rw [cut, hregion, if_pos hgroups]
  | case2 => cases h
  | case3 => cases h
  | case4 => cases h
  | case5 => cases h
  | case6 st c r kind extra hahead region hafter rest hrest ih =>
    cases h
    obtain ⟨hextra, -⟩ := lexemeAhead_bounds hahead
    obtain ⟨⟨l, flag⟩, ms, rfl, hlexeme, hrestms⟩ := List.map_eq_cons_iff.mp hms
    have hl : l = ⟨kind, c :: r.take extra, st.offset, st.place⟩ := hlexeme
    have hrestclose := fun m hm => hclose m (List.mem_cons_of_mem _ hm)
    -- the text of the lexeme, and what follows it before the marks are put in
    obtain ⟨b, x, rfl, rfl⟩ : ∃ b x, r = b ++ x ∧ extra = b.length :=
      ⟨r.take extra, r.drop extra, (List.take_append_drop extra r).symm, by
        rw [List.length_take]; omega⟩
    rw [List.take_left] at hl hafter
    rw [List.drop_left] at hrest ih
    have htext : x = Lexeme.textOf (ms.map (·.1)) := by rw [hrestms, (cut_tiled hrest).1]
    have hins : Inserted x (Lexeme.textOf (Lexeme.expand ms)) := by
      rw [htext]
      exact Lexeme.inserted_expand ms
    have hadvance : ∀ y, (st'.advance (b.length + 1) (c :: (b ++ y))).fresh
        = (st.advance (b.length + 1) (c :: (b ++ x))).fresh := by
      intro y
      simp [ScanState.advance, hfresh]
    rw [← hregion, ← hfresh] at hahead
    have hafter' := regionAfter_congr hregion hafter
    cases flag with
    | false =>
      have hahead' : lexemeAhead st'.fresh st'.region.isActive c
          (b ++ Lexeme.textOf (Lexeme.expand ms)) = .ok (kind, b.length) := by
        cases kind with
        | token k => exact lexemeAhead_token hins hahead
        | trivia k =>
          refine lexemeAhead_trivia ?_ ?_ hahead
          · rw [htext, Lexeme.head?_expand (cut_text_ne_nil hrest hrestms)]
          · intro hactive
            by_cases hk : k = .directive
            · subst hk
              refine SameLine.of_head? ?_ (by simpa using head?_of_directive hahead)
              rw [htext, Lexeme.head?_expand (cut_text_ne_nil hrest hrestms)]
            · refine cut_sameLine hrest hrestms hrestclose ?_
              rw [isActive_of_regionAfter hafter' (by simpa using hk)]
              exact hactive
      obtain ⟨pieces', hcut, hfaces, hfinal⟩ := ih { st'.advance (b.length + 1)
        (c :: (b ++ Lexeme.textOf (Lexeme.expand ms))) with region := region } hrest hrestms
        hrestclose rfl (hadvance _)
      have hwhole := cut_cons st' hahead' hafter' hcut
      rw [Lexeme.expand_unmarked, Lexeme.textOf_cons, List.map_cons, ← hfaces, hl]
      exact ⟨_, hwhole, rfl, hfinal⟩
    | true =>
      obtain ⟨⟨k, hk⟩, hlast⟩ := hclose (l, true) (by simp) rfl
      have hkind : kind = .token k := by
        rw [hl] at hk
        exact hk
      subst hkind
      have hactive : st'.region.isActive = true := active_of_token hahead
      have hsame : region = st'.region := isActive_of_regionAfter hafter' (by simp)
      have hahead' := lexemeAhead_token (Inserted.mark hins) hahead
      have hnotFresh : ∀ y, (st'.advance (b.length + 1) (c :: (b ++ y))).fresh = false := by
        intro y
        rw [hl] at hlast
        have := fresh_of_closes (List.cons_ne_nil c b) hlast st'.fresh
        simpa [ScanState.advance] using this
      obtain ⟨pieces', hcut, hfaces, hfinal⟩ := ih { ({ st'.advance (b.length + 1)
        (c :: (b ++ '?' :: Lexeme.textOf (Lexeme.expand ms))) with region := region }
          : ScanState).advance 1 ('?' :: Lexeme.textOf (Lexeme.expand ms)) with region := region }
        hrest hrestms hrestclose rfl (by
          show ScanState.freshAfter _ '?' = _
          rw [← hadvance x, hnotFresh, hnotFresh]
          rfl)
      have hquestion := cut_cons (b := []) { st'.advance (b.length + 1)
        (c :: (b ++ '?' :: Lexeme.textOf (Lexeme.expand ms))) with region := region }
        (by
          show lexemeAhead _ region.isActive '?' _ = _
          rw [hsame, hactive]
          exact lexemeAhead_question _ _) rfl hcut
      have hwhole := cut_cons st' hahead' hafter' hquestion
      rw [Lexeme.expand_marked, Lexeme.textOf_cons, Lexeme.textOf_cons, List.map_cons, List.map_cons,
        ← hfaces, hl]
      exact ⟨_, hwhole, rfl, hfinal⟩

end NullableMarker
