import Mathlib.Data.List.Induction
import Mathlib.Data.List.TakeWhile
import NullableMarker.Proofs.LineLocality
import NullableMarker.Proofs.MarkedStream
import NullableMarker.Proofs.Scans

/-!
# Where trivia goes

No token ends with a blank or at the end of a line, so on the rest of its line no directive starts
and nothing is disabled: what trails a token is blanks and comments, and then the end of the line. If
the line does not end there, the next token follows at once. Directives stand in what leads a token,
each of them first on its line.

* `Trails` — trivia that trails a token
* `fresh_of_token` — a line is not blank after a token
* `trails_of_cut` — what comes after a token
* `directive_of_cut` — where directives stand
* `trivia_attached` — the trivia of the tokens of a source
-/

namespace NullableMarker

open Text

/-! ## The ends of literals -/

namespace Literal

/-- The characters that literals and their holes end with. -/
def closers : List Char := ['"', '\'', '}']

/-- A regular frame is one of a string or a character. -/
def Frame.IsQuoted : Frame → Prop
  | regular mark _ => mark ∈ closers
  | _ => True

theorem opening?_quoted {n extra : Nat} {s : List Char} {f : Frame}
    (h : opening? n s = some (f, extra)) : f.IsQuoted := by
  unfold opening? at h
  split at h
  · split at h <;> cases h
    · trivial
    · exact (by decide : '"' ∈ closers)
  · cases h
    exact (by decide : '\'' ∈ closers)
  · cases h
    trivial
  · simp only at h
    split at h
    · split at h
      · split at h <;> cases h <;> trivial
      · cases h
    · cases h

/-- The frames that replace a frame are the frame itself, holes, and frames that are opened. -/
theorem Frame.step_quoted {f : Frame} (hf : f.IsQuoted) {n extra : Nat} {c : Char} {r : List Char}
    {gs : List Frame} (h : f.step n c r = .ok (gs, extra)) : ∀ g ∈ gs, g.IsQuoted := by
  have hhole : ∀ braces, (hole braces).IsQuoted := fun _ => trivial
  unfold Frame.step at h
  repeat' split at h
  all_goals cases h
  all_goals simp only [List.forall_mem_cons, List.not_mem_nil, false_imp_iff, implies_true, and_true,
    hf, hhole]
  next hopen => exact opening?_quoted hopen

/-- A frame that closes ends with closing characters. -/
theorem Frame.step_nil_mem {f : Frame} (hf : f.IsQuoted) {n extra : Nat} {c : Char} {r : List Char}
    (h : f.step n c r = .ok ([], extra)) : ∀ d ∈ c :: r.take extra, d ∈ closers := by
  have hone : ∀ e ∈ closers, (c == e) = true → ∀ d ∈ c :: r.take 0, d ∈ closers := by
    intro e he hc
    rw [eq_of_beq hc]
    exact List.forall_mem_singleton.mpr he
  have hquoted : '"' ∈ closers := by decide
  unfold Frame.step at h
  cases f with
  | regular mark start =>
    dsimp only at h
    split at h
    · cases h
    split at h
    · next hmark =>
      cases h
      exact hone mark hf hmark
    · split at h <;> cases h
  | verbatim start =>
    dsimp only at h
    split at h
    · next hquote =>
      split at h <;> cases h
      exact hone '"' hquoted hquote
    · cases h
  | raw quotes start =>
    dsimp only at h
    split at h
    · next hquote =>
      split at h <;> cases h
      -- the quotes that follow belong to the end
      rw [show r.take (quoteRun r) = r.takeWhile (· == '"') from take_takeWhile _ r]
      refine List.forall_mem_cons.mpr ⟨?_, fun d hd => ?_⟩
      · rw [eq_of_beq hquote]
        exact hquoted
      · rw [eq_of_beq (List.mem_takeWhile_imp (p := (· == '"')) hd)]
        exact hquoted
    · cases h
  | interpolated isVerbatim dollars start =>
    dsimp only at h
    split at h
    · cases h
    split at h
    · next hquote =>
      split at h <;> cases h
      exact hone '"' hquoted hquote
    split at h
    · split at h <;> cases h
    · split at h <;> cases h
  | hole braces =>
    dsimp only at h
    split at h
    · cases h
    split at h
    · next hbrace =>
      split at h <;> cases h
      exact hone '}' (by decide) hbrace
    · split at h <;> cases h

/-- Open frames are closed by a closing character. -/
theorem closing_last {frames : List Frame} {n m : Nat} {s : List Char}
    (hframes : ∀ f ∈ frames, f.IsQuoted) (hne : frames ≠ []) (h : closing frames n s = .ok m) :
    ∃ d ∈ closers, (s.take (m - n)).getLast? = some d := by
  fun_induction closing frames n s with
  | case1 n s => exact absurd rfl hne
  | case2 n f fs => cases h
  | case3 n f fs c r e he => cases h
  | case4 n f fs c r gs extra hstep ih =>
    obtain ⟨hf, hfs⟩ := List.forall_mem_cons.mp hframes
    by_cases hgs : gs ++ fs = []
    · obtain ⟨rfl, rfl⟩ := List.append_eq_nil_iff.mp hgs
      rw [List.append_nil, closing] at h
      obtain rfl := Except.ok.inj h
      have hne' := List.cons_ne_nil c (r.take extra)
      refine ⟨_, Frame.step_nil_mem hf hstep _ (List.getLast_mem hne'), ?_⟩
      rw [show n + 1 + extra - n = extra + 1 by omega, List.take_succ_cons]
      exact List.getLast?_eq_some_getLast hne'
    · have hframes' := List.forall_mem_append.mpr ⟨Frame.step_quoted hf hstep, hfs⟩
      obtain ⟨d, hd, hlast⟩ := ih hframes' hgs h
      have hle := (closing_bounds h).1
      refine ⟨d, hd, ?_⟩
      rw [show m - n = extra + (m - (n + 1 + extra)) + 1 by omega, List.take_succ_cons, List.take_add,
        ← List.cons_append, List.getLast?_append, hlast]
      rfl

/-- A literal ends with a closing character. -/
theorem literalLength?_last {s : List Char} {k : Nat} (h : literalLength? s = .ok (some k)) :
    ∃ d ∈ closers, (s.take k).getLast? = some d := by
  obtain ⟨f, extra, hopening, hclosing⟩ := literalLength?_eq_some h
  obtain ⟨d, hd, hlast⟩ := closing_last (List.forall_mem_singleton.mpr (opening?_quoted hopening))
    (List.cons_ne_nil f []) hclosing
  have hle := (closing_bounds hclosing).1
  refine ⟨d, hd, ?_⟩
  rw [← Nat.add_sub_cancel' hle, List.take_add, List.getLast?_append, hlast]
  rfl

end Literal

/-! ## Lines that are not blank -/

/-- A line that is not blank stays so. -/
theorem stale_of_inLine {s : List Char} (h : ∀ c ∈ s, isLineEnd c = false) :
    s.foldl ScanState.freshAfter false = false := by
  induction s with
  | nil => rfl
  | cons c s ih =>
    rw [List.foldl_cons, ScanState.freshAfter, h c List.mem_cons_self, Bool.false_and, Bool.or_self]
    exact ih fun d hd => h d (List.mem_cons_of_mem c hd)

/-- What a reader takes that ends in the line is a part of it. -/
theorem EndsInLine.take_inLine {reader : List Char → Nat} (h : EndsInLine reader) (s : List Char) :
    ∀ c ∈ s.take (reader s), isLineEnd c = false := by
  have hline : ∀ c ∈ s.takeWhile inLine, isLineEnd c = false := by
    intro c hc
    have hc : inLine c = true := List.mem_takeWhile_imp hc
    simpa [inLine] using hc
  have hsplit : s.takeWhile inLine ++ s.dropWhile inLine = s := List.takeWhile_append_dropWhile
  intro c hc
  refine hline c ?_
  cases hrest : s.dropWhile inLine with
  | nil =>
    rw [hrest, List.append_nil] at hsplit
    rw [hsplit]
    exact List.mem_of_mem_take hc
  | cons e w =>
    have he : isLineEnd e = true := by
      have hnot := List.head?_dropWhile_not inLine s
      rw [hrest] at hnot
      simpa [inLine] using hnot
    rw [hrest] at hsplit
    rw [← hsplit, h.eq _ e w he, List.take_append_of_le_length (h.le _)] at hc
    exact List.mem_of_mem_take hc

/-- After a token a line is not blank. -/
theorem fresh_of_token {c : Char} {r : List Char} {kind : TokenKind} {extra : Nat}
    (hblank : isBlank c = false) (hend : isLineEnd c = false)
    (h : tokenAhead c r = .ok (kind, extra)) (fresh : Bool) :
    (c :: r.take extra).foldl ScanState.freshAfter fresh = false := by
  cases tokenStarts_of_ok h with
  | @literal k hliteral hkind hextra =>
    have hall : Literal.closers.all (fun d => !isBlank d && !isLineEnd d) = true := by decide
    obtain ⟨d, hd, hlast⟩ := Literal.literalLength?_last hliteral
    have htwo := (Literal.literalLength?_bounds hliteral).1
    rw [show k = extra + 1 by omega, List.take_succ_cons] at hlast
    refine fresh_of_closes (List.cons_ne_nil _ _) ?_ fresh
    rw [hlast]
    exact List.all_eq_true.mp hall d hd
  | word hnone hword hkind hextra =>
    exact fresh_of_closes (List.cons_ne_nil _ _) (hextra ▸ word_not_blank hword) fresh
  | number hnone hword hnumber hkind hextra =>
    -- the first character of a number is no blank, and the others are in the line
    have hinLine := Number.endsInLine_numberLength.take_inLine (c :: r)
    rw [List.foldl_cons, ScanState.freshAfter, hblank, hend, Bool.and_false, Bool.or_self, hextra]
    refine stale_of_inLine fun d hd => ?_
    cases hlen : Number.numberLength (c :: r) with
    | zero =>
      rw [hlen] at hd
      cases hd
    | succ k =>
      rw [hlen] at hd hinLine
      exact hinLine d (List.mem_cons_of_mem c hd)
  | mark hnone hword hnumber hmark =>
    exact fresh_of_closes (List.cons_ne_nil _ _) (punctuation?_not_blank hmark) fresh

/-! ## After a token -/

/-- A comment ends with a slash. -/
theorem commentEnd?_last {s : List Char} {n : Nat} (h : commentEnd? s = some n) :
    (s.take n).getLast? = some '/' := by
  fun_induction commentEnd? s generalizing n with
  | case1 r =>
    cases h
    rfl
  | case2 c r hne ih =>
    obtain ⟨m, hm, rfl⟩ := Option.map_eq_some_iff.mp h
    rw [List.take_succ_cons, List.getLast?_cons, ih hm]
    rfl
  | case3 => cases h

/-- Trivia that trails a token: blanks and comments, and an end of line at the end. -/
inductive Trails : List Trivia → Prop
  | nil : Trails []
  | endOfLine {x : Trivia} (hkind : x.kind = .endOfLine) : Trails [x]
  | cons {x : Trivia} {ts : List Trivia}
      (hkind : x.kind ∈ [.whitespace, .singleLineComment, .multiLineComment]) (h : Trails ts) :
      Trails (x :: ts)

/-- No directive and no disabled text trails a token. -/
theorem Trails.kind_ne {ts : List Trivia} (h : Trails ts) :
    ∀ x ∈ ts, x.kind ≠ .directive ∧ x.kind ≠ .disabledText := by
  induction h with
  | nil => exact List.forall_mem_nil _
  | endOfLine hkind =>
    refine List.forall_mem_singleton.mpr ?_
    rw [hkind]
    decide
  | @cons x ts hkind h ih =>
    refine List.forall_mem_cons.mpr ⟨?_, ih⟩
    revert hkind
    generalize x.kind = kind
    cases kind <;> decide

/-- On a line that is not blank, trivia is blanks or a comment, after which the line is not blank, or
the line ends. -/
theorem lexemeAhead_stale {c : Char} {r : List Char} {kind : TriviaKind} {extra : Nat}
    (h : lexemeAhead false true c r = .ok (.trivia kind, extra)) :
    kind = .endOfLine ∨ kind ∈ [.whitespace, .singleLineComment, .multiLineComment]
      ∧ (c :: r.take extra).foldl ScanState.freshAfter false = false := by
  cases lexemeStarts_of_ok h with
  | disabledText hdisabled hlength => cases (isDisabled_iff.mp hdisabled).1
  | whitespace hread hblank hextra =>
    refine .inr ⟨by decide, ?_⟩
    rw [hextra, take_takeWhile]
    exact stale_of_inLine (List.forall_mem_cons.mpr ⟨isLineEnd_of_isBlank hblank, fun d hd =>
      isLineEnd_of_isBlank (List.mem_takeWhile_imp hd)⟩)
  | endOfLine hend hextra => exact .inl rfl
  | directive hread hhash hfresh hextra => cases hfresh
  | lineComment hactive hslash hnext hextra =>
    refine .inr ⟨by decide, ?_⟩
    rw [hextra, take_takeWhile]
    refine stale_of_inLine (List.forall_mem_cons.mpr ⟨by rw [hslash]; rfl, fun d hd => ?_⟩)
    simpa [inLine] using List.mem_takeWhile_imp hd
  | comment hactive hslash hstar hcomment hextra =>
    -- a comment that may span lines ends with a slash
    obtain ⟨r, rfl⟩ := List.head?_eq_some_iff.mp hstar
    rw [List.drop_one, List.tail_cons] at hcomment
    refine .inr ⟨by decide, fresh_of_closes (List.cons_ne_nil _ _) ?_ false⟩
    rw [hextra, List.take_succ_cons, List.getLast?_cons, List.getLast?_cons,
      commentEnd?_last hcomment]
    rfl

/-- What trails a token on a line that is not blank. -/
theorem trails_of_cut {st : ScanState} {s : List Char} {pieces : Cut} (h : cut st s = .ok pieces)
    (hfresh : st.fresh = false) (hactive : st.region.isActive = true) :
    Trails (trailingTrivia pieces.lexemes).1 := by
  fun_induction cut st s generalizing pieces with
  | case1 st _ => cases h; exact .nil
  | case2 => cases h
  | case3 => cases h
  | case4 => cases h
  | case5 => cases h
  | case6 st c r kind extra hahead region hregion rest hrest ih =>
    cases h
    rw [hfresh, hactive] at hahead
    cases kind with
    | token kind => exact .nil
    | trivia kind =>
      rcases lexemeAhead_stale hahead with rfl | ⟨hkind, hstale⟩
      · exact .endOfLine rfl
      · have hregion' : region = st.region := by
          refine isActive_of_regionAfter hregion ?_
          rintro ⟨⟩
          exact absurd hkind (by decide)
        have htrails := ih hrest (by rw [← hstale, ← hfresh]; rfl) (by rw [← hactive, ← hregion'])
        have htrailing : (trailingTrivia (⟨.trivia kind, c :: r.take extra, st.offset, st.place⟩
            :: rest.lexemes)).1
            = ⟨kind, String.ofList (c :: r.take extra)⟩ :: (trailingTrivia rest.lexemes).1 := by
          cases kind with
          | endOfLine => exact absurd hkind (by decide)
          | _ => rfl
        rw [htrailing]
        exact .cons hkind htrails

/-- What trails the tokens of a text. -/
theorem trails_of_token {st : ScanState} {s : List Char} {pieces : Cut} (h : cut st s = .ok pieces)
    {as bs : List Lexeme} {l : Lexeme} (hsplit : pieces.lexemes = as ++ l :: bs) {kind : TokenKind}
    (hkind : l.kind = .token kind) : Trails (trailingTrivia bs).1 := by
  obtain ⟨st', c, r, rest, step, hstep, rfl, -, hrest⟩ := exists_step h hsplit
  obtain ⟨k, extra, region, hahead, hregion, rfl, rfl⟩ := ScanState.step_ok hstep
  obtain rfl : k = .token kind := hkind
  have hregion' := isActive_of_regionAfter hregion (by simp)
  cases lexemeStarts_of_ok hahead with
  | token hactive hblank hend hhash hslash hstar htoken =>
    exact trails_of_cut hrest (fresh_of_token hblank hend htoken.ok st'.fresh)
      (by rw [← hactive, ← hregion'])

/-! ## Directives -/

/-- A line that is blank so far has only blanks since the last line end. -/
theorem exists_margin {s : List Char} (h : s.foldl ScanState.freshAfter true = true) :
    ∃ lines margin, s = lines ++ margin ∧ lines.getLast?.all isLineEnd = true
      ∧ ∀ c ∈ margin, isBlank c = true := by
  induction s using List.reverseRecOn with
  | nil => exact ⟨[], [], rfl, rfl, List.forall_mem_nil _⟩
  | append_singleton s c ih =>
    rw [List.foldl_append, List.foldl_cons, List.foldl_nil, ScanState.freshAfter, Bool.or_eq_true,
      Bool.and_eq_true] at h
    rcases h with hend | ⟨hfresh, hblank⟩
    · refine ⟨s ++ [c], [], (List.append_nil _).symm, ?_, List.forall_mem_nil _⟩
      rw [List.getLast?_concat]
      exact hend
    · obtain ⟨lines, margin, rfl, hlines, hmargin⟩ := ih hfresh
      exact ⟨lines, margin ++ [c], List.append_assoc _ _ _, hlines,
        List.forall_mem_append.mpr ⟨hmargin, List.forall_mem_singleton.mpr hblank⟩⟩

theorem hash_of_directive {fresh active : Bool} {c : Char} {r : List Char} {extra : Nat}
    (h : lexemeAhead fresh active c r = .ok (.trivia .directive, extra)) :
    c = '#' ∧ fresh = true := by
  cases lexemeStarts_of_ok h with
  | directive hread hhash hfresh hextra => exact ⟨hhash, hfresh⟩

/-- A directive starts on a line that is blank before it. -/
theorem directive_of_cut {st : ScanState} {s : List Char} {pieces : Cut} (h : cut st s = .ok pieces)
    {as bs : List Lexeme} {l : Lexeme} (hsplit : pieces.lexemes = as ++ l :: bs)
    (hkind : l.kind = .trivia .directive) :
    l.text.head? = some '#' ∧ (Lexeme.textOf as).foldl ScanState.freshAfter st.fresh = true := by
  obtain ⟨st', c, r, rest, step, hstep, rfl, hfresh, -⟩ := exists_step h hsplit
  obtain ⟨k, extra, region, hahead, -, rfl, rfl⟩ := ScanState.step_ok hstep
  obtain rfl : k = .trivia .directive := hkind
  obtain ⟨rfl, hblank⟩ := hash_of_directive hahead
  exact ⟨rfl, hfresh.symm.trans hblank⟩

/-! ## Attaching trivia -/

theorem Lexeme.trivia?_eq_some {l : Lexeme} {d : Trivia} (h : l.trivia? = some d) :
    l.kind = .trivia d.kind ∧ d.text = String.ofList l.text := by
  unfold trivia? at h
  split at h
  · next hkind =>
    cases h
    exact ⟨hkind, rfl⟩
  · cases h

section Attached

variable {leading : List Trivia} {ls : List Lexeme}

theorem exists_trailing (ls : List Lexeme) : ∃ before, ls = before ++ (trailingTrivia ls).2
    ∧ (Trivia.textOf (trailingTrivia ls).1).toList = Lexeme.textOf before := by
  obtain ⟨before, hsplit, -⟩ := trailingTrivia_split ls
  refine ⟨before, hsplit, ?_⟩
  have htext := congrArg Lexeme.textOf hsplit
  rw [Lexeme.textOf_append] at htext
  exact List.append_cancel_right ((trailingTrivia_tiled ls).trans htext)

/-- Where the trivia that trails a token comes from. -/
theorem exists_of_mem_attach {t : Token} (ht : t ∈ (attach leading ls).1) :
    ∃ as l bs, ls = as ++ l :: bs ∧ l.kind = .token t.kind ∧ t.trailing = (trailingTrivia bs).1 := by
  fun_induction attach leading ls with
  | case1 leading => cases ht
  | case2 leading l ls kind hkind ih =>
    obtain ⟨as, l', bs, rfl, h⟩ := ih ht
    exact ⟨l :: as, l', bs, rfl, h⟩
  | case3 leading l ls kind hkind tokens last hattach ih =>
    rcases List.mem_cons.mp ht with rfl | ht
    · exact ⟨[], l, ls, rfl, hkind, rfl⟩
    · rw [hattach] at ih
      obtain ⟨before, hsplit, -⟩ := exists_trailing ls
      obtain ⟨as, l', bs, hrest, h⟩ := ih ht
      refine ⟨l :: (before ++ as), l', bs, ?_, h⟩
      conv => lhs; rw [hsplit, hrest]
      simp

/-- The tokens of some lexemes, the end of the file last. -/
def attachAll (leading : List Trivia) (ls : List Lexeme) (eof : Token) : List Token :=
  (attach leading ls).1 ++ [{ eof with leading := (attach leading ls).2 }]

theorem attachAll_nil (leading : List Trivia) (eof : Token) :
    attachAll leading [] eof = [{ eof with leading }] := by
  rw [attachAll, attach]
  rfl

theorem attachAll_trivia {l : Lexeme} {kind : TriviaKind} (h : l.kind = .trivia kind) (eof : Token) :
    attachAll leading (l :: ls) eof = attachAll (leading ++ [⟨kind, String.ofList l.text⟩]) ls eof := by
  rw [attachAll, attachAll, attach_trivia h]

theorem attachAll_token {l : Lexeme} {kind : TokenKind} (h : l.kind = .token kind) (eof : Token) :
    attachAll leading (l :: ls) eof
      = ⟨kind, String.ofList l.text, some l.offset, l.place, leading, (trailingTrivia ls).1⟩
        :: attachAll [] (trailingTrivia ls).2 eof := by
  rw [attachAll, attachAll, attach_token h]
  rfl

/-- If the line does not end in what trails a token, the next lexeme is a token, or none is left. -/
theorem trailingTrivia_stop (h : (trailingTrivia ls).1.getLast?.all (·.kind != .endOfLine) = true) :
    (trailingTrivia ls).2 = []
      ∨ ∃ l rest kind, (trailingTrivia ls).2 = l :: rest ∧ l.kind = .token kind := by
  induction ls with
  | nil => exact .inl rfl
  | cons l ls ih =>
    unfold trailingTrivia at h ⊢
    split at h
    · next kind hkind => exact .inr ⟨l, ls, kind, rfl, hkind⟩
    · cases h
    · refine ih ?_
      rw [List.getLast?_cons] at h
      cases hlast : (trailingTrivia ls).1.getLast? with
      | none => rfl
      | some x =>
        rw [hlast] at h
        exact h

/-- If the line does not end after a token, nothing leads the next one. -/
theorem attachAll_next {eof t next : Token} {before after : List Token}
    (h : attachAll leading ls eof = before ++ t :: next :: after)
    (hline : t.trailing.getLast?.all (·.kind != .endOfLine) = true) : next.leading = [] := by
  fun_induction attach leading ls generalizing before with
  | case1 leading =>
    have hlen := congrArg List.length h
    rw [attachAll_nil] at hlen
    simp at hlen
    omega
  | case2 leading l ls kind hkind ih =>
    rw [attachAll_trivia hkind] at h
    exact ih h
  | case3 leading l ls kind hkind tokens last hattach ih =>
    rw [attachAll_token hkind] at h
    cases before with
    | cons first before => exact ih (List.cons.inj h).2
    | nil =>
      obtain ⟨rfl, hnext⟩ := List.cons.inj h
      rcases trailingTrivia_stop hline with hnil | ⟨l', rest, kind', hcons, hkind'⟩
      · rw [hnil, attachAll_nil] at hnext
        obtain ⟨rfl, -⟩ := List.cons.inj hnext
        rfl
      · rw [hcons, attachAll_token hkind'] at hnext
        obtain ⟨rfl, -⟩ := List.cons.inj hnext
        rfl

/-- Where the trivia that leads a token comes from, and the text before it. -/
theorem attachAll_leading {eof t : Token} {before after : List Token} {d : Trivia}
    {pre post : List Trivia} (h : attachAll leading ls eof = before ++ t :: after)
    (hd : t.leading = pre ++ d :: post) :
    (before = [] ∧ ∃ more, leading = pre ++ d :: more)
      ∨ ∃ as l bs, ls = as ++ l :: bs ∧ l.trivia? = some d
        ∧ (Trivia.textOf leading).toList ++ Lexeme.textOf as
          = (Token.fullTextOf before).toList ++ (Trivia.textOf pre).toList := by
  fun_induction attach leading ls generalizing before with
  | case1 leading =>
    rw [attachAll_nil] at h
    cases before with
    | nil =>
      obtain ⟨rfl, -⟩ := List.cons.inj h
      exact .inl ⟨rfl, post, hd⟩
    | cons first before => simp at h
  | case2 leading l ls kind hkind ih =>
    rw [attachAll_trivia hkind] at h
    rcases ih h with ⟨rfl, more, hleading⟩ | ⟨as, l', bs, rfl, hl', htext⟩
    · -- the trivia is what the lexeme is, or came before it
      rcases List.eq_nil_or_concat more with rfl | ⟨more, last, rfl⟩
      · obtain ⟨rfl, hlast⟩ := List.append_inj' hleading rfl
        have hl : l.trivia? = some d := by
          rw [Lexeme.trivia?, hkind, ← (List.cons.inj hlast).1]
        exact .inr ⟨[], l, ls, rfl, hl, by simp⟩
      · rw [List.concat_eq_append, ← List.cons_append, ← List.append_assoc] at hleading
        exact .inl ⟨rfl, more, (List.append_inj' hleading rfl).1⟩
    · refine .inr ⟨l :: as, l', bs, rfl, hl', ?_⟩
      rw [← htext]
      simp
  | case3 leading l ls kind hkind tokens last hattach ih =>
    rw [attachAll_token hkind] at h
    cases before with
    | nil =>
      obtain ⟨rfl, -⟩ := List.cons.inj h
      exact .inl ⟨rfl, post, hd⟩
    | cons first before =>
      obtain ⟨rfl, hrest⟩ := List.cons.inj h
      rcases ih hrest with ⟨-, more, hnone⟩ | ⟨as, l', bs, hsplit, hl', htext⟩
      · simp at hnone
      · obtain ⟨passed, hls, hpassed⟩ := exists_trailing ls
        refine .inr ⟨l :: (passed ++ as), l', bs, ?_, hl', ?_⟩
        · conv => lhs; rw [hls, hsplit]
          simp
        · have hafter : Lexeme.textOf as
              = (Token.fullTextOf before).toList ++ (Trivia.textOf pre).toList := by
            simpa using htext
          rw [Lexeme.textOf_cons, Lexeme.textOf_append, hafter, ← hpassed]
          simp [Token.fullText]

end Attached

/-! ## The trivia of a source -/

/-- What trails a token is blanks and comments, and the end of the line at most once and at the end;
directives and disabled text only lead tokens. If the line does not end after a token, nothing leads
the next token. A directive starts with a number sign that only blanks precede on its line. -/
theorem trivia_attached {source : String} {defined : List String} {stream : TokenStream}
    (h : TokenStream.ofSource source defined = .ok stream) :
    (∀ t ∈ stream.all, Trails t.trailing
        ∧ ∀ x ∈ t.trailing, x.kind ≠ .directive ∧ x.kind ≠ .disabledText)
      ∧ (∀ (before after : List Token) (t next : Token),
        stream.all = before ++ t :: next :: after →
        t.trailing.getLast?.all (·.kind != .endOfLine) = true → next.leading = [])
      ∧ ∀ (before after : List Token) (t : Token) (pre post : List Trivia) (d : Trivia),
        stream.all = before ++ t :: after → t.leading = pre ++ d :: post → d.kind = .directive →
        d.text.toList.head? = some '#' ∧ ∃ lines margin rest : List Char,
          source.toList = lines ++ margin ++ d.text.toList ++ rest
            ∧ lines ++ margin = (Token.fullTextOf before).toList ++ (Trivia.textOf pre).toList
            ∧ lines.getLast?.all isLineEnd = true ∧ ∀ c ∈ margin, isBlank c = true := by
  obtain ⟨pieces, hcut, rfl⟩ := ok_of_map h
  have hall : (TokenStream.ofCut pieces).all = attachAll [] pieces.lexemes
    ⟨.eof, "", some pieces.final.offset, pieces.final.place, [], []⟩ := rfl
  rw [hall]
  refine ⟨fun t ht => ?_, fun before after t next => attachAll_next, ?_⟩
  · have htrails : Trails t.trailing := by
      rcases List.mem_append.mp ht with ht | ht
      · obtain ⟨as, l, bs, hsplit, hkind, htrailing⟩ := exists_of_mem_attach ht
        rw [htrailing]
        exact trails_of_token hcut hsplit hkind
      · rw [List.mem_singleton.mp ht]
        exact .nil
    exact ⟨htrails, htrails.kind_ne⟩
  · intro before after t pre post d hsplit hd hkind
    rcases attachAll_leading hsplit hd with ⟨-, more, hnone⟩ | ⟨as, l, bs, hls, hl, htext⟩
    · simp at hnone
    · obtain ⟨hl, htextOf⟩ := Lexeme.trivia?_eq_some hl
      rw [hkind] at hl
      obtain ⟨hhash, hfresh⟩ := directive_of_cut hcut hls hl
      obtain ⟨lines, margin, hmargin, hlines, hblanks⟩ := exists_margin hfresh
      rw [htextOf, String.toList_ofList]
      refine ⟨hhash, lines, margin, Lexeme.textOf bs, ?_, ?_, hlines, hblanks⟩
      · rw [← (cut_tiled hcut).1, hls, ← hmargin]
        simp
      · rw [← hmargin, ← htext]
        simp

theorem trivia_attached_define :
    ∃ stream, TokenStream.ofSource " #define C\nc" [] = .ok stream
      ∧ (∀ t ∈ stream.all, Trails t.trailing) ∧ ∃ lines margin rest : List Char,
        " #define C\nc".toList = lines ++ margin ++ "#define C".toList ++ rest
          ∧ lines.getLast?.all isLineEnd = true ∧ ∀ c ∈ margin, isBlank c = true := by
  have hall : (TokenStream.ofSource " #define C\nc" []).toOption.map (·.all)
      = some [⟨.identifier, "c", some 11, ⟨2, 1⟩,
          [⟨.whitespace, " "⟩, ⟨.directive, "#define C"⟩, ⟨.endOfLine, "\n"⟩], []⟩,
        ⟨.eof, "", some 12, ⟨2, 2⟩, [], []⟩] := by decide +kernel
  obtain ⟨stream, hstream, hall⟩ := Option.map_eq_some_iff.mp hall
  obtain ⟨htrails, -, hdirectives⟩ := trivia_attached (ok_of_toOption hstream)
  obtain ⟨-, lines, margin, rest, hsource, -, hlines, hmargin⟩ :=
    hdirectives [] _ _ [⟨.whitespace, " "⟩] [⟨.endOfLine, "\n"⟩] ⟨.directive, "#define C"⟩ hall rfl rfl
  exact ⟨stream, ok_of_toOption hstream, fun t ht => (htrails t ht).1, lines, margin, rest, hsource,
    hlines, hmargin⟩

end NullableMarker
