import NullableMarker.Proofs.Relexing

/-!
# Lexemes before the end of a line

No reader of numbers, words, marks and openings of literals goes past the end of a line. A literal
or a comment may, but then its own end is all that counts. So a lexeme that ends before the end of
some line does not depend on what follows that line.

* `EndsInLine` — a reader that takes nothing from beyond a line
* `tokenAhead_line` — tokens
* `lexemeAhead_line` — all lexemes
-/

namespace NullableMarker

open Text

/-- What is false of both ends of line is false of an end of line. -/
theorem not_of_isLineEnd {p : Char → Bool} (hn : p '\n' = false) (hr : p '\r' = false) {e : Char}
    (he : isLineEnd e = true) : p e = false := by
  simp only [isLineEnd, Bool.or_eq_true, beq_iff_eq] at he
  rcases he with rfl | rfl
  · exact hr
  · exact hn

theorem ne_of_isLineEnd {c e : Char} (hc : isLineEnd c = false) (he : isLineEnd e = true) :
    e ≠ c := by
  rintro rfl
  rw [he] at hc
  cases hc

/-- What follows the end of a line does not show before it. -/
theorem head?_line (y : List Char) (e : Char) (w w' : List Char) :
    (y ++ e :: w').head? = (y ++ e :: w).head? := by cases y <;> rfl

theorem drop_line {y : List Char} {k : Nat} (h : k ≤ y.length) (e : Char) (w : List Char) :
    (y ++ e :: w).drop k = y.drop k ++ e :: w := List.drop_append_of_le_length h

/-- A reader that tells how many characters it takes, and takes none from the end of a line on. -/
structure EndsInLine (reader : List Char → Nat) : Prop where
  eq : ∀ y e w, isLineEnd e = true → reader (y ++ e :: w) = reader y
  le : ∀ y, reader y ≤ y.length

/-- One reader after another. -/
theorem EndsInLine.andThen {f g : List Char → Nat} (hf : EndsInLine f) (hg : EndsInLine g) :
    EndsInLine fun s => f s + g (s.drop (f s)) where
  eq y e w he := by
    rw [hf.eq y e w he, drop_line (hf.le y), hg.eq _ e w he]
  le y := by
    have hfirst := hf.le y
    have hsecond := hg.le (y.drop (f y))
    rw [List.length_drop] at hsecond
    omega

/-- The first of two readers that takes anything. -/
theorem EndsInLine.orElse {f g : List Char → Nat} (hf : EndsInLine f) (hg : EndsInLine g) :
    EndsInLine fun s => if f s ≠ 0 then f s else g s where
  eq y e w he := by
    rw [hf.eq y e w he, hg.eq y e w he]
  le y := by
    have hfirst := hf.le y
    have hsecond := hg.le y
    split <;> omega

/-! ## Numbers -/

namespace Number

theorem endsInLine_runLength {p : Char → Bool} (hn : p '\n' = false) (hr : p '\r' = false) :
    EndsInLine (runLength p) where
  eq y _ w he := congrArg List.length (takeWhile_before (not_of_isLineEnd hn hr he) y w)
  le := runLength_le p

theorem endsInLine_digits : EndsInLine digits where
  eq y e w he := by
    cases y with
    | nil => simp [digits, not_of_isLineEnd (p := Char.isDigit) rfl rfl he]
    | cons c y =>
      simp only [List.cons_append, digits]
      rw [(endsInLine_runLength rfl rfl).eq y e w he]
  le := digits_le

theorem endsInLine_fraction : EndsInLine fraction where
  eq y e w he := by
    have hother : ∀ c r, c ≠ '.' → fraction (c :: r) = 0 := by
      intro c r hc
      unfold fraction
      split
      · next heq => cases heq; exact absurd rfl hc
      · rfl
    cases y with
    | nil => exact hother e w (ne_of_isLineEnd rfl he)
    | cons c y =>
      by_cases hc : c = '.'
      · subst hc
        simp only [List.cons_append, fraction]
        rw [endsInLine_digits.eq y e w he]
      · rw [List.cons_append, hother c _ hc, hother c _ hc]
  le := fraction_le

theorem sign_line (y : List Char) {e : Char} (w : List Char) (he : isLineEnd e = true) :
    sign (y ++ e :: w) = sign y := by
  cases y with
  | nil => simp [sign, ne_of_isLineEnd (c := '+') rfl he, ne_of_isLineEnd (c := '-') rfl he]
  | cons c y => rfl

theorem sign_le (y : List Char) : sign y ≤ y.length := by
  cases y with
  | nil => exact Nat.le_refl _
  | cons c y =>
    unfold sign
    split <;> simp

theorem endsInLine_exponent : EndsInLine exponent where
  eq y e w he := by
    cases y with
    | nil => simp [exponent, ne_of_isLineEnd (c := 'e') rfl he, ne_of_isLineEnd (c := 'E') rfl he]
    | cons c y =>
      simp only [List.cons_append, exponent]
      rw [sign_line y w he, drop_line (sign_le y), endsInLine_digits.eq _ e w he]
  le := exponent_le

theorem endsInLine_decimal : EndsInLine decimal :=
  ((endsInLine_digits.andThen endsInLine_fraction).andThen endsInLine_exponent).andThen
    (endsInLine_runLength (p := isSuffix) rfl rfl)

theorem endsInLine_based {isMark isDigit : Char → Bool} (hmark : ∀ e, isLineEnd e = true →
    isMark e = false) (hn : isDigit '\n' = false) (hr : isDigit '\r' = false) :
    EndsInLine (based isMark isDigit) where
  eq y e w he := by
    have hother : ∀ c r, c ≠ '0' → based isMark isDigit (c :: r) = 0 := by
      intro c r hc
      unfold based
      split
      · next heq => cases heq; exact absurd rfl hc
      · rfl
    cases y with
    | nil => exact hother e w (ne_of_isLineEnd rfl he)
    | cons c y =>
      by_cases hc : c = '0'
      · subst hc
        cases y with
        | nil => simp [based, hmark e he]
        | cons m y =>
          simp only [List.cons_append, based]
          rw [(endsInLine_runLength hn hr).eq y e w he, drop_line (runLength_le _ y),
            (endsInLine_runLength (p := isIntegerSuffix) rfl rfl).eq _ e w he]
      · rw [List.cons_append, hother c _ hc, hother c _ hc]
  le := based_le isMark isDigit

theorem endsInLine_numberLength : EndsInLine numberLength := by
  have hmark : ∀ a b : Char, isLineEnd a = false → isLineEnd b = false → ∀ e, isLineEnd e = true →
      (e == a || e == b) = false := by
    intro a b ha hb e he
    rw [beq_false_of_ne (ne_of_isLineEnd ha he), beq_false_of_ne (ne_of_isLineEnd hb he)]
    rfl
  have hhex : EndsInLine (based (fun m => m == 'x' || m == 'X') isHexOrMark) :=
    endsInLine_based (hmark 'x' 'X' rfl rfl) rfl rfl
  have hbinary : EndsInLine (based (fun m => m == 'b' || m == 'B') isBinaryOrMark) :=
    endsInLine_based (hmark 'b' 'B' rfl rfl) rfl rfl
  exact hhex.orElse (hbinary.orElse endsInLine_decimal)

theorem startsNumber_line (y : List Char) {e : Char} (w : List Char) (he : isLineEnd e = true) :
    startsNumber (y ++ e :: w) = startsNumber y := by
  have hdigit := not_of_isLineEnd (p := Char.isDigit) rfl rfl he
  have hother : ∀ c r, c ≠ '.' → startsNumber (c :: r) = c.isDigit := by
    intro c r hc
    unfold startsNumber
    split
    · next heq => cases heq; exact absurd rfl hc
    · next heq => cases heq; rfl
    · next heq => cases heq
  cases y with
  | nil => rw [List.nil_append, hother e w (ne_of_isLineEnd rfl he), hdigit]; rfl
  | cons c y =>
    by_cases hc : c = '.'
    · subst hc
      cases y with
      | nil => exact hdigit
      | cons d y => rfl
    · rw [List.cons_append, hother c _ hc, hother c _ hc]

end Number

/-! ## Literals -/

namespace Literal

theorem endsInLine_quoteRun : EndsInLine quoteRun := Number.endsInLine_runLength rfl rfl

theorem markedOpening?_line (n : Nat) (y : List Char) {e : Char} (w : List Char)
    (he : isLineEnd e = true) : markedOpening? n (y ++ e :: w) = markedOpening? n y := by
  unfold markedOpening?
  rw [takeWhile_before (not_of_isLineEnd rfl rfl he)]
  dsimp only
  rw [drop_line (length_takeWhile_le _ y)]
  split
  · cases y.drop (y.takeWhile isStringMark).length with
    | nil =>
      rw [List.nil_append]
      split
      · next heq => cases heq; cases he
      · rfl
    | cons d r =>
      by_cases hd : d = '"'
      · subst hd
        simp only [List.cons_append]
        rw [endsInLine_quoteRun.eq r e w he]
      · rw [List.cons_append]
        split
        · next heq => cases heq; exact absurd rfl hd
        · split
          · next heq => cases heq; exact absurd rfl hd
          · rfl
  · rfl

/-- What opens a literal lies in one line. -/
theorem opening?_line (n : Nat) (y : List Char) {e : Char} (w : List Char)
    (he : isLineEnd e = true) : opening? n (y ++ e :: w) = opening? n y := by
  cases y with
  | nil =>
    rw [List.nil_append, opening?_marked (ne_of_isLineEnd rfl he) (ne_of_isLineEnd rfl he)
      fun hat => absurd hat (ne_of_isLineEnd rfl he)]
    exact markedOpening?_line n [] w he
  | cons c y =>
    rw [List.cons_append]
    by_cases hquote : c = '"'
    · subst hquote
      simp only [opening?]
      rw [endsInLine_quoteRun.eq y e w he]
    by_cases hmark : c = '\''
    · subst hmark
      rfl
    by_cases hverbatim : c = '@' ∧ y.head? = some '"'
    · obtain ⟨rfl, hhead⟩ := hverbatim
      obtain ⟨r, rfl⟩ := List.head?_eq_some_iff.mp hhead
      rfl
    · have hverbatim' : c = '@' → (y ++ e :: w).head? ≠ some '"' := by
        intro hat hhead
        cases y with
        | nil =>
          cases hhead
          cases he
        | cons d y => exact hverbatim ⟨hat, hhead⟩
      rw [opening?_marked hquote hmark hverbatim',
        opening?_marked hquote hmark fun hat hhead => hverbatim ⟨hat, hhead⟩]
      exact markedOpening?_line n (c :: y) w he

/-- A frame looks at one line. -/
theorem Frame.step_line (f : Frame) (n : Nat) (c : Char) (y : List Char) {e : Char} (w : List Char)
    (he : isLineEnd e = true) : f.step n c (y ++ e :: w) = f.step n c y := by
  have hhead : ∀ d, isLineEnd d = false →
      ((y ++ e :: w).head? == some d) = (y.head? == some d) := by
    intro d hd
    cases y with
    | nil => simp [ne_of_isLineEnd hd he]
    | cons b y => rfl
  unfold Frame.step
  rw [hhead '"' rfl, hhead '\x7b' rfl, endsInLine_quoteRun.eq y e w he, ← List.cons_append,
    opening?_line n (c :: y) w he]

/-- Frames that are closed before the end of some line do not depend on what follows it. -/
theorem closing_line {frames : List Frame} {n m : Nat} {y : List Char} {e : Char} {w : List Char}
    (w' : List Char) (he : isLineEnd e = true) (h : closing frames n (y ++ e :: w) = .ok m)
    (hle : m ≤ n + y.length) : closing frames n (y ++ e :: w') = .ok m := by
  generalize hs : y ++ e :: w = s at h
  fun_induction closing frames n s generalizing y with
  | case1 n s =>
    cases h
    rw [closing]
  | case2 n f fs => cases h
  | case3 n f fs c r fault hstep => cases h
  | case4 n f fs c r gs extra hstep ih =>
    obtain ⟨hlow, -, -⟩ := closing_bounds h
    cases y with
    | nil =>
      rw [List.length_nil] at hle
      omega
    | cons d y =>
      rw [List.cons_append, List.cons.injEq] at hs
      obtain ⟨rfl, rfl⟩ := hs
      rw [List.length_cons] at hle
      have hextra : extra ≤ y.length := by omega
      rw [f.step_line n d y w he] at hstep
      rw [List.cons_append, closing, f.step_line n d y w' he, hstep]
      dsimp only
      rw [drop_line hextra] at h ih ⊢
      exact ih (by rw [List.length_drop]; omega) rfl h

theorem literalLength?_line {y : List Char} {e : Char} {w : List Char} (w' : List Char)
    (he : isLineEnd e = true) {k : Nat} (h : literalLength? (y ++ e :: w) = .ok (some k))
    (hle : k ≤ y.length) : literalLength? (y ++ e :: w') = .ok (some k) := by
  obtain ⟨f, extra, hopening, hclosing⟩ := literalLength?_eq_some h
  rw [opening?_line 0 y w he] at hopening
  have hin := opening?_le hopening
  rw [drop_line hin] at hclosing
  have hclosing' := closing_line w' he hclosing (by rw [List.length_drop]; omega)
  rw [literalLength?_opening ((opening?_line 0 y w' he).trans hopening), drop_line hin, hclosing']
  rfl

theorem no_literalLength?_line {y : List Char} {e : Char} {w : List Char} (w' : List Char)
    (he : isLineEnd e = true) (h : literalLength? (y ++ e :: w) = .ok none) :
    literalLength? (y ++ e :: w') = .ok none := by
  rw [literalLength?_eq_none_iff, opening?_line 0 y _ he] at h ⊢
  exact h

end Literal

/-! ## Tokens -/

theorem punctuation?_line (c : Char) (y : List Char) (e : Char) (w w' : List Char) :
    punctuation? c (y ++ e :: w') = punctuation? c (y ++ e :: w) := by
  have htake : (y ++ e :: w').take 1 = (y ++ e :: w).take 1 := by cases y <;> rfl
  rw [punctuation?, htake]
  rfl

/-- A token that ends before the end of some line does not depend on what follows it. -/
theorem tokenAhead_line {c : Char} {y : List Char} {e : Char} {w : List Char} (w' : List Char)
    (he : isLineEnd e = true) {kind : TokenKind} {extra : Nat}
    (h : tokenAhead c (y ++ e :: w) = .ok (kind, extra)) (hle : extra ≤ y.length) :
    tokenAhead c (y ++ e :: w') = .ok (kind, extra) := by
  have hrun : ∀ w : List Char, (y ++ e :: w).takeWhile isWordPart = y.takeWhile isWordPart :=
    takeWhile_before (not_of_isLineEnd (by decide +kernel) (by decide +kernel) he) y
  have hlength : ∀ w : List Char, Number.numberLength (c :: (y ++ e :: w))
      = Number.numberLength (c :: y) := fun w => Number.endsInLine_numberLength.eq (c :: y) e w he
  have hstart : startsWord c (y ++ e :: w') = startsWord c (y ++ e :: w) := by
    rw [startsWord, head?_line y e w w', startsWord]
  have hnumbers : Number.startsNumber (c :: (y ++ e :: w'))
      = Number.startsNumber (c :: (y ++ e :: w)) :=
    (Number.startsNumber_line (c :: y) w' he).trans (Number.startsNumber_line (c :: y) w he).symm
  have hno := Literal.no_literalLength?_line (y := c :: y) (w := w) w' he
  refine TokenStarts.ok ?_
  cases tokenStarts_of_ok h with
  | literal hliteral hkind hextra =>
    have hliteral' := Literal.literalLength?_line (y := c :: y) w' he hliteral
      (by rw [List.length_cons]; omega)
    exact .literal hliteral' hkind hextra
  | word hnone hword hkind hextra =>
    rw [hrun, ← hrun w'] at hkind hextra
    exact .word (hno hnone) (hstart.trans hword) hkind hextra
  | number hnone hword hnumber hkind hextra =>
    rw [hlength, ← hlength w'] at hextra
    exact .number (hno hnone) (hstart.trans hword) (hnumbers.trans hnumber) hkind hextra
  | mark hnone hword hnumber hmark =>
    exact .mark (hno hnone) (hstart.trans hword) (hnumbers.trans hnumber)
      ((punctuation?_line c y e w w').trans hmark)

/-- A lexeme that ends before the end of some line does not depend on what follows the line. -/
theorem lexemeAhead_line {fresh active : Bool} {c : Char} {y : List Char} {e : Char} {w : List Char}
    (w' : List Char) (he : isLineEnd e = true) {kind : LexemeKind} {extra : Nat}
    (h : lexemeAhead fresh active c (y ++ e :: w) = .ok (kind, extra)) (hle : extra ≤ y.length) :
    lexemeAhead fresh active c (y ++ e :: w') = .ok (kind, extra) := by
  cases kind with
  | trivia kind =>
    obtain ⟨b, u, rfl, rfl⟩ : ∃ b u, y = b ++ u ∧ extra = b.length :=
      ⟨y.take extra, y.drop extra, (List.take_append_drop extra y).symm, by
        rw [List.length_take]; omega⟩
    rw [List.append_assoc] at h ⊢
    exact lexemeAhead_trivia (head?_line u e w w') (fun _ => .inr ⟨u, e, w, w', he, rfl, rfl⟩) h
  | token kind =>
    cases lexemeStarts_of_ok h with
    | token hactive hblank hend hhash hslash hstar htoken =>
      rw [← head?_line y e w w'] at hslash hstar
      exact LexemeStarts.ok (.token hactive hblank hend hhash hslash hstar
        (tokenStarts_of_ok (tokenAhead_line w' he htoken.ok hle)))

end NullableMarker
