import NullableMarker.Proofs.Forms

/-!
# What starts at a point of a text

A literal, a token or a lexeme is taken by the reader that fits what stands ahead. There is one case
for each reader, with what it looks for and how much it takes, and what holds of all lexemes is shown
by these cases.

* `Literal.literalLength?_eq_some` — where a literal starts
* `TokenStarts` — where a token starts
* `LexemeStarts` — where a lexeme starts
-/

namespace NullableMarker

open Text

/-! ## Literals -/

namespace Literal

variable {s : List Char}

theorem literalLength?_opening {f : Frame} {extra : Nat} (h : opening? 0 s = some (f, extra)) :
    literalLength? s = (closing [f] (1 + extra) (s.drop (1 + extra))).map some := by
  rw [literalLength?, h]

theorem literalLength?_eq_none_iff : literalLength? s = .ok none ↔ opening? 0 s = none := by
  constructor
  · intro h
    cases hopening : opening? 0 s with
    | none => rfl
    | some opened =>
      rw [literalLength?_opening hopening] at h
      obtain ⟨n, -, hn⟩ := ok_of_map h
      cases hn
  · intro h
    rw [literalLength?, h]

/-- A literal is opened, and goes on to where its frame is closed. -/
theorem literalLength?_eq_some {k : Nat} (h : literalLength? s = .ok (some k)) :
    ∃ f extra, opening? 0 s = some (f, extra)
      ∧ closing [f] (1 + extra) (s.drop (1 + extra)) = .ok k := by
  cases hopening : opening? 0 s with
  | none =>
    rw [literalLength?_eq_none_iff.mpr hopening] at h
    cases h
  | some opened =>
    rw [literalLength?_opening hopening] at h
    obtain ⟨n, hclosing, hn⟩ := ok_of_map h
    cases hn
    exact ⟨_, _, rfl, hclosing⟩

/-- The fault of a literal is that of a frame. -/
theorem literalLength?_eq_error {fault : LexFault} (h : literalLength? s = .error fault) :
    ∃ f extra, opening? 0 s = some (f, extra)
      ∧ closing [f] (1 + extra) (s.drop (1 + extra)) = .error fault := by
  cases hopening : opening? 0 s with
  | none =>
    rw [literalLength?_eq_none_iff.mpr hopening] at h
    cases h
  | some opened =>
    rw [literalLength?_opening hopening] at h
    exact ⟨_, _, rfl, error_of_map h⟩

end Literal

/-! ## Tokens -/

/-- A word starts here, with a letter or an underscore, or with an at sign before one of these. -/
def startsWord (c : Char) (r : List Char) : Bool :=
  isWordStart c || (c == '@' && r.head?.any isWordStart)

/-- A token of the kind starts the text `c :: r` and takes `extra` characters after `c`. -/
inductive TokenStarts (c : Char) (r : List Char) (kind : TokenKind) (extra : Nat) : Prop
  | literal {k : Nat} (hliteral : Literal.literalLength? (c :: r) = .ok (some k))
      (hkind : kind = if c == '\'' then .character else .string) (hextra : extra = k - 1)
  | word (hnone : Literal.literalLength? (c :: r) = .ok none) (hword : startsWord c r = true)
      (hkind : kind = wordKind (String.ofList (c :: r.takeWhile isWordPart)))
      (hextra : extra = (r.takeWhile isWordPart).length)
  | number (hnone : Literal.literalLength? (c :: r) = .ok none) (hword : startsWord c r = false)
      (hnumber : Number.startsNumber (c :: r) = true) (hkind : kind = .number)
      (hextra : extra = Number.numberLength (c :: r) - 1)
  | mark (hnone : Literal.literalLength? (c :: r) = .ok none) (hword : startsWord c r = false)
      (hnumber : Number.startsNumber (c :: r) = false)
      (hmark : punctuation? c r = some (kind, extra))

section Tokens

variable {c : Char} {r : List Char}

/-- Where no literal starts, there is a word, a number or a mark. -/
theorem tokenAhead_of_no_literal (h : Literal.literalLength? (c :: r) = .ok none) :
    tokenAhead c r
      = if startsWord c r then
          .ok (wordKind (String.ofList (c :: r.takeWhile isWordPart)),
            (r.takeWhile isWordPart).length)
        else if Number.startsNumber (c :: r) then .ok (.number, Number.numberLength (c :: r) - 1)
        else match punctuation? c r with
          | some found => .ok found
          | none => .error ⟨.unexpectedCharacter c, 0⟩ := by
  rw [tokenAhead, h]
  rfl

theorem tokenAhead_of_literal {k : Nat} (h : Literal.literalLength? (c :: r) = .ok (some k)) :
    tokenAhead c r = .ok (if c == '\'' then .character else .string, k - 1) := by
  rw [tokenAhead, h]

theorem tokenAhead_of_fault {fault : LexFault}
    (h : Literal.literalLength? (c :: r) = .error fault) : tokenAhead c r = .error fault := by
  rw [tokenAhead, h]

theorem tokenStarts_of_ok {kind : TokenKind} {extra : Nat}
    (h : tokenAhead c r = .ok (kind, extra)) : TokenStarts c r kind extra := by
  cases hliteral : Literal.literalLength? (c :: r) with
  | error fault => rw [tokenAhead_of_fault hliteral] at h; cases h
  | ok found =>
    cases found with
    | some k =>
      rw [tokenAhead_of_literal hliteral] at h
      cases h
      exact .literal hliteral rfl rfl
    | none =>
      rw [tokenAhead_of_no_literal hliteral] at h
      split at h
      · next hword =>
        cases h
        exact .word hliteral hword rfl rfl
      next hword =>
      rw [Bool.not_eq_true] at hword
      split at h
      · next hnumber =>
        cases h
        exact .number hliteral hword hnumber rfl rfl
      next hnumber =>
      rw [Bool.not_eq_true] at hnumber
      split at h
      · next found hmark =>
        cases h
        exact .mark hliteral hword hnumber hmark
      · cases h

theorem TokenStarts.ok {kind : TokenKind} {extra : Nat} (h : TokenStarts c r kind extra) :
    tokenAhead c r = .ok (kind, extra) := by
  cases h with
  | literal hliteral hkind hextra => rw [tokenAhead_of_literal hliteral, hkind, hextra]
  | word hnone hword hkind hextra =>
    rw [tokenAhead_of_no_literal hnone, if_pos hword, hkind, hextra]
  | number hnone hword hnumber hkind hextra =>
    rw [tokenAhead_of_no_literal hnone, hword, if_neg Bool.false_ne_true, if_pos hnumber, hkind,
      hextra]
  | mark hnone hword hnumber hmark =>
    rw [tokenAhead_of_no_literal hnone, hword, if_neg Bool.false_ne_true, hnumber,
      if_neg Bool.false_ne_true, hmark]

end Tokens

/-! ## Lexemes -/

/-- The text is not active, and no line with a conditional directive starts here. -/
def isDisabled (fresh active : Bool) (c : Char) (r : List Char) : Bool :=
  !active && inLine c && !(fresh && startsConditional (c :: r))

/-- A lexeme of the kind starts the text `c :: r` and takes `extra` characters after `c`. `fresh`
tells that the line is blank before it, `active` that the text is active. -/
inductive LexemeStarts (fresh active : Bool) (c : Char) (r : List Char) (extra : Nat) :
    LexemeKind → Prop
  | disabledText (hdisabled : isDisabled fresh active c r = true)
      (hlength : disabledLength false (c :: r) = extra + 1) :
      LexemeStarts fresh active c r extra (.trivia .disabledText)
  | whitespace (hread : isDisabled fresh active c r = false) (hblank : isBlank c = true)
      (hextra : extra = (r.takeWhile isBlank).length) :
      LexemeStarts fresh active c r extra (.trivia .whitespace)
  | endOfLine (hend : isLineEnd c = true)
      (hextra : extra = if c == '\r' && r.head? == some '\n' then 1 else 0) :
      LexemeStarts fresh active c r extra (.trivia .endOfLine)
  | directive (hread : isDisabled fresh active c r = false) (hhash : c = '#')
      (hfresh : fresh = true) (hextra : extra = (r.takeWhile inLine).length) :
      LexemeStarts fresh active c r extra (.trivia .directive)
  | lineComment (hactive : active = true) (hslash : c = '/') (hnext : r.head? = some '/')
      (hextra : extra = (r.takeWhile inLine).length) :
      LexemeStarts fresh active c r extra (.trivia .singleLineComment)
  | comment {n : Nat} (hactive : active = true) (hslash : c = '/') (hstar : r.head? = some '*')
      (hcomment : commentEnd? (r.drop 1) = some n) (hextra : extra = n + 1) :
      LexemeStarts fresh active c r extra (.trivia .multiLineComment)
  | token {kind : TokenKind} (hactive : active = true) (hblank : isBlank c = false)
      (hend : isLineEnd c = false) (hhash : (c == '#' && fresh) = false)
      (hslash : (c == '/' && r.head? == some '/') = false)
      (hstar : (c == '/' && r.head? == some '*') = false) (htoken : TokenStarts c r kind extra) :
      LexemeStarts fresh active c r extra (.token kind)

section Lexemes

variable {fresh active : Bool} {c : Char} {r : List Char}

/-- A line that holds a conditional directive starts with a blank or with the directive. -/
theorem isBlank_or_hash_of_startsConditional (h : startsConditional (c :: r) = true) :
    isBlank c = true ∨ c = '#' := by
  by_cases hmargin : isMargin c = true
  · exact .inl (by rw [isBlank, hmargin]; rfl)
  by_cases hhash : c = '#'
  · exact .inr hhash
  have hname : directiveName (c :: r) = [] := by
    unfold directiveName directiveWindow
    rw [List.take_succ_cons, List.dropWhile_cons_of_neg hmargin]
    split
    · next heq => cases heq; exact absurd rfl hhash
    · rfl
  rw [startsConditional, hname] at h
  exact absurd h (by decide)

/-- Only blanks, ends of lines and directives are read where the text is not active. -/
theorem active_of_read (hread : isDisabled fresh active c r = false) (hblank : isBlank c = false)
    (hend : isLineEnd c = false) (hhash : (c == '#' && fresh) = false) : active = true := by
  cases active with
  | true => rfl
  | false =>
    obtain ⟨rfl, hstarts⟩ : fresh = true ∧ startsConditional (c :: r) = true := by
      simpa [isDisabled, inLine, hend] using hread
    rcases isBlank_or_hash_of_startsConditional hstarts with hc | rfl
    · rw [hblank] at hc
      cases hc
    · cases hhash

theorem isDisabled_iff : isDisabled fresh active c r = true
    ↔ active = false ∧ inLine c = true ∧ (fresh = true → startsConditional (c :: r) = false) := by
  rw [isDisabled, Bool.and_eq_true, Bool.and_eq_true, Bool.not_eq_true', Bool.not_eq_true', and_assoc]
  cases fresh <;> simp

theorem isDisabled_of_isLineEnd (h : isLineEnd c = true) : isDisabled fresh active c r = false := by
  rw [isDisabled, inLine, h, Bool.not_true, Bool.and_false, Bool.false_and]

theorem isLineEnd_of_isBlank (h : isBlank c = true) : isLineEnd c = false := by
  simp only [isBlank, isMargin, Bool.or_eq_true, beq_iff_eq] at h
  rcases h with (((rfl | rfl) | rfl) | rfl) | rfl <;> rfl

theorem isBlank_of_isLineEnd (h : isLineEnd c = true) : isBlank c = false := by
  cases hblank : isBlank c with
  | false => rfl
  | true =>
    rw [isLineEnd_of_isBlank hblank] at h
    cases h

theorem lexemeStarts_of_ok {kind : LexemeKind} {extra : Nat}
    (h : lexemeAhead fresh active c r = .ok (kind, extra)) :
    LexemeStarts fresh active c r extra kind := by
  unfold lexemeAhead at h
  change (if isDisabled fresh active c r then _ else _) = _ at h
  split at h
  · next hdisabled =>
    cases h
    exact .disabledText hdisabled rfl
  next hread =>
  rw [Bool.not_eq_true] at hread
  split at h
  · next hblank =>
    cases h
    exact .whitespace hread hblank rfl
  next hblank =>
  split at h
  · next hend =>
    cases h
    exact .endOfLine hend rfl
  next hend =>
  split at h
  · next hhash =>
    cases h
    obtain ⟨hc, hfresh⟩ := Bool.and_eq_true_iff.mp hhash
    exact .directive hread (eq_of_beq hc) hfresh rfl
  next hhash =>
  rw [Bool.not_eq_true] at hblank hend hhash
  have hactive := active_of_read hread hblank hend hhash
  split at h
  · next hslash =>
    cases h
    obtain ⟨hc, hnext⟩ := Bool.and_eq_true_iff.mp hslash
    exact .lineComment hactive (eq_of_beq hc) (eq_of_beq hnext) rfl
  next hslash =>
  split at h
  · next hstar =>
    split at h
    · next n hcomment =>
      cases h
      obtain ⟨hc, hnext⟩ := Bool.and_eq_true_iff.mp hstar
      exact .comment hactive (eq_of_beq hc) (eq_of_beq hnext) hcomment rfl
    · cases h
  next hstar =>
  rw [Bool.not_eq_true] at hslash hstar
  obtain ⟨⟨kind, extra⟩, htoken, heq⟩ := ok_of_map h
  cases heq
  exact .token hactive hblank hend hhash hslash hstar (tokenStarts_of_ok htoken)

theorem LexemeStarts.ok {kind : LexemeKind} {extra : Nat}
    (h : LexemeStarts fresh active c r extra kind) :
    lexemeAhead fresh active c r = .ok (kind, extra) := by
  unfold lexemeAhead
  change (if isDisabled fresh active c r then _ else _) = _
  cases h with
  | disabledText hdisabled hlength => rw [if_pos hdisabled, hlength, Nat.add_sub_cancel]
  | whitespace hread hblank hextra =>
    rw [hread, if_neg Bool.false_ne_true, if_pos hblank, hextra]
  | endOfLine hend hextra =>
    rw [isDisabled_of_isLineEnd hend, if_neg Bool.false_ne_true, isBlank_of_isLineEnd hend,
      if_neg Bool.false_ne_true, if_pos hend, hextra]
  | directive hread hhash hfresh hextra =>
    subst hhash hfresh
    rw [hread, hextra]
    rfl
  | lineComment hactive hslash hnext hextra =>
    subst hactive hslash
    rw [hnext, hextra]
    rfl
  | comment hactive hslash hstar hcomment hextra =>
    subst hactive hslash
    rw [hstar, hcomment, hextra]
    rfl
  | token hactive hblank hend hhash hslash hstar htoken =>
    subst hactive
    rw [hblank, hend, hhash, hslash, hstar, htoken.ok]
    rfl

end Lexemes

end NullableMarker
