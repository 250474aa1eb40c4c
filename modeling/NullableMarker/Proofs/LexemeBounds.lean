import NullableMarker.Proofs.LexemeStarts

/-!
# Lexemes end inside the text

Each reader of `Lexeme` tells how many characters it takes. None of them takes more than there are,
so that the offset after a lexeme is the offset before it plus its length.
-/

namespace NullableMarker

open Text

/-! ## Literals -/

namespace Literal

theorem length_takeWhile_le (p : Char → Bool) (s : List Char) :
    (s.takeWhile p).length ≤ s.length :=
  (List.takeWhile_sublist p).length_le

theorem quoteRun_le (s : List Char) : quoteRun s ≤ s.length := length_takeWhile_le _ s

/-- The marks before an interpolated string and the quote after them lie in the text. -/
theorem marks_le {s r : List Char} {k : Nat} (h : s.drop k = '"' :: r) :
    k + 1 + r.length = s.length := by
  have hlen := congrArg List.length h
  simp only [List.length_drop, List.length_cons] at hlen
  omega

/-- What opens a literal lies in the text. -/
theorem opening?_le {n extra : Nat} {s : List Char} {f : Frame}
    (h : opening? n s = some (f, extra)) : 1 + extra ≤ s.length := by
  unfold opening? at h
  split at h
  · next r =>
    have hrun := quoteRun_le r
    split at h <;> cases h <;> simp only [List.length_cons] <;> omega
  · cases h; simp
  · cases h; simp only [List.length_cons]; omega
  · simp only at h
    split at h
    · split at h
      · next r hdrop =>
        have hlen := marks_le hdrop
        have hrun := quoteRun_le r
        split at h <;> cases h <;> omega
      · cases h
    · cases h

/-- A frame that closes without another taking its place ends inside the text. -/
theorem Frame.step_nil_le {f : Frame} {n extra : Nat} {c : Char} {r : List Char}
    (h : f.step n c r = .ok ([], extra)) : extra ≤ r.length := by
  have hrun := quoteRun_le r
  unfold Frame.step at h
  repeat' split at h
  all_goals simp at h
  all_goals omega

/-- The end of the open frames lies in the text, and after at least one character when there are
open frames. -/
theorem closing_bounds {frames : List Frame} {n m : Nat} {s : List Char}
    (h : closing frames n s = .ok m) :
    n ≤ m ∧ m ≤ n + s.length ∧ (frames ≠ [] → n < m) := by
  fun_induction closing frames n s with
  | case1 n s => cases h; simp
  | case2 n f fs => cases h
  | case3 n f fs c r e he => cases h
  | case4 n f fs c r gs extra he ih =>
    obtain ⟨hlow, hhigh, -⟩ := ih h
    rw [List.length_drop] at hhigh
    refine ⟨by omega, ?_, fun _ => by omega⟩
    by_cases hin : extra ≤ r.length
    · rw [List.length_cons]; omega
    · -- past the end only an open frame is left, and it has no end there
      rw [List.drop_eq_nil_of_le (by omega)] at h
      cases hgs : gs ++ fs with
      | nil =>
        rw [List.append_eq_nil_iff] at hgs
        rw [hgs.1] at he
        exact absurd (Frame.step_nil_le he) hin
      | cons g rest =>
        rw [hgs] at h
        simp [closing] at h

/-- A literal has at least two characters, and ends inside the text. -/
theorem literalLength?_bounds {s : List Char} {k : Nat} (h : literalLength? s = .ok (some k)) :
    2 ≤ k ∧ k ≤ s.length := by
  obtain ⟨f, extra, hopening, hclosing⟩ := literalLength?_eq_some h
  have hle := opening?_le hopening
  obtain ⟨hlow, hhigh, hne⟩ := closing_bounds hclosing
  have := hne (List.cons_ne_nil f [])
  rw [List.length_drop] at hhigh
  omega

end Literal

/-! ## Numbers -/

namespace Number

theorem runLength_le (p : Char → Bool) (s : List Char) : runLength p s ≤ s.length :=
  Literal.length_takeWhile_le p s

theorem digits_le (s : List Char) : digits s ≤ s.length := by
  unfold digits
  split
  · next c r =>
    have := runLength_le isDigitOrMark r
    split <;> simp only [List.length_cons] <;> omega
  · exact Nat.le_refl _

theorem fraction_le (s : List Char) : fraction s ≤ s.length := by
  unfold fraction
  split
  · next r =>
    have := digits_le r
    split <;> simp only [List.length_cons] <;> omega
  · exact Nat.zero_le _

theorem exponent_le (s : List Char) : exponent s ≤ s.length := by
  unfold exponent
  split
  · next e r =>
    split
    · next hexp =>
      have hdigits := digits_le (r.drop (sign r))
      have hpos : digits (r.drop (sign r)) ≠ 0 := by simpa using (Bool.and_eq_true_iff.mp hexp).2
      rw [List.length_drop] at hdigits
      rw [List.length_cons]
      omega
    · exact Nat.zero_le _
  · exact Nat.zero_le _

theorem decimal_le (s : List Char) : decimal s ≤ s.length := by
  unfold decimal
  simp only
  have hwhole := digits_le s
  have hfraction := fraction_le (s.drop (digits s))
  rw [List.length_drop] at hfraction
  have hexponent := exponent_le (s.drop (digits s + fraction (s.drop (digits s))))
  rw [List.length_drop] at hexponent
  have hsuffix := runLength_le isSuffix (s.drop (digits s + fraction (s.drop (digits s))
    + exponent (s.drop (digits s + fraction (s.drop (digits s))))))
  rw [List.length_drop] at hsuffix
  omega

theorem based_le (isMark isDigit : Char → Bool) (s : List Char) :
    based isMark isDigit s ≤ s.length := by
  unfold based
  split
  · next m r =>
    simp only
    have hcount := runLength_le isDigit r
    have hsuffix := runLength_le isIntegerSuffix (r.drop (runLength isDigit r))
    rw [List.length_drop] at hsuffix
    split <;> simp only [List.length_cons] <;> omega
  · exact Nat.zero_le _

theorem numberLength_le (s : List Char) : numberLength s ≤ s.length := by
  unfold numberLength
  simp only
  split
  · exact based_le _ _ s
  · split
    · exact based_le _ _ s
    · exact decimal_le s

end Number

/-! ## Marks -/

/-- Every mark in the table of double marks has two characters. -/
theorem length_of_mem_doubleMarks {mark : List Char × TokenKind} (h : mark ∈ doubleMarks) :
    mark.1.length = 2 := by
  revert mark; decide

/-- No mark is the end of the file. -/
theorem doubleMarks_ne_eof {mark : List Char × TokenKind} (h : mark ∈ doubleMarks) :
    mark.2 ≠ .eof := by
  revert mark; decide

theorem singleMarks_ne_eof {mark : Char × TokenKind} (h : mark ∈ singleMarks) :
    mark.2 ≠ .eof := by
  revert mark; decide

/-- What is found under a key stands in the list with that key. -/
theorem mem_of_lookup_eq_some {α β : Type} [BEq α] [LawfulBEq α] {key : α} {value : β}
    {l : List (α × β)} (h : l.lookup key = some value) : (key, value) ∈ l := by
  obtain ⟨before, after, rfl, -⟩ := List.lookup_eq_some_iff.mp h
  simp

theorem punctuation?_bounds {c : Char} {r : List Char} {kind : TokenKind} {extra : Nat}
    (h : punctuation? c r = some (kind, extra)) : extra ≤ r.length ∧ kind ≠ .eof := by
  unfold punctuation? at h
  split at h
  · next k hlookup =>
    cases h
    have hmem := mem_of_lookup_eq_some hlookup
    have hlen := length_of_mem_doubleMarks hmem
    simp only [List.length_cons, List.length_take] at hlen
    exact ⟨by omega, doubleMarks_ne_eof hmem⟩
  · obtain ⟨k, hlookup, hk⟩ := Option.map_eq_some_iff.mp h
    cases hk
    exact ⟨Nat.zero_le _, singleMarks_ne_eof (mem_of_lookup_eq_some hlookup)⟩

/-! ## Tokens and trivia -/

theorem wordKind_ne_eof (word : String) : wordKind word ≠ .eof := by
  rw [wordKind]
  split <;> simp

theorem tokenAhead_bounds {c : Char} {r : List Char} {kind : TokenKind} {extra : Nat}
    (h : tokenAhead c r = .ok (kind, extra)) : extra ≤ r.length ∧ kind ≠ .eof := by
  cases tokenStarts_of_ok h with
  | literal hliteral hkind hextra =>
    obtain ⟨-, hle⟩ := Literal.literalLength?_bounds hliteral
    rw [List.length_cons] at hle
    refine ⟨by omega, ?_⟩
    rw [hkind]
    split <;> decide
  | word hnone hword hkind hextra =>
    rw [hkind, hextra]
    exact ⟨Literal.length_takeWhile_le _ r, wordKind_ne_eof _⟩
  | number hnone hword hnumber hkind hextra =>
    have hle := Number.numberLength_le (c :: r)
    rw [List.length_cons] at hle
    rw [hkind]
    exact ⟨by omega, by decide⟩
  | mark hnone hword hnumber hmark => exact punctuation?_bounds hmark

theorem commentEnd?_le {s : List Char} {n : Nat} (h : commentEnd? s = some n) : n ≤ s.length := by
  fun_induction commentEnd? s generalizing n with
  | case1 r =>
    cases h
    simp only [List.length_cons]
    omega
  | case2 c r _ ih =>
    obtain ⟨m, hm, rfl⟩ := Option.map_eq_some_iff.mp h
    have := ih hm
    rw [List.length_cons]
    omega
  | case3 => cases h

theorem disabledLength_le (lineStart : Bool) (s : List Char) :
    disabledLength lineStart s ≤ s.length := by
  induction s generalizing lineStart with
  | nil => exact Nat.le_refl _
  | cons c r ih =>
    unfold disabledLength
    split
    · exact Nat.zero_le _
    · have := ih (endsLine c r)
      rw [List.length_cons]; omega

/-- A lexeme ends inside the text, and no lexeme is an end-of-file token. -/
theorem lexemeAhead_bounds {fresh active : Bool} {c : Char} {r : List Char} {kind : LexemeKind}
    {extra : Nat} (h : lexemeAhead fresh active c r = .ok (kind, extra)) :
    extra ≤ r.length ∧ kind ≠ .token .eof := by
  cases lexemeStarts_of_ok h with
  | disabledText hdisabled hlength =>
    have hle := disabledLength_le false (c :: r)
    rw [List.length_cons] at hle
    exact ⟨by omega, by simp⟩
  | whitespace hread hblank hextra =>
    exact ⟨hextra ▸ Literal.length_takeWhile_le _ r, by simp⟩
  | endOfLine hend hextra =>
    refine ⟨?_, by simp⟩
    cases r with
    | nil => simp [hextra]
    | cons d r =>
      rw [hextra, List.length_cons]
      split <;> omega
  | directive hread hhash hfresh hextra =>
    exact ⟨hextra ▸ Literal.length_takeWhile_le _ r, by simp⟩
  | lineComment hactive hslash hnext hextra =>
    exact ⟨hextra ▸ Literal.length_takeWhile_le _ r, by simp⟩
  | comment hactive hslash hstar hcomment hextra =>
    obtain ⟨r, rfl⟩ := List.head?_eq_some_iff.mp hstar
    have hle := commentEnd?_le hcomment
    rw [List.drop_one, List.tail_cons] at hle
    rw [List.length_cons]
    exact ⟨by omega, by simp⟩
  | token hactive hblank hend hhash hslash hstar htoken =>
    obtain ⟨hle, hne⟩ := tokenAhead_bounds htoken.ok
    exact ⟨hle, by simpa using hne⟩

end NullableMarker
