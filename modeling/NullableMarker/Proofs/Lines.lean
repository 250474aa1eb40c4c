import NullableMarker.Proofs.Tiling

/-!
# The lines that tokens stand on

A token stands on the line that is reached by counting the ends of lines in the text before it. A
return ends a line unless a line feed follows, so that the ends of lines in a text depend on what
comes right after it.

* `Text.lineEnds` — the ends of lines in a text that is followed by another
* `cut_lined`, `attach_lined` — lexemes and tokens stand where they are counted to stand
* `TokenStream.ofSource_lined` — the tokens of a source
-/

namespace NullableMarker

namespace Text

/-! ## Counting -/

/-- The number of lines that end in `s`, when `rest` follows it. -/
def lineEnds : List Char → List Char → Nat
  | [], _ => 0
  | c :: s, rest => (if endsLine c (s ++ rest) then 1 else 0) + lineEnds s rest

@[simp] theorem lineEnds_nil (rest : List Char) : lineEnds [] rest = 0 := rfl

theorem lineEnds_append (a b rest : List Char) :
    lineEnds (a ++ b) rest = lineEnds a (b ++ rest) + lineEnds b rest := by
  induction a with
  | nil => simp
  | cons c a ih => rw [List.cons_append, lineEnds, lineEnds, ih, List.append_assoc, Nat.add_assoc]

theorem Place.line_after (p : Place) (s rest : List Char) :
    (p.after s.length (s ++ rest)).line = p.line + lineEnds s rest := by
  induction s generalizing p with
  | nil => rfl
  | cons c s ih =>
    rw [List.length_cons, List.cons_append, Place.after, ih, lineEnds, ← Nat.add_assoc]
    congr 1
    unfold Place.step
    split <;> rfl

theorem head?_append_congr {s rest rest' : List Char} (h : rest.head? = rest'.head?) :
    (s ++ rest).head? = (s ++ rest').head? := by
  rw [List.head?_append, List.head?_append, h]

/-- Only the next character counts. -/
theorem lineEnds_congr (s : List Char) {rest rest' : List Char} (h : rest.head? = rest'.head?) :
    lineEnds s rest = lineEnds s rest' := by
  induction s with
  | nil => rfl
  | cons c s ih => rw [lineEnds, lineEnds, endsLine, endsLine, head?_append_congr h, ih]

/-- After a character that takes no part in ending a line, nothing counts. -/
theorem lineEnds_closed {s : List Char} (h : s.getLast?.all (!isLineEnd ·) = true)
    (rest rest' : List Char) : lineEnds s rest = lineEnds s rest' := by
  induction s with
  | nil => rfl
  | cons c s ih =>
    cases s with
    | nil =>
      have hc : isLineEnd c = false := by simpa using h
      rw [isLineEnd, Bool.or_eq_false_iff] at hc
      simp [lineEnds, endsLine, hc.1, hc.2]
    | cons d s =>
      rw [List.getLast?_cons_cons] at h
      show _ + lineEnds (d :: s) rest = _ + lineEnds (d :: s) rest'
      rw [ih h]
      rfl

end Text

open Text

/-! ## Lexemes -/

/-- Lexemes that follow one another from line `n` on. -/
def Lexeme.LinedFrom (n : Nat) : List Lexeme → Prop
  | [] => True
  | l :: ls => l.place.line = n ∧ LinedFrom (n + lineEnds l.text (textOf ls)) ls

/-- The lexemes of a text stand on the lines that are counted, and so does its end. -/
theorem cut_lined {st : ScanState} {s : List Char} {pieces : Cut} (h : cut st s = .ok pieces) :
    Lexeme.LinedFrom st.place.line pieces.lexemes
      ∧ pieces.final.place.line = st.place.line + lineEnds s [] := by
  fun_induction cut st s generalizing pieces with
  | case1 st _ =>
    cases h
    exact ⟨trivial, rfl⟩
  | case2 => cases h
  | case3 => cases h
  | case4 => cases h
  | case5 => cases h
  | case6 st c r kind extra hahead region hregion rest hrest ih =>
    cases h
    obtain ⟨hextra, -⟩ := lexemeAhead_bounds hahead
    obtain ⟨hlined, hfinal⟩ := ih hrest
    have htext := (cut_tiled hrest).1
    have hsplit : c :: r.take extra ++ r.drop extra = c :: r := by
      rw [List.cons_append, List.take_append_drop]
    have hline : (st.place.after (extra + 1) (c :: r)).line
        = st.place.line + lineEnds (c :: r.take extra) (r.drop extra) := by
      have hlen : (c :: r.take extra).length = extra + 1 := by
        rw [List.length_cons, List.length_take, Nat.min_eq_left hextra]
      rw [← Place.line_after, hsplit, hlen]
    refine ⟨⟨rfl, ?_⟩, ?_⟩
    · show Lexeme.LinedFrom (st.place.line + lineEnds (c :: r.take extra)
        (Lexeme.textOf rest.lexemes)) rest.lexemes
      rw [htext, ← hline]
      exact hlined
    · show rest.final.place.line = st.place.line + lineEnds (c :: r) []
      have hwhole : lineEnds (c :: r) []
          = lineEnds (c :: r.take extra) (r.drop extra) + lineEnds (r.drop extra) [] := by
        rw [← hsplit, lineEnds_append, List.append_nil]
      rw [hfinal, hwhole, ← Nat.add_assoc, ← hline]
      rfl

theorem trailingTrivia_lined {n : Nat} {ls : List Lexeme} (h : Lexeme.LinedFrom n ls) :
    Lexeme.LinedFrom (n + lineEnds (Trivia.textOf (trailingTrivia ls).1).toList
      (Lexeme.textOf (trailingTrivia ls).2)) (trailingTrivia ls).2 := by
  induction ls generalizing n with
  | nil => exact trivial
  | cons l ls ih =>
    obtain ⟨hline, hrest⟩ := h
    unfold trailingTrivia
    split
    · exact ⟨hline, hrest⟩
    · simpa using hrest
    · have hmore := ih hrest
      have htext := trailingTrivia_tiled ls
      rw [← htext, Nat.add_assoc, ← lineEnds_append] at hmore
      simpa using hmore

/-! ## Tokens -/

/-- Tokens that follow one another from line `n` on, with `rest` after them. -/
def Token.LinedFrom (n : Nat) (rest : List Char) : List Token → Prop
  | [] => True
  | t :: ts =>
    t.place.line = n + lineEnds (Trivia.textOf t.leading).toList (t.value.toList
        ++ ((Trivia.textOf t.trailing).toList ++ ((fullTextOf ts).toList ++ rest)))
      ∧ LinedFrom (n + lineEnds t.fullText.toList ((fullTextOf ts).toList ++ rest)) rest ts

theorem Token.linedFrom_append (n : Nat) (rest : List Char) (as bs : List Token) :
    LinedFrom n rest (as ++ bs) ↔ LinedFrom n ((fullTextOf bs).toList ++ rest) as
      ∧ LinedFrom (n + lineEnds (fullTextOf as).toList ((fullTextOf bs).toList ++ rest)) rest bs := by
  induction as generalizing n with
  | nil => simp [LinedFrom]
  | cons a as ih =>
    simp only [List.cons_append, LinedFrom, ih, and_assoc, fullTextOf_cons, fullTextOf_append,
      String.toList_append, List.append_assoc, lineEnds_append, Nat.add_assoc]

/-- Attaching trivia keeps lines. -/
theorem attach_lined (n : Nat) (leading : List Trivia) (ls : List Lexeme)
    (h : Lexeme.LinedFrom (n + lineEnds (Trivia.textOf leading).toList (Lexeme.textOf ls)) ls) :
    Token.LinedFrom n (Trivia.textOf (attach leading ls).2).toList (attach leading ls).1 := by
  fun_induction attach leading ls generalizing n with
  | case1 leading => trivial
  | case2 leading l ls kind hkind ih =>
    obtain ⟨-, hrest⟩ := h
    refine ih n ?_
    rw [Lexeme.textOf_cons, Nat.add_assoc, ← lineEnds_append] at hrest
    simpa using hrest
  | case3 leading l ls kind hkind tokens last hattach ih =>
    obtain ⟨hline, hrest⟩ := h
    have htrail := trailingTrivia_lined hrest
    have htext := attach_text [] (trailingTrivia ls).2
    rw [hattach, Trivia.textOf_nil, String.toList_empty, List.nil_append] at htext
    have hls := trailingTrivia_tiled ls
    refine ⟨?_, ?_⟩
    · show l.place.line = _
      rw [htext, hls, hline]
      simp
    · have hmore := ih (n + lineEnds (Trivia.textOf leading).toList (Lexeme.textOf (l :: ls))
        + lineEnds l.text (Lexeme.textOf ls)
        + lineEnds (Trivia.textOf (trailingTrivia ls).1).toList
          (Lexeme.textOf (trailingTrivia ls).2)) (by simpa using htrail)
      rw [hattach] at hmore
      rw [htext]
      simpa [Token.fullText, lineEnds_append, hls, Nat.add_assoc] using hmore

/-- The tokens of a source stand on the lines that are counted. -/
theorem TokenStream.ofSource_lined {source : String} {defined : List String} {stream : TokenStream}
    (h : ofSource source defined = .ok stream) : Token.LinedFrom 1 [] stream.all := by
  obtain ⟨pieces, hcut, rfl⟩ : ∃ pieces, cut { region := Region.start defined } source.toList
      = .ok pieces ∧ ofCut pieces = stream := by
    unfold ofSource at h
    cases hcut : cut { region := Region.start defined } source.toList with
    | error e => rw [hcut] at h; cases h
    | ok pieces => rw [hcut] at h; cases h; exact ⟨pieces, rfl, rfl⟩
  obtain ⟨hlined, hfinal⟩ := cut_lined hcut
  have hfull := attach_text [] pieces.lexemes
  rw [(cut_tiled hcut).1, Trivia.textOf_nil, String.toList_empty, List.nil_append] at hfull
  have htokens := attach_lined 1 [] pieces.lexemes (by simpa [Place.first] using hlined)
  rw [all, Token.linedFrom_append]
  refine ⟨by simpa [ofCut, Token.fullText] using htokens, ?_, trivial⟩
  show pieces.final.place.line = _
  rw [hfinal, ← hfull, lineEnds_append]
  simp [ofCut, Token.fullText, Place.first, Nat.add_assoc]

end NullableMarker
