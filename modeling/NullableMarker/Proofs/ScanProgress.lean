import Mathlib.Algebra.Ring.Nat
import NullableMarker.Proofs.Scans

/-!
# Scans move on

Each step of a scan takes at least one character and stays inside the text: the steps inside
literals, whatever is nested in them, the lines that are skipped as disabled text, and the lexemes of
a source. So every scan comes to an end.

* `Literal.Scan`, `Literal.Halts` — the steps of a scan inside literals, and that they end
* `Spans`, `spans_of_lexemeAhead` — how long a lexeme is
* `SkipsLines`, `exists_lines` — the lines of disabled text
* `TokenStream.Halts` — the lexemes of a source
* `lexing_progresses` — all of them
-/

namespace NullableMarker

open Text

theorem drop_of_cons {source r : List Char} {n : Nat} {c : Char} (h : c :: r = source.drop n) :
    source[n]? = some c ∧ r = source.drop (n + 1) := by
  constructor
  · have hhead := congrArg List.head? h
    rw [List.head?_drop] at hhead
    exact hhead.symm
  · have htail := congrArg List.tail h
    rw [List.tail_drop] at htail
    exact htail

/-! ## Inside literals -/

namespace Literal

/-- Only a frame that is open is at fault. -/
theorem Frame.step_error {f : Frame} {n : Nat} {c : Char} {r : List Char} {e : LexFault}
    (h : f.step n c r = .error e) : e = f.unterminated n := by
  unfold Frame.step at h
  repeat' split at h
  all_goals simp at h
  all_goals exact h.symm

/-- A scan of a source goes on from offset `n` with some frames open. The offsets at which it reads
the next character are given in order, and the outcome: the offset where all frames are closed, or
the fault of a frame that is left open. -/
inductive Scan (source : List Char) : List Frame → Nat → List Nat → Except LexFault Nat → Prop
  | closed (n : Nat) : Scan source [] n [] (.ok n)
  | leftOpen {f : Frame} {fs : List Frame} {n : Nat} (hend : source.length ≤ n) :
      Scan source (f :: fs) n [] (.error (f.unterminated n))
  | fault {f : Frame} {fs : List Frame} {n : Nat} {c : Char} (hread : source[n]? = some c)
      (hstep : f.step n c (source.drop (n + 1)) = .error (f.unterminated n)) :
      Scan source (f :: fs) n [n] (.error (f.unterminated n))
  | step {f : Frame} {fs gs : List Frame} {n extra : Nat} {c : Char} {reads : List Nat}
      {outcome : Except LexFault Nat} (hread : source[n]? = some c)
      (hstep : f.step n c (source.drop (n + 1)) = .ok (gs, extra))
      (h : Scan source (gs ++ fs) (n + 1 + extra) reads outcome) :
      Scan source (f :: fs) n (n :: reads) outcome

/-- The frames are closed by a scan, or left open by one. -/
theorem exists_scan {source s : List Char} {frames : List Frame} {n : Nat}
    (hs : s = source.drop n) : ∃ reads, Scan source frames n reads (closing frames n s) := by
  fun_induction closing frames n s with
  | case1 n s => exact ⟨[], .closed n⟩
  | case2 n f fs => exact ⟨[], .leftOpen (List.drop_eq_nil_iff.mp hs.symm)⟩
  | case3 n f fs c r e hstep =>
    obtain ⟨hread, rfl⟩ := drop_of_cons hs
    obtain rfl := Frame.step_error hstep
    exact ⟨[n], .fault hread hstep⟩
  | case4 n f fs c r gs extra hstep ih =>
    obtain ⟨hread, rfl⟩ := drop_of_cons hs
    obtain ⟨reads, hscan⟩ := ih List.drop_drop
    exact ⟨n :: reads, .step hread hstep hscan⟩

section Scan

variable {source : List Char} {frames : List Frame} {n : Nat} {reads : List Nat}
  {outcome : Except LexFault Nat}

/-- A scan reads inside the source, each time further on. -/
theorem Scan.reads_inside (h : Scan source frames n reads outcome) :
    reads.Pairwise (· < ·) ∧ ∀ i ∈ reads, n ≤ i ∧ i < source.length := by
  induction h with
  | closed n => simp
  | leftOpen hend => simp
  | fault hread hstep =>
    obtain ⟨hlt, -⟩ := List.getElem?_eq_some_iff.mp hread
    simpa using hlt
  | @step f fs gs n extra c reads outcome hread hstep h ih =>
    obtain ⟨hpairwise, hinside⟩ := ih
    obtain ⟨hlt, -⟩ := List.getElem?_eq_some_iff.mp hread
    refine ⟨List.pairwise_cons.mpr ⟨fun i hi => ?_, hpairwise⟩, ?_⟩
    · have := (hinside i hi).1
      omega
    · rintro i (_ | ⟨_, hi⟩)
      · exact ⟨Nat.le_refl n, hlt⟩
      · have := hinside i hi
        omega

theorem Scan.fault_unterminated (h : Scan source frames n reads outcome) {e : LexFault}
    (herror : outcome = .error e) : ∃ (f : Frame) (m : Nat), e = f.unterminated m := by
  induction h with
  | closed n => cases herror
  | leftOpen hend => exact ⟨_, _, (Except.error.inj herror).symm⟩
  | fault hread hstep => exact ⟨_, _, (Except.error.inj herror).symm⟩
  | step hread hstep h ih => exact ih herror

end Scan

/-- From offset `n` of a source a scan with some frames open comes to an end. It reads only inside
the source, each time further on. The frames are closed further on, but not past the end of the
source, or one of them is left open. -/
def Halts (source : List Char) (frames : List Frame) (n : Nat) : Prop :=
  ∃ reads, Scan source frames n reads (closing frames n (source.drop n))
    ∧ reads.Pairwise (· < ·) ∧ (∀ i ∈ reads, n ≤ i ∧ i < source.length)
    ∧ match closing frames n (source.drop n) with
      | .ok stop => n < stop ∧ stop ≤ source.length
      | .error e => ∃ (f : Frame) (m : Nat), e = f.unterminated m

theorem halts (source : List Char) {frames : List Frame} (hframes : frames ≠ []) (n : Nat) :
    Halts source frames n := by
  obtain ⟨reads, hscan⟩ := @exists_scan source (source.drop n) frames n rfl
  obtain ⟨hincreasing, hinside⟩ := hscan.reads_inside
  refine ⟨reads, hscan, hincreasing, hinside, ?_⟩
  cases hclosing : closing frames n (source.drop n) with
  | error e => exact hscan.fault_unterminated hclosing
  | ok stop =>
    obtain ⟨-, hle, hlt⟩ := closing_bounds hclosing
    rw [List.length_drop] at hle
    by_cases hn : n ≤ source.length
    · exact ⟨hlt hframes, by omega⟩
    · -- there is nothing to close the frames
      obtain ⟨f, fs, rfl⟩ := List.exists_cons_of_ne_nil hframes
      rw [List.drop_eq_nil_of_le (by omega)] at hclosing
      simp [closing] at hclosing

/-- A literal takes at least two characters and ends inside the source, or it is left open. -/
theorem literal_ends {source : List Char} {p : Nat} (hp : p < source.length) :
    match literalLength? (source.drop p) with
    | .ok none => opening? 0 (source.drop p) = none
    | .ok (some k) => p + 2 ≤ p + k ∧ p + k ≤ source.length
    | .error e => ∃ (f : Frame) (m : Nat), e = f.unterminated m := by
  cases hlength : literalLength? (source.drop p) with
  | ok found =>
    cases found with
    | some k =>
      obtain ⟨hlow, hhigh⟩ := literalLength?_bounds hlength
      rw [List.length_drop] at hhigh
      exact ⟨by omega, by omega⟩
    | none => exact literalLength?_eq_none_iff.mp hlength
  | error e =>
    obtain ⟨f, extra, -, hclosing⟩ := literalLength?_eq_error hlength
    obtain ⟨reads, hscan⟩ := exists_scan rfl
    exact hscan.fault_unterminated hclosing

/-- What opens a literal stands inside the source. -/
theorem opening_inside {source : List Char} {p n extra : Nat} {f : Frame} (hp : p < source.length)
    (h : opening? n (source.drop p) = some (f, extra)) : p + 1 + extra ≤ source.length := by
  have hle := opening?_le h
  rw [List.length_drop] at hle
  omega

end Literal

/-! ## Lexemes -/

theorem digits_pos {c : Char} (h : c.isDigit = true) (r : List Char) :
    0 < Number.digits (c :: r) := by
  rw [Number.digits, if_pos h]
  exact Nat.succ_pos _

/-- What starts as a number has a number at its start. -/
theorem numberLength_pos {s : List Char} (h : Number.startsNumber s = true) :
    0 < Number.numberLength s := by
  unfold Number.startsNumber at h
  split at h
  · next d r =>
    have := Number.two_le_numberLength h r
    omega
  · next c r _ =>
    have hdecimal : 0 < Number.decimal (c :: r) := by
      have := digits_pos h r
      unfold Number.decimal
      dsimp only
      omega
    unfold Number.numberLength
    dsimp only
    split
    · exact Nat.pos_of_ne_zero ‹_›
    · split
      · exact Nat.pos_of_ne_zero ‹_›
      · exact hdecimal
  · cases h

/-- The number of characters of a lexeme of each kind at the start of a text, as its reader tells. -/
inductive Spans (s : List Char) : LexemeKind → Nat → Prop
  | disabled : Spans s (.trivia .disabledText) (disabledLength false s)
  | blanks : Spans s (.trivia .whitespace) (s.takeWhile isBlank).length
  | returnFeed (h : ['\r', '\n'] <+: s) : Spans s (.trivia .endOfLine) 2
  | lineEnd (h : ¬ ['\r', '\n'] <+: s) : Spans s (.trivia .endOfLine) 1
  | directive : Spans s (.trivia .directive) (s.takeWhile inLine).length
  | lineComment : Spans s (.trivia .singleLineComment) (s.takeWhile inLine).length
  | comment {n : Nat} (h : commentEnd? (s.drop 2) = some n) :
      Spans s (.trivia .multiLineComment) (n + 2)
  | literal {kind : TokenKind} {n : Nat} (h : Literal.literalLength? s = .ok (some n)) :
      Spans s (.token kind) n
  | word {kind : TokenKind} : Spans s (.token kind) (1 + (s.tail.takeWhile isWordPart).length)
  | number : Spans s (.token .number) (Number.numberLength s)
  | mark {c : Char} {r : List Char} {kind : TokenKind} {extra : Nat} (hs : s = c :: r)
      (h : punctuation? c r = some (kind, extra)) : Spans s (.token kind) (extra + 1)

theorem spans_of_tokenAhead {c : Char} {r : List Char} {kind : TokenKind} {extra : Nat}
    (h : tokenAhead c r = .ok (kind, extra)) : Spans (c :: r) (.token kind) (extra + 1) := by
  cases tokenStarts_of_ok h with
  | literal hliteral hkind hextra =>
    have hlow := (Literal.literalLength?_bounds hliteral).1
    rw [hextra, Nat.sub_add_cancel (by omega)]
    exact .literal hliteral
  | word hnone hword hkind hextra =>
    rw [hextra, Nat.add_comm]
    exact .word
  | number hnone hword hnumber hkind hextra =>
    rw [hkind, hextra, Nat.sub_add_cancel (numberLength_pos hnumber)]
    exact .number
  | mark hnone hword hnumber hmark => exact .mark rfl hmark

/-- A lexeme takes as many characters as its reader tells. -/
theorem spans_of_lexemeAhead {fresh active : Bool} {c : Char} {r : List Char} {kind : LexemeKind}
    {extra : Nat} (h : lexemeAhead fresh active c r = .ok (kind, extra)) :
    Spans (c :: r) kind (extra + 1) := by
  have hrun : ∀ p : Char → Bool, p c = true →
      (r.takeWhile p).length + 1 = ((c :: r).takeWhile p).length := by
    intro p hp
    rw [List.takeWhile_cons, if_pos hp, List.length_cons]
  cases lexemeStarts_of_ok h with
  | disabledText hdisabled hlength =>
    rw [← hlength]
    exact .disabled
  | whitespace hread hblank hextra =>
    rw [hextra, hrun _ hblank]
    exact .blanks
  | endOfLine hend hextra =>
    subst hextra
    split
    · next hfeed =>
      rw [Bool.and_eq_true, beq_iff_eq, beq_iff_eq] at hfeed
      obtain ⟨rfl, hhead⟩ := hfeed
      obtain ⟨r, rfl⟩ := List.head?_eq_some_iff.mp hhead
      exact .returnFeed ⟨r, rfl⟩
    · next hfeed =>
      refine .lineEnd ?_
      rintro ⟨r, hr⟩
      cases hr
      exact hfeed rfl
  | directive hread hhash hfresh hextra =>
    subst hhash
    rw [hextra, hrun inLine rfl]
    exact .directive
  | lineComment hactive hslash hnext hextra =>
    subst hslash
    rw [hextra, hrun inLine rfl]
    exact .lineComment
  | comment hactive hslash hstar hcomment hextra =>
    rw [hextra]
    exact .comment hcomment
  | token hactive hblank hend hhash hslash hstar htoken => exact spans_of_tokenAhead htoken.ok

/-! ## Lines of disabled text -/

/-- The number of characters up to and with the first end of a line. -/
def lineLength : List Char → Nat
  | [] => 0
  | c :: r => if endsLine c r then 1 else lineLength r + 1

theorem lineLength_bounds {s : List Char} (h : s ≠ []) :
    0 < lineLength s ∧ lineLength s ≤ s.length := by
  induction s with
  | nil => exact absurd rfl h
  | cons c r ih =>
    rw [lineLength]
    split
    · exact ⟨Nat.one_pos, by simp⟩
    · cases r with
      | nil => exact ⟨Nat.one_pos, by simp [lineLength]⟩
      | cons d r =>
        have := ih (List.cons_ne_nil d r)
        rw [List.length_cons]
        omega

/-- Disabled text takes the rest of its line, and goes on with the next. -/
theorem disabledLength_line (c : Char) (r : List Char) : disabledLength false (c :: r)
    = lineLength (c :: r) + disabledLength true ((c :: r).drop (lineLength (c :: r))) := by
  induction r generalizing c with
  | nil => cases hends : endsLine c [] <;> simp [disabledLength, lineLength, hends]
  | cons d r ih =>
    rw [disabledLength, lineLength]
    cases hends : endsLine c (d :: r) with
    | true => simp [Nat.add_comm]
    | false => simp [ih d, Nat.add_right_comm]

/-- Lines are skipped, each from its start to the next, up to one that holds a conditional directive
or to the end of the text. Their numbers of characters are given. -/
inductive SkipsLines : List Char → List Nat → Prop
  | stop {s : List Char} (h : s = [] ∨ startsConditional s = true) : SkipsLines s []
  | line {s : List Char} {lengths : List Nat} (hs : s ≠ []) (hplain : startsConditional s = false)
      (h : SkipsLines (s.drop (lineLength s)) lengths) : SkipsLines s (lineLength s :: lengths)

/-- Each line that is skipped has a character. -/
theorem SkipsLines.pos {s : List Char} {lengths : List Nat} (h : SkipsLines s lengths) :
    ∀ n ∈ lengths, 0 < n := by
  induction h with
  | stop h => simp
  | line hs hplain h ih =>
    rintro n (_ | ⟨_, hn⟩)
    · exact (lineLength_bounds hs).1
    · exact ih n hn

theorem disabledLength_true {s : List Char} (h : startsConditional s = false) :
    disabledLength true s = disabledLength false s := by
  cases s with
  | nil => rfl
  | cons c r => simp [disabledLength, h]

/-- Skipping lines comes to an end. -/
theorem exists_lines (s : List Char) :
    ∃ lengths, SkipsLines s lengths ∧ disabledLength true s = lengths.sum := by
  induction hn : s.length using Nat.strongRecOn generalizing s with
  | ind n ih =>
    subst hn
    cases s with
    | nil => exact ⟨[], .stop (.inl rfl), rfl⟩
    | cons c r =>
      cases hplain : startsConditional (c :: r) with
      | true => exact ⟨[], .stop (.inr hplain), by simp [disabledLength, hplain]⟩
      | false =>
        obtain ⟨hpos, hle⟩ := lineLength_bounds (List.cons_ne_nil c r)
        obtain ⟨lengths, hskips, hsum⟩ := ih ((c :: r).drop (lineLength (c :: r))).length
          (by rw [List.length_drop]; omega) _ rfl
        refine ⟨_, .line (List.cons_ne_nil c r) hplain hskips, ?_⟩
        rw [disabledLength_true hplain, disabledLength_line, hsum, List.sum_cons]

/-- Disabled text takes lines, the rest of the first one and all of the others. -/
theorem disabled_lines {s : List Char} (h : s ≠ []) :
    ∃ lengths, SkipsLines (s.drop (lineLength s)) lengths
      ∧ disabledLength false s = (lineLength s :: lengths).sum
      ∧ ∀ n ∈ lineLength s :: lengths, 0 < n := by
  obtain ⟨c, r, rfl⟩ := List.exists_cons_of_ne_nil h
  obtain ⟨lengths, hskips, hsum⟩ := exists_lines ((c :: r).drop (lineLength (c :: r)))
  refine ⟨lengths, hskips, by rw [disabledLength_line, hsum, List.sum_cons], ?_⟩
  rintro n (_ | ⟨_, hn⟩)
  · exact (lineLength_bounds h).1
  · exact hskips.pos n hn

/-! ## The lexemes of a source -/

theorem Lexeme.tiledFrom_append (n : Nat) (as bs : List Lexeme) : TiledFrom n (as ++ bs)
    ↔ TiledFrom n as ∧ TiledFrom (n + (textOf as).length) bs := by
  induction as generalizing n with
  | nil => simp [TiledFrom]
  | cons l as ih => simp [TiledFrom, ih, Nat.add_assoc, and_assoc]

/-- There are no more lexemes than characters. -/
theorem Lexeme.TiledFrom.length_le {n : Nat} {ls : List Lexeme} (h : TiledFrom n ls) :
    ls.length ≤ (textOf ls).length := by
  induction ls generalizing n with
  | nil => exact Nat.le_refl 0
  | cons l ls ih =>
    obtain ⟨-, hne, -, hls⟩ := h
    have hpos := List.length_pos_iff.mpr hne
    have hle := ih hls
    rw [textOf_cons, List.length_append, List.length_cons]
    omega

namespace Reaches

variable {start st : ScanState} {source rest : List Char} {steps : List ScanStep}

/-- The lexemes of a scan follow one another, and the scan goes on where they end. -/
theorem tiled (h : Reaches start source steps st rest) :
    Lexeme.TiledFrom start.offset (steps.map (·.lexeme)).reverse
      ∧ st.offset = start.offset + (Lexeme.textOf (steps.map (·.lexeme)).reverse).length := by
  induction h with
  | start => exact ⟨trivial, rfl⟩
  | @step steps st c r rest step h hstep ih =>
    obtain ⟨htiled, hoffset⟩ := ih
    obtain ⟨kind, extra, region, hahead, -, rfl, -⟩ := ScanState.step_ok hstep
    obtain ⟨hextra, hkind⟩ := lexemeAhead_bounds hahead
    rw [List.map_cons, List.reverse_cons]
    refine ⟨(Lexeme.tiledFrom_append _ _ _).mpr ⟨htiled, hoffset, by simp, hkind, trivial⟩, ?_⟩
    show st.offset + (extra + 1) = _
    simp [hoffset, Nat.min_eq_left hextra, Nat.add_assoc]

/-- A scan comes to the end of its text, or to a point where no step can be taken. -/
theorem exists_halt (h : Reaches start source steps st rest) :
    ∃ steps' st' rest', Reaches start source steps' st' rest'
      ∧ (rest' = [] ∨ ∃ c r e, rest' = c :: r ∧ st'.step c r = .error e) := by
  induction hn : rest.length using Nat.strongRecOn generalizing steps st rest with
  | ind n ih =>
    subst hn
    cases rest with
    | nil => exact ⟨steps, st, [], h, .inl rfl⟩
    | cons c r =>
      cases hstep : st.step c r with
      | error e => exact ⟨steps, st, c :: r, h, .inr ⟨c, r, e, rfl, hstep⟩⟩
      | ok found =>
        obtain ⟨step, ahead⟩ := found
        obtain ⟨-, extra, -, -, -, -, rfl⟩ := ScanState.step_ok hstep
        exact ih _ (by rw [List.length_drop, List.length_cons]; omega) (h.step hstep) rfl

end Reaches

/-- The tokenization of a source comes to an end. Its lexemes follow one another from the start of the
source, and none of them is empty. Either they make up the source, or no lexeme can be read after
them. -/
def TokenStream.Halts (source : String) (defined : List String) : Prop :=
  ∃ steps st rest, Reaches { region := Region.start defined } source.toList steps st rest
    ∧ source.toList = Lexeme.textOf (steps.map (·.lexeme)).reverse ++ rest
    ∧ Lexeme.TiledFrom 0 (steps.map (·.lexeme)).reverse
    ∧ steps.length ≤ source.toList.length
    ∧ match ofSource source defined with
      | .ok stream => rest = [] ∧ st.region.groups = []
        ∧ stream = ofCut ⟨(steps.map (·.lexeme)).reverse, st⟩
      | .error e =>
        (rest = [] ∧ st.region.groups ≠ [] ∧ e = ⟨.unterminatedConditional, st.place⟩)
          ∨ ∃ c r, rest = c :: r ∧ st.step c r = .error e

theorem TokenStream.halts (source : String) (defined : List String) : Halts source defined := by
  obtain ⟨steps, st, rest, hreaches, hhalt⟩ :=
    (@Reaches.start { region := Region.start defined } source.toList).exists_halt
  have hsource := hreaches.source_eq
  have htiled := hreaches.tiled.1
  refine ⟨steps, st, rest, hreaches, hsource, htiled, ?_, ?_⟩
  · have hle := htiled.length_le
    rw [List.length_reverse, List.length_map] at hle
    rw [hsource, List.length_append]
    omega
  rw [ofSource, hreaches.cut_eq]
  obtain rfl | ⟨c, r, e, rfl, herror⟩ := hhalt
  · by_cases hgroups : st.region.groups.isEmpty = true
    · rw [cut, if_pos hgroups]
      exact ⟨rfl, List.isEmpty_iff.mp hgroups, by simp [Cut.prepend]⟩
    · rw [cut, if_neg hgroups]
      exact .inl ⟨rfl, fun h => hgroups (List.isEmpty_iff.mpr h), rfl⟩
  · rw [cut_step, herror]
    exact .inr ⟨c, r, rfl, herror⟩

/-! ## All scans -/

/-- Each scan of a source makes progress and stays inside it. From any offset in it, a literal takes
at least two characters and ends inside the source, or is left open; what opens an interpolated string
stands inside the source, and so does what ends it, if it is ended. From any offset, whatever is open,
the scan inside literals reads inside the source only, each time further on, and comes to an end. A
token and a trivia take at least one character, as many as its reader tells, and end inside the
source. Disabled text takes lines, each of which has a character. So the tokenization of the source
comes to an end. -/
theorem lexing_progresses (source : String) :
    (∀ p < source.toList.length,
      (match Literal.literalLength? (source.toList.drop p) with
        | .ok none => Literal.opening? 0 (source.toList.drop p) = none
        | .ok (some k) => p + 2 ≤ p + k ∧ p + k ≤ source.toList.length
        | .error e => ∃ (f : Literal.Frame) (m : Nat), e = f.unterminated m)
      ∧ (∀ f extra, Literal.opening? p (source.toList.drop p) = some (f, extra) →
        p + 1 + extra ≤ source.toList.length
          ∧ Literal.Halts source.toList [f] (p + 1 + extra)))
      ∧ (∀ frame q, Literal.Halts source.toList [frame] q)
      ∧ (∀ p c r, source.toList.drop p = c :: r →
        (∀ kind extra, tokenAhead c r = .ok (kind, extra) →
          Spans (c :: r) (.token kind) (extra + 1) ∧ p + (extra + 1) ≤ source.toList.length)
        ∧ ∀ fresh active kind extra, lexemeAhead fresh active c r = .ok (kind, extra) →
          Spans (c :: r) kind (extra + 1) ∧ p + (extra + 1) ≤ source.toList.length)
      ∧ (∀ p < source.toList.length, ∃ lengths,
        SkipsLines ((source.toList.drop p).drop (lineLength (source.toList.drop p))) lengths
          ∧ disabledLength false (source.toList.drop p)
            = (lineLength (source.toList.drop p) :: lengths).sum
          ∧ ∀ n ∈ lineLength (source.toList.drop p) :: lengths, 0 < n)
      ∧ ∀ defined, TokenStream.Halts source defined := by
  have hahead : ∀ {p extra : Nat} {c : Char} {r : List Char}, source.toList.drop p = c :: r →
      extra ≤ r.length → p + (extra + 1) ≤ source.toList.length := by
    intro p extra c r hdrop hextra
    have hlength := congrArg List.length hdrop
    rw [List.length_drop, List.length_cons] at hlength
    omega
  refine ⟨fun p hp => ⟨Literal.literal_ends hp, fun f extra hopening => ?_⟩,
    fun frame q => Literal.halts _ (by simp) q, fun p c r hdrop => ⟨?_, ?_⟩, fun p hp => ?_,
    TokenStream.halts source⟩
  · exact ⟨Literal.opening_inside hp hopening, Literal.halts _ (by simp) _⟩
  · intro kind extra htoken
    exact ⟨spans_of_tokenAhead htoken, hahead hdrop (tokenAhead_bounds htoken).1⟩
  · intro fresh active kind extra hlexeme
    exact ⟨spans_of_lexemeAhead hlexeme, hahead hdrop (lexemeAhead_bounds hlexeme).1⟩
  · exact disabled_lines fun hnil => by simp [List.drop_eq_nil_iff] at hnil; omega

theorem lexing_progresses_nested :
    Literal.literalLength? ("x $\"\x7b'\x7d'\x7d\" y".toList.drop 2) = .ok (some 8) ∧ 2 + 2 ≤ 2 + 8
      ∧ 2 + 8 ≤ "x $\"\x7b'\x7d'\x7d\" y".toList.length := by
  have hlength : Literal.literalLength? ("x $\"\x7b'\x7d'\x7d\" y".toList.drop 2) = .ok (some 8) := by
    decide +kernel
  have hends := ((lexing_progresses "x $\"\x7b'\x7d'\x7d\" y").1 2 (by decide)).1
  rw [hlength] at hends
  exact ⟨hlength, hends⟩

end NullableMarker
