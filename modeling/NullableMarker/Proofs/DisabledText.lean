import Mathlib.Data.List.Infix
import Mathlib.Data.List.TakeWhile
import NullableMarker.Proofs.ConditionalGroups
import NullableMarker.Proofs.LineLocality

/-!
# Disabled text does not count

Where text is not active, a scan goes on to the next line that holds a conditional directive. What it
passes over may be replaced by any text of whole lines without such directives: the tokens of the
source stay the same, and so do the symbols defined at its end.

* `Plain` — no line that starts in a text holds a conditional directive
* `Reaches.line` — what was scanned before the end of a line
* `Reaches.passes` — text that is passed over
* `Reaches.lineBroken` — what stands before text that is passed over
* `disabled_text_ignored` — disabled text replaced by other text
-/

namespace NullableMarker

open Text

/-! ## Lines that hold no conditional directive -/

/-- A line that starts with a conditional directive does not start with its end. -/
theorem startsConditional_lineEnd {e : Char} (he : isLineEnd e = true) (x : List Char) :
    startsConditional (e :: x) = false := by
  have hname : directiveName (e :: x) = [] := by
    refine (directiveName_line he [] x []).trans ?_
    simp only [isLineEnd, Bool.or_eq_true, beq_iff_eq] at he
    rcases he with rfl | rfl <;> rfl
  rw [startsConditional, hname]
  decide

theorem lineName_blank {ws : List Char} (hws : ∀ c ∈ ws, isBlank c = true) : lineName ws = [] := by
  have hdrop : ∀ c ∈ ws.dropWhile isMargin, isBlank c = true :=
    fun c hc => hws c ((List.dropWhile_sublist _).mem hc)
  unfold lineName
  cases hrest : ws.dropWhile isMargin with
  | nil => rfl
  | cons c r =>
    rw [hrest] at hdrop
    split
    · next heq =>
      cases heq
      exact absurd (hdrop '#' List.mem_cons_self) (by decide)
    · rfl

/-- The directive of a line stands in it, after the blanks that it starts with. -/
theorem head?_of_startsConditional {ws x : List Char} (hws : ∀ c ∈ ws, isBlank c = true)
    (h : startsConditional (ws ++ x) = true) : x.head?.any inLine = true := by
  by_contra hx
  have hname : directiveName (ws ++ x) = [] := by
    show lineName ((ws ++ x).take directiveWindow) = []
    have htake : ∀ c ∈ ws.take directiveWindow, isBlank c = true :=
      fun c hc => hws c (List.mem_of_mem_take hc)
    rw [List.take_append]
    -- what the window shows of `x` is nothing, or starts with an end of line
    cases hrest : x.take (directiveWindow - ws.length) with
    | nil => rw [List.append_nil, lineName_blank htake]
    | cons e r =>
      have he : isLineEnd e = true := by
        cases x with
        | nil => simp at hrest
        | cons d x =>
          cases hk : directiveWindow - ws.length with
          | zero => simp [hk] at hrest
          | succ k =>
            rw [hk, List.take_succ_cons, List.cons.injEq] at hrest
            rw [← hrest.1]
            simpa [inLine] using hx
      rw [lineName_before he, lineName_blank htake]
  rw [startsConditional, hname] at h
  exact absurd h (by decide)

/-- No line that starts in `n` holds a conditional directive, when `x` follows `n`; whether `n`
itself starts a line is told. -/
structure Plain (fresh : Bool) (n x : List Char) : Prop where
  first : fresh = true → startsConditional (n ++ x) = false
  line : ∀ a e b, n = a ++ e :: b → isLineEnd e = true → startsConditional (b ++ x) = false

theorem Plain.tail {fresh : Bool} {c : Char} {n x : List Char} (h : Plain fresh (c :: n) x) :
    Plain (isLineEnd c) n x where
  first hc := h.line [] c n rfl hc
  line a e b hn he := h.line (c :: a) e b (by rw [hn]; rfl) he

/-- What follows the line does not count. -/
theorem Plain.congr {fresh : Bool} {n : List Char} {e : Char} {w : List Char} (w' : List Char)
    (he : isLineEnd e = true) (h : Plain fresh n (e :: w)) : Plain fresh n (e :: w') := by
  have hsame : ∀ b : List Char, startsConditional (b ++ e :: w') = startsConditional (b ++ e :: w) :=
    fun b => SameLine.startsConditional_eq (.inr ⟨b, e, w, w', he, rfl, rfl⟩)
  constructor
  · intro hfresh
    rw [hsame]
    exact h.first hfresh
  · intro a e' b hn he'
    rw [hsame]
    exact h.line a e' b hn he'

theorem head?_ne_lineFeed {q : List Char} (h : startsConditional q = true) :
    q.head? ≠ some '\n' := by
  intro hhead
  obtain ⟨r, rfl⟩ := List.head?_eq_some_iff.mp hhead
  rw [startsConditional_lineEnd (by rfl)] at h
  cases h

theorem isLineEnd_of_endsLine {c : Char} {r : List Char} (h : endsLine c r = true) :
    isLineEnd c = true := by
  simp only [endsLine, Bool.or_eq_true, Bool.and_eq_true, beq_iff_eq] at h
  rcases h with rfl | ⟨rfl, -⟩ <;> rfl

theorem endsLine_of_isLineEnd {e : Char} {q : List Char} (he : isLineEnd e = true)
    (hq : q.head? ≠ some '\n') : endsLine e q = true := by
  simp only [isLineEnd, Bool.or_eq_true, beq_iff_eq] at he
  rcases he with rfl | rfl
  · simp [endsLine, hq]
  · rfl

/-- A disabled region goes on over plain lines, up to a line with a conditional directive. -/
theorem disabledLength_plain {lineStart : Bool} {n : List Char} {e : Char} {q : List Char}
    (he : isLineEnd e = true) (hq : startsConditional q = true)
    (hplain : Plain lineStart n (e :: q)) :
    disabledLength lineStart (n ++ e :: q) = n.length + 1 := by
  induction n generalizing lineStart with
  | nil =>
    have hstop : disabledLength true q = 0 := by
      cases q with
      | nil => rfl
      | cons c r => rw [disabledLength, hq]; rfl
    rw [List.nil_append, disabledLength, startsConditional_lineEnd he, Bool.and_false,
      if_neg Bool.false_ne_true, endsLine_of_isLineEnd he (head?_ne_lineFeed hq), hstop]
    rfl
  | cons c n ih =>
    have hfirst : (lineStart && startsConditional (c :: (n ++ e :: q))) = false := by
      cases lineStart with
      | false => rfl
      | true => exact hplain.first rfl
    rw [List.cons_append, disabledLength, hfirst, if_neg Bool.false_ne_true, List.length_cons]
    congr 1
    refine ih ⟨fun hends => ?_, hplain.tail.line⟩
    exact hplain.tail.first (isLineEnd_of_endsLine hends)

/-- A disabled region that does not reach the end of the text is made of plain lines, and a line with
a conditional directive follows it. -/
theorem plain_of_disabledLength {lineStart : Bool} {t x : List Char} (ht : t ≠ []) (hx : x ≠ [])
    (h : disabledLength lineStart (t ++ x) = t.length) :
    ∃ n e, t = n ++ [e] ∧ isLineEnd e = true ∧ Plain lineStart n (e :: x)
      ∧ startsConditional x = true := by
  induction t generalizing lineStart with
  | nil => exact absurd rfl ht
  | cons c t ih =>
    rw [List.cons_append, disabledLength] at h
    split at h
    · simp at h
    next hfirst =>
    rw [List.length_cons, Nat.add_right_cancel_iff] at h
    by_cases hnil : t = []
    · -- the region ends after `c`, so a line ends there
      subst hnil
      obtain ⟨d, r, rfl⟩ := List.exists_cons_of_ne_nil hx
      rw [List.nil_append, disabledLength] at h
      split at h
      · next hstop =>
        obtain ⟨hends, hstarts⟩ := Bool.and_eq_true_iff.mp hstop
        have hc := isLineEnd_of_endsLine hends
        refine ⟨[], c, rfl, hc, ⟨fun _ => startsConditional_lineEnd hc _, ?_⟩, hstarts⟩
        intro a e b hn
        simp at hn
      · simp at h
    · obtain ⟨n, e, rfl, he, hplain, hstarts⟩ := ih hnil h
      refine ⟨c :: n, e, rfl, he, ⟨?_, ?_⟩, hstarts⟩
      · intro hstart
        simpa [hstart] using hfirst
      · intro a e' b hn he'
        cases a with
        | cons d a =>
          obtain ⟨-, hn⟩ := List.cons.inj hn
          exact hplain.line a e' b hn he'
        | nil =>
          obtain ⟨rfl, rfl⟩ := List.cons.inj hn
          by_cases hends : endsLine c (n ++ [e] ++ x) = true
          · exact hplain.first hends
          · -- the line ends with the line feed after `c`
            have hhead : (n ++ e :: x).head? = some '\n' := by
              by_contra hne
              exact hends (endsLine_of_isLineEnd he' (by simpa using hne))
            obtain ⟨r, hr⟩ := List.head?_eq_some_iff.mp hhead
            rw [hr]
            exact startsConditional_lineEnd (by rfl) r

/-! ## Lexemes where text is not active -/

/-- A line is blank after its end. -/
theorem fresh_of_lineEnd (n : List Char) {e : Char} (he : isLineEnd e = true) (fresh : Bool) :
    (n ++ [e]).foldl ScanState.freshAfter fresh = true := by
  rw [List.foldl_append, List.foldl_cons, List.foldl_nil, ScanState.freshAfter, he, Bool.true_or]

theorem inLine_of_isBlank {c : Char} (h : isBlank c = true) : inLine c = true := by
  rw [inLine, isLineEnd_of_isBlank h]
  rfl

namespace Reaches

variable {start st : ScanState} {source : List Char} {steps : List ScanStep}

/-- A step that is no directive. -/
theorem trivia {c : Char} {b x : List Char} (h : Reaches start source steps st (c :: (b ++ x)))
    {kind : TriviaKind}
    (hahead : lexemeAhead st.fresh st.region.isActive c (b ++ x) = .ok (.trivia kind, b.length))
    (hkind : kind ≠ .directive) :
    ∃ step st', Reaches start source (step :: steps) st' x ∧ step.lexeme.kind = .trivia kind
      ∧ st'.region = st.region ∧ st'.fresh = (c :: b).foldl ScanState.freshAfter st.fresh := by
  have hregion : st.regionAfter (.trivia kind) (c :: b) = .ok st.region := by
    unfold ScanState.regionAfter
    split
    · next heq => cases heq; exact absurd rfl hkind
    · rfl
  have hstep : st.step c (b ++ x) = .ok (⟨st, ⟨.trivia kind, c :: b, st.offset, st.place⟩,
      { st.advance (b.length + 1) (c :: (b ++ x)) with region := st.region }⟩, x) := by
    rw [ScanState.step, hahead]
    dsimp only
    rw [List.take_left, hregion, List.drop_left]
  refine ⟨_, _, h.step hstep, rfl, rfl, ?_⟩
  show ((c :: (b ++ x)).take (b.length + 1)).foldl _ _ = _
  rw [List.take_succ_cons, List.take_left]

/-- What was scanned before the end of a line does not depend on what follows the line. -/
theorem line {y u : List Char} {e : Char} {w : List Char} (w' : List Char)
    (he : isLineEnd e = true) (h : Reaches start (y ++ e :: w) steps st (u ++ e :: w)) :
    ∃ steps' st', Reaches start (y ++ e :: w') steps' st' (u ++ e :: w')
      ∧ steps'.map (·.lexeme.face) = steps.map (·.lexeme.face) ∧ st'.region = st.region
      ∧ st'.fresh = st.fresh := by
  generalize hrest : u ++ e :: w = rest at h
  induction h generalizing u with
  | start =>
    obtain rfl := List.append_cancel_right hrest
    exact ⟨[], start, .start, rfl, rfl, rfl⟩
  | @step steps st c r rest step h hstep ih =>
    obtain ⟨kind, extra, region, hahead, hregion, rfl, rfl⟩ := ScanState.step_ok hstep
    obtain ⟨hle, -⟩ := lexemeAhead_bounds hahead
    -- the text of the lexeme, and what follows it before the end of the line
    obtain ⟨b, rfl, rfl⟩ : ∃ b, r = b ++ (u ++ e :: w) ∧ extra = b.length :=
      ⟨r.take extra, by rw [hrest, List.take_append_drop], by rw [List.length_take]; omega⟩
    obtain ⟨steps', st', hreach, hfaces, hregion', hfresh'⟩ := ih (u := c :: (b ++ u)) (by simp)
    rw [List.take_left] at hregion
    rw [← hregion', ← hfresh', ← List.append_assoc] at hahead
    have hahead' := lexemeAhead_line w' he hahead (by simp)
    rw [List.append_assoc] at hahead'
    have hstep' : st'.step c (b ++ (u ++ e :: w')) = .ok (⟨st', ⟨kind, c :: b, st'.offset, st'.place⟩,
        { st'.advance (b.length + 1) (c :: (b ++ (u ++ e :: w'))) with region }⟩, u ++ e :: w') := by
      rw [ScanState.step, hahead']
      dsimp only
      rw [List.take_left, regionAfter_congr hregion' hregion, List.drop_left]
    rw [List.cons_append, List.append_assoc] at hreach
    refine ⟨_, _, hreach.step hstep', ?_, rfl, ?_⟩
    · rw [List.map_cons, List.map_cons, hfaces]
      simp [Lexeme.face]
    · simp [ScanState.advance, hfresh']

/-- An end of line is one character, or a carriage return with a line feed. -/
theorem endOfLine {c : Char} {x : List Char} (h : Reaches start source steps st (c :: x))
    (hc : isLineEnd c = true) :
    ∃ b y step st', x = b ++ y ∧ (b = [] ∨ b = ['\n']) ∧ Reaches start source (step :: steps) st' y
      ∧ step.lexeme.kind = .trivia .endOfLine ∧ st'.region = st.region ∧ st'.fresh = true := by
  have hahead : lexemeAhead st.fresh st.region.isActive c x
      = .ok (.trivia .endOfLine, if c == '\r' && x.head? == some '\n' then 1 else 0) :=
    LexemeStarts.ok (.endOfLine hc rfl)
  split at hahead
  · next hpair =>
    simp only [Bool.and_eq_true, beq_iff_eq] at hpair
    obtain ⟨y, rfl⟩ := List.head?_eq_some_iff.mp hpair.2
    obtain ⟨step, st', hreach, hkind, hregion, hfresh⟩ := h.trivia (b := ['\n']) hahead nofun
    exact ⟨['\n'], y, step, st', rfl, .inr rfl, hreach, hkind, hregion,
      hfresh.trans (fresh_of_lineEnd [c] rfl _)⟩
  · obtain ⟨step, st', hreach, hkind, hregion, hfresh⟩ := h.trivia (b := []) hahead nofun
    exact ⟨[], x, step, st', rfl, .inl rfl, hreach, hkind, hregion,
      hfresh.trans (fresh_of_lineEnd [] hc _)⟩

end Reaches

/-- A scan goes on over trivia to a line in the region `region`. -/
def SkipsTo (start : ScanState) (source : List Char) (steps : List ScanStep) (region : Region)
    (line : List Char) : Prop :=
  ∃ more st, Reaches start source (more ++ steps) st line
    ∧ (∀ step ∈ more, ∃ kind, step.lexeme.kind = .trivia kind) ∧ st.region = region
    ∧ st.fresh = true

variable {start st : ScanState} {source : List Char} {steps : List ScanStep}

theorem SkipsTo.here {line : List Char} (h : Reaches start source steps st line)
    (hfresh : st.fresh = true) : SkipsTo start source steps st.region line :=
  ⟨[], st, h, nofun, rfl, hfresh⟩

theorem SkipsTo.after {step : ScanStep} {region : Region} {line : List Char} {kind : TriviaKind}
    (h : SkipsTo start source (step :: steps) region line) (hkind : step.lexeme.kind = .trivia kind) :
    SkipsTo start source steps region line := by
  obtain ⟨more, st, hreach, htrivia, hregion, hfresh⟩ := h
  refine ⟨more ++ [step], st, by simpa using hreach, ?_, hregion, hfresh⟩
  intro step' hmem
  rcases List.mem_append.mp hmem with hmem | hmem
  · exact htrivia step' hmem
  · rw [List.mem_singleton.mp hmem]
    exact ⟨kind, hkind⟩

/-- Plain text is passed over where text is not active. -/
theorem Reaches.passes {n : List Char} {e : Char} {q : List Char}
    (h : Reaches start source steps st (n ++ e :: q)) (hactive : st.region.isActive = false)
    (he : isLineEnd e = true) (hq : startsConditional q = true)
    (hplain : Plain st.fresh n (e :: q)) : SkipsTo start source steps st.region q := by
  -- each step takes one character at least
  induction hlen : n.length using Nat.strongRecOn generalizing n steps st with
  | ind k ih =>
  cases n with
  | nil =>
    obtain ⟨b, y, step, st', hx, rfl | rfl, hreach, hkind, hregion, hfresh⟩ := h.endOfLine he
    · subst hx
      exact hregion ▸ (SkipsTo.here hreach hfresh).after hkind
    · exact absurd (by rw [hx]; rfl) (head?_ne_lineFeed hq)
  | cons c n =>
    rw [List.length_cons] at hlen
    by_cases hc : isLineEnd c = true
    · obtain ⟨b, y, step, st', hx, rfl | rfl, hreach, hkind, hregion, hfresh⟩ := h.endOfLine hc
      · obtain rfl : n ++ e :: q = y := hx
        have hrest : Plain st'.fresh n (e :: q) := by
          rw [hfresh, ← hc]
          exact hplain.tail
        exact hregion ▸ (ih n.length (by omega) hreach (by rwa [hregion]) hrest rfl).after hkind
      · cases n with
        | nil =>
          obtain ⟨rfl, rfl⟩ := List.cons.inj hx
          exact hregion ▸ (SkipsTo.here hreach hfresh).after hkind
        | cons d n =>
          obtain ⟨rfl, rfl⟩ := List.cons.inj hx
          rw [List.length_cons] at hlen
          have hrest : Plain st'.fresh n (e :: q) := by
            rw [hfresh]
            exact hplain.tail.tail
          exact hregion ▸ (ih n.length (by omega) hreach (by rwa [hregion]) hrest rfl).after hkind
    · -- one stretch of disabled text takes the rest
      have hlength : disabledLength false (c :: (n ++ e :: q)) = n.length + 2 :=
        disabledLength_plain (n := c :: n) he hq ⟨by simp, hplain.line⟩
      have hahead : lexemeAhead st.fresh st.region.isActive c ((n ++ [e]) ++ q)
          = .ok (.trivia .disabledText, (n ++ [e]).length) := by
        rw [List.append_assoc, List.singleton_append]
        exact LexemeStarts.ok (.disabledText
          (isDisabled_iff.mpr ⟨hactive, by simpa [inLine] using hc, hplain.first⟩)
          (by rw [hlength, List.length_append]; rfl))
      rw [show c :: n ++ e :: q = c :: ((n ++ [e]) ++ q) by simp] at h
      obtain ⟨step, st', hreach, hkind, hregion, hfresh⟩ := h.trivia hahead (by decide)
      exact hregion ▸ (SkipsTo.here hreach
        (hfresh.trans (fresh_of_lineEnd (c :: n) he _))).after hkind

/-! ## Before disabled text -/

theorem Plain.of_lineEnds (fresh : Bool) {n : List Char} {e : Char} (x : List Char)
    (hn : ∀ c ∈ n, isLineEnd c = true) (he : isLineEnd e = true) : Plain fresh n (e :: x) := by
  have hend : ∀ m : List Char, (∀ c ∈ m, isLineEnd c = true) →
      startsConditional (m ++ e :: x) = false := by
    intro m hm
    cases m with
    | nil => exact startsConditional_lineEnd he x
    | cons c m => exact startsConditional_lineEnd (hm c List.mem_cons_self) _
  constructor
  · exact fun _ => hend n hn
  · rintro a e' b rfl -
    exact hend b fun c hc => hn c (by simp [hc])

/-- After the steps `earlier` a scan passes over the text `passed` with the end of a line, and then
over blanks in the next line, to come to `rest`. -/
structure LineBefore (start : ScanState) (source : List Char) (earlier more : List ScanStep)
    (before : ScanState) (passed : List Char) (e : Char) (margin rest : List Char) : Prop where
  reaches : Reaches start source earlier before (passed ++ e :: (margin ++ rest))
  trivia : ∀ step ∈ more, ∃ kind, step.lexeme.kind = .trivia kind
  lineEnd : isLineEnd e = true
  blank : ∀ c ∈ margin, isBlank c = true
  plain : Plain before.fresh passed (e :: (margin ++ rest))

/-- A step over the end of a line. -/
theorem LineBefore.ofStep {step : ScanStep} {passed : List Char} {e : Char} {rest : List Char}
    {kind : TriviaKind} (h : Reaches start source steps st (passed ++ e :: rest))
    (hkind : step.lexeme.kind = .trivia kind) (he : isLineEnd e = true)
    (hplain : Plain st.fresh passed (e :: rest)) :
    LineBefore start source steps [step] st passed e [] rest where
  reaches := h
  trivia step' hmem := ⟨kind, by rw [List.mem_singleton.mp hmem, hkind]⟩
  lineEnd := he
  blank := nofun
  plain := hplain

/-- A step over blanks. -/
theorem LineBefore.step {earlier more : List ScanStep} {before : ScanState} {step : ScanStep}
    {passed : List Char} {e : Char} {margin ws rest : List Char} {kind : TriviaKind}
    (h : LineBefore start source earlier more before passed e margin (ws ++ rest))
    (hkind : step.lexeme.kind = .trivia kind) (hws : ∀ c ∈ ws, isBlank c = true) :
    LineBefore start source earlier (step :: more) before passed e (margin ++ ws) rest where
  reaches := by
    rw [List.append_assoc]
    exact h.reaches
  trivia := by
    intro step' hmem
    rcases List.mem_cons.mp hmem with rfl | hmem
    · exact ⟨kind, hkind⟩
    · exact h.trivia step' hmem
  lineEnd := h.lineEnd
  blank := by
    intro c hc
    rcases List.mem_append.mp hc with hc | hc
    · exact h.blank c hc
    · exact hws c hc
  plain := by
    rw [List.append_assoc]
    exact h.plain

/-- Where text is not active, a line has just ended, up to blanks, or ends here. -/
theorem Reaches.lineBefore {rest : List Char} (h : Reaches start source steps st rest)
    (hstart : start.region.isActive = true) (hst : st.region.isActive = false) :
    rest.head?.any inLine = false
      ∨ ∃ earlier more before passed e margin, steps = more ++ earlier ∧ before.region = st.region
        ∧ LineBefore start source earlier more before passed e margin rest := by
  induction h with
  | start =>
    rw [hstart] at hst
    cases hst
  | @step steps st c r rest step h hstep ih =>
    obtain ⟨kind, extra, region, hahead, hregion, rfl, rfl⟩ := ScanState.step_ok hstep
    by_cases hdirective : kind = .trivia .directive
    · subst hdirective
      exact .inl (head?_of_directive hahead)
    -- the step is taken where text is not active already
    obtain rfl : region = st.region := isActive_of_regionAfter hregion hdirective
    have hst : st.region.isActive = false := hst
    rw [hst] at hahead
    cases lexemeStarts_of_ok hahead with
    | directive => exact absurd rfl hdirective
    | lineComment hactive => cases hactive
    | comment hactive => cases hactive
    | token hactive => cases hactive
    | disabledText hdisabled hlength =>
      -- disabled text ends with a line, or with the source
      by_cases hnil : r.drop extra = []
      · exact .inl (by rw [hnil]; rfl)
      obtain ⟨-, -, hfirst⟩ := isDisabled_iff.mp hdisabled
      have hsplit : c :: r = (c :: r.take extra) ++ r.drop extra := by simp
      obtain ⟨hle, -⟩ := lexemeAhead_bounds hahead
      rw [hsplit] at hlength
      obtain ⟨n, e, hn, he, hplain, -⟩ := plain_of_disabledLength (List.cons_ne_nil _ _) hnil (by
        rw [hlength, List.length_cons, List.length_take, Nat.min_eq_left hle])
      have hcons : c :: r = n ++ e :: r.drop extra := by rw [hsplit, hn]; simp
      rw [hcons] at h hfirst
      exact .inr ⟨steps, [_], st, n, e, [], rfl, rfl, .ofStep h rfl he ⟨hfirst, hplain.line⟩⟩
    | whitespace hread hc hextra =>
      subst hextra
      rcases ih hst with hhead | ⟨earlier, more, before, passed, e, margin, rfl, hbefore, hline⟩
      · rw [List.head?_cons, Option.any_some, inLine_of_isBlank hc] at hhead
        cases hhead
      · have hblank : ∀ d ∈ c :: r.takeWhile isBlank, isBlank d = true := by
          intro d hd
          rcases List.mem_cons.mp hd with rfl | hd
          · exact hc
          · exact List.mem_takeWhile_imp hd
        have hsplit : c :: r = (c :: r.takeWhile isBlank) ++ r.drop (r.takeWhile isBlank).length := by
          rw [List.cons_append, ← List.prefix_append_drop (List.takeWhile_prefix isBlank)]
        rw [hsplit] at hline
        exact .inr ⟨earlier, _ :: more, before, passed, e, _, rfl, hbefore, hline.step rfl hblank⟩
    | endOfLine hend hextra =>
      subst hextra
      right
      by_cases hpair : (c == '\r' && r.head? == some '\n') = true
      · rw [if_pos hpair]
        simp only [Bool.and_eq_true, beq_iff_eq] at hpair
        obtain ⟨rfl, hhead⟩ := hpair
        obtain ⟨x, rfl⟩ := List.head?_eq_some_iff.mp hhead
        exact ⟨steps, [_], st, ['\r'], '\n', [], rfl, rfl, .ofStep h rfl (by rfl)
          (Plain.of_lineEnds _ _ (by simp [isLineEnd]) (by rfl))⟩
      · rw [if_neg hpair]
        exact ⟨steps, [_], st, [], c, [], rfl, rfl, .ofStep h rfl hend
          (Plain.of_lineEnds _ _ (by simp) hend)⟩

/-! ## Disabled text replaced -/

/-- No line of `p ++ d ++ q` that shares a character with `d` holds a conditional directive. -/
def NoConditionalLine (p d q : List Char) : Prop :=
  ∀ k < p.length + d.length,
    k = 0 ∨ ((p ++ d ++ q).take k).getLast?.any isLineEnd = true →
    p.length < k + (((p ++ d ++ q).drop k).takeWhile inLine).length →
    startsConditional ((p ++ d ++ q).drop k) = false

instance (p d q : List Char) : Decidable (NoConditionalLine p d q) :=
  inferInstanceAs (Decidable (∀ k < p.length + d.length, _))

theorem NoConditionalLine.starts {p d q a b : List Char} {e : Char} (h : NoConditionalLine p d q)
    (hsplit : p ++ d ++ q = a ++ e :: b) (he : isLineEnd e = true)
    (hbefore : p.length < a.length + 1 + (b.takeWhile inLine).length)
    (hafter : a.length + 1 < p.length + d.length) : startsConditional b = false := by
  have htake : (p ++ d ++ q).take (a.length + 1) = a ++ [e] := by simp [hsplit, List.take_append]
  have hdrop : (p ++ d ++ q).drop (a.length + 1) = b := by simp [hsplit, List.drop_append]
  have hline := h (a.length + 1) hafter
  rw [htake, hdrop] at hline
  exact hline (.inr (by simpa using he)) hbefore

/-- Plain text, the end of a line, blanks and lines without conditional directives. -/
theorem Plain.through {fresh : Bool} {y passed : List Char} {e : Char} {margin x d : List Char}
    {e' : Char} {q : List Char} (he : isLineEnd e = true) (hmargin : ∀ c ∈ margin, isBlank c = true)
    (hplain : Plain fresh passed (e :: x))
    (hno : NoConditionalLine (y ++ passed ++ e :: margin) (d ++ [e']) q) :
    Plain fresh (passed ++ e :: (margin ++ d)) (e' :: q) := by
  have hsplit : ∀ b : List Char,
      b ++ e :: (margin ++ d) ++ e' :: q = b ++ e :: (margin ++ d ++ e' :: q) := by simp
  -- lines that start after `passed`
  have hlater : ∀ as c b, e :: (margin ++ d) = as ++ c :: b → isLineEnd c = true →
      startsConditional (b ++ e' :: q) = false := by
    intro as c b hb hc
    by_contra hstarts
    have hstarts : startsConditional (b ++ e' :: q) = true := by simpa using hstarts
    refine absurd (hno.starts (a := y ++ passed ++ as) (b := b ++ e' :: q) ?_ hc ?_ ?_)
      (by simp [hstarts])
    · have := congrArg (fun t => y ++ passed ++ t ++ e' :: q) hb
      simpa using this
    · cases as with
      | nil =>
        -- the first of them starts before `d`, but its directive does not
        obtain ⟨rfl, rfl⟩ := List.cons.inj hb
        rw [List.append_assoc] at hstarts
        have hhead := head?_of_startsConditional hmargin hstarts
        have hin : ∀ c ∈ margin, inLine c = true := fun c hc => inLine_of_isBlank (hmargin c hc)
        rw [List.append_assoc margin, List.takeWhile_append_of_pos hin]
        cases hx : d ++ e' :: q with
        | nil => simp at hx
        | cons c x =>
          rw [hx, List.head?_cons, Option.any_some] at hhead
          simp only [List.takeWhile_cons, hhead, if_true, List.length_append, List.length_cons,
            List.length_nil]
          omega
      | cons c' as =>
        obtain ⟨rfl, has⟩ := List.cons.inj hb
        have hle : margin.length ≤ as.length := by
          rcases List.append_eq_append_iff.mp has with ⟨bs, rfl, -⟩ | ⟨bs, rfl, hbs⟩
          · simp
          · cases bs with
            | nil => simp
            | cons c' bs =>
              obtain ⟨rfl, -⟩ := List.cons.inj hbs
              have := hmargin c (by simp)
              rw [not_of_isLineEnd (p := isBlank) rfl rfl hc] at this
              cases this
        simp only [List.length_append, List.length_cons]
        omega
    · have := congrArg List.length hb
      simp only [List.length_append, List.length_cons, List.length_nil] at this ⊢
      omega
  constructor
  · intro hfresh
    rw [hsplit]
    exact (hplain.congr _ he).first hfresh
  · intro a c b hn hc
    rcases List.append_eq_append_iff.mp hn with ⟨as, -, hb⟩ | ⟨bs, hpassed, hb⟩
    · exact hlater as c b hb hc
    · cases bs with
      | nil => exact hlater [] c b hb.symm hc
      | cons c' bs =>
        obtain ⟨rfl, hrest⟩ := List.cons.inj hb
        have hrest : b = bs ++ e :: (margin ++ d) := hrest
        rw [hrest, hsplit]
        exact (hplain.congr _ he).line a c bs hpassed hc

/-- A text is cut alike from states in the same region and line. -/
theorem cut_congr {st' : ScanState} {s : List Char} {pieces : Cut} (h : cut st s = .ok pieces)
    (hregion : st'.region = st.region) (hfresh : st'.fresh = st.fresh) :
    ∃ pieces', cut st' s = .ok pieces'
      ∧ pieces'.lexemes.map Lexeme.face = pieces.lexemes.map Lexeme.face
      ∧ pieces'.final.region = pieces.final.region := by
  have hms : (pieces.lexemes.map (·, false)).map (·.1) = pieces.lexemes := by
    rw [List.map_map]
    exact List.map_id _
  have hcut := cut_expand st' h hms (by simp) hregion hfresh
  rwa [Lexeme.expand_unmarkedAll, (cut_tiled h).1] at hcut

/-- The kind and value of the token that a lexeme is. -/
def Lexeme.spelling? (l : Lexeme) : Option (TokenKind × String) :=
  match l.kind with
  | .token kind => some (kind, String.ofList l.text)
  | .trivia _ => none

theorem Lexeme.spelling?_token {l : Lexeme} {kind : TokenKind} (h : l.kind = .token kind) :
    l.spelling? = some (kind, String.ofList l.text) := by rw [spelling?, h]

theorem Lexeme.spelling?_trivia {l : Lexeme} {kind : TriviaKind} (h : l.kind = .trivia kind) :
    l.spelling? = none := by rw [spelling?, h]

theorem Lexeme.filterMap_spelling?_congr {ls ls' : List Lexeme} (h : ls.map face = ls'.map face) :
    ls.filterMap spelling? = ls'.filterMap spelling? := by
  induction ls generalizing ls' with
  | nil =>
    rw [List.map_nil, eq_comm, List.map_eq_nil_iff] at h
    rw [h]
  | cons l ls ih =>
    obtain ⟨l', ls', rfl, hl, hls⟩ := List.map_eq_cons_iff.mp h.symm
    obtain ⟨hkind, htext⟩ := Prod.mk.inj hl
    have hspelling : l.spelling? = l'.spelling? := by rw [spelling?, spelling?, hkind, htext]
    rw [List.filterMap_cons, List.filterMap_cons, hspelling, ih hls.symm]

theorem Lexeme.filterMap_spelling?_trivia {ls : List Lexeme}
    (h : ∀ l ∈ ls, ∃ kind, l.kind = .trivia kind) : ls.filterMap spelling? = [] := by
  rw [List.filterMap_eq_nil_iff]
  intro l hl
  obtain ⟨kind, hkind⟩ := h l hl
  exact spelling?_trivia hkind

theorem filterMap_trailingTrivia (ls : List Lexeme) :
    (trailingTrivia ls).2.filterMap Lexeme.spelling? = ls.filterMap Lexeme.spelling? := by
  induction ls with
  | nil => rfl
  | cons l ls ih =>
    unfold trailingTrivia
    split
    · rfl
    · next hkind => rw [List.filterMap_cons, Lexeme.spelling?_trivia hkind]
    · next hkind => rw [List.filterMap_cons, Lexeme.spelling?_trivia hkind, ← ih]

theorem map_spelling_attach (leading : List Trivia) (ls : List Lexeme) :
    (attach leading ls).1.map Token.spelling = ls.filterMap Lexeme.spelling? := by
  fun_induction attach leading ls with
  | case1 leading => rfl
  | case2 leading l ls kind hkind ih =>
    rw [List.filterMap_cons, Lexeme.spelling?_trivia hkind, ih]
  | case3 leading l ls kind hkind tokens last hattach ih =>
    rw [hattach, filterMap_trailingTrivia] at ih
    rw [List.filterMap_cons, Lexeme.spelling?_token hkind, List.map_cons, ih]
    rfl

/-- The tokens of a source are those of its lexemes. -/
theorem map_spelling_ofCut (pieces : Cut) :
    (TokenStream.ofCut pieces).all.map Token.spelling
      = pieces.lexemes.filterMap Lexeme.spelling? ++ [(.eof, "")] := by
  rw [TokenStream.all, List.map_append, ← map_spelling_attach []]
  rfl

/-! ## The result -/

/-- Disabled text that does not end the source ends a line, and a line with a conditional directive
follows it. -/
theorem cut_disabled {c : Char} {r : List Char} {pieces : Cut} {l : Lexeme} {after : List Lexeme}
    (hcut : cut st (c :: r) = .ok pieces) (hlexemes : pieces.lexemes = l :: after)
    (hkind : l.kind = .trivia .disabledText) :
    ∃ d q st', c :: r = d ++ q ∧ l.text = d ∧ st.region.isActive = false ∧ inLine c = true
      ∧ startsConditional q = true ∧ cut st' q = .ok ⟨after, pieces.final⟩ ∧ st'.region = st.region
      ∧ st'.fresh = true := by
  rw [cut_step] at hcut
  obtain ⟨⟨step, rest⟩, hstep, hmap⟩ := ok_of_bind hcut
  obtain ⟨kind, extra, region, hahead, hregion, rfl, rfl⟩ := ScanState.step_ok hstep
  obtain ⟨⟨ls, final⟩, hrest, rfl⟩ := ok_of_map hmap
  obtain ⟨rfl, hafter⟩ := List.cons.inj hlexemes
  obtain rfl : ls = after := hafter
  obtain rfl : kind = .trivia .disabledText := hkind
  obtain rfl : region = st.region := isActive_of_regionAfter hregion (by simp)
  obtain ⟨hdisabled, hlength⟩ : isDisabled st.fresh st.region.isActive c r = true
      ∧ disabledLength false (c :: r) = extra + 1 := by
    cases lexemeStarts_of_ok hahead with
    | disabledText hdisabled hlength => exact ⟨hdisabled, hlength⟩
  obtain ⟨hactive, hc, -⟩ := isDisabled_iff.mp hdisabled
  -- a group is open, so the source does not end here
  have hne : r.drop extra ≠ [] := by
    intro hnil
    have hopen : st.region.groups.isEmpty = false := by
      cases hgroups : st.region.groups with
      | nil =>
        rw [Region.isActive, hgroups] at hactive
        cases hactive
      | cons g outer => rfl
    have hrest : cut _ (r.drop extra) = _ := hrest
    rw [hnil, cut, if_neg (by simpa using hopen)] at hrest
    cases hrest
  obtain ⟨hle, -⟩ := lexemeAhead_bounds hahead
  have hsplit : c :: r = (c :: r.take extra) ++ r.drop extra := by simp
  rw [hsplit] at hlength
  obtain ⟨n, e, hn, he, -, hstarts⟩ := plain_of_disabledLength (List.cons_ne_nil _ _) hne (by
    rw [hlength, List.length_cons, List.length_take, Nat.min_eq_left hle])
  refine ⟨_, _, _, hsplit, rfl, hactive, hc, hstarts, hrest, rfl, ?_⟩
  show ((c :: r).take (extra + 1)).foldl _ _ = true
  rw [List.take_succ_cons, hn, fresh_of_lineEnd n he]

/-- A scan that comes to disabled text comes over its replacement to what follows, with the same
tokens. -/
theorem Reaches.replaced {p d q d' : List Char} {e' : Char}
    (h : Reaches start (p ++ d ++ q) steps st (d ++ q)) (hstart : start.region.isActive = true)
    (hst : st.region.isActive = false) (hhead : (d ++ q).head?.any inLine = true)
    (hq : startsConditional q = true) (he' : isLineEnd e' = true)
    (hno : NoConditionalLine p (d' ++ [e']) q) :
    ∃ steps' st', Reaches start (p ++ (d' ++ [e']) ++ q) steps' st' q ∧ st'.region = st.region
      ∧ st'.fresh = true
      ∧ (steps'.map (·.lexeme)).filterMap Lexeme.spelling?
        = (steps.map (·.lexeme)).filterMap Lexeme.spelling? := by
  have htrivia : ∀ more : List ScanStep, (∀ step ∈ more, ∃ kind, step.lexeme.kind = .trivia kind) →
      (more.map (·.lexeme)).filterMap Lexeme.spelling? = [] := by
    intro more hmore
    refine Lexeme.filterMap_spelling?_trivia fun l hl => ?_
    obtain ⟨step, hstep, rfl⟩ := List.mem_map.mp hl
    exact hmore step hstep
  rcases h.lineBefore hstart hst with hend | ⟨earlier, more, before, passed, e, margin, rfl, hregion,
    hline⟩
  · rw [hhead] at hend
    cases hend
  -- back to the end of the line, and on from there over the replacement
  obtain ⟨y, rfl⟩ : ∃ y, p = y ++ passed ++ e :: margin := by
    refine ⟨Lexeme.textOf (earlier.map (·.lexeme)).reverse, ?_⟩
    have hsource := hline.reaches.source_eq
    refine List.append_cancel_right (show p ++ (d ++ q) = _ ++ (d ++ q) from ?_)
    simpa using hsource
  have hsource : ∀ x : List Char,
      y ++ passed ++ e :: margin ++ x ++ q = y ++ passed ++ e :: (margin ++ (x ++ q)) := by simp
  have hreaches := hline.reaches
  rw [hsource] at hreaches
  obtain ⟨steps', st', hreach', hfaces, hregion', hfresh'⟩ :=
    hreaches.line (margin ++ (d' ++ [e'] ++ q)) hline.lineEnd
  rw [← hsource, show passed ++ e :: (margin ++ (d' ++ [e'] ++ q))
    = (passed ++ e :: (margin ++ d')) ++ e' :: q by simp] at hreach'
  have hactive : st'.region.isActive = false := by rw [hregion', hregion, hst]
  have hplain : Plain st'.fresh (passed ++ e :: (margin ++ d')) (e' :: q) := by
    rw [hfresh']
    exact hline.plain.through hline.lineEnd hline.blank hno
  obtain ⟨more', st'', hreach'', hmore', hregion'', hfresh''⟩ :=
    hreach'.passes hactive he' hq hplain
  refine ⟨more' ++ steps', st'', hreach'', by rw [hregion'', hregion', hregion], hfresh'', ?_⟩
  rw [List.map_append, List.map_append, List.filterMap_append, List.filterMap_append,
    htrivia more' hmore', htrivia more hline.trivia]
  refine Lexeme.filterMap_spelling?_congr ?_
  rw [List.map_map, List.map_map]
  exact hfaces

/-- Disabled text cannot influence the result: replaced by any text of whole lines, such that no line
with a conditional directive shares a character with it, it leaves the tokens and the symbols defined
at the end as they are. -/
theorem disabled_text_ignored {defined : List String} {p d q d' : List Char} {pieces : Cut}
    {before after : List Lexeme} {l : Lexeme}
    (hcut : cut { region := Region.start defined } (p ++ d ++ q) = .ok pieces)
    (hlexemes : pieces.lexemes = before ++ l :: after) (hkind : l.kind = .trivia .disabledText)
    (hp : Lexeme.textOf before = p) (hd : l.text = d) (hend : d'.getLast?.any isLineEnd = true)
    (hno : NoConditionalLine p d' q) :
    ∃ stream stream', TokenStream.ofSource (String.ofList (p ++ d ++ q)) defined = .ok stream
      ∧ TokenStream.ofSource (String.ofList (p ++ d' ++ q)) defined = .ok stream'
      ∧ stream'.all.map Token.spelling = stream.all.map Token.spelling
      ∧ stream'.symbols = stream.symbols := by
  -- the scan up to the disabled text, and what is left after it
  obtain ⟨steps, st, rest, hreaches, rfl, hrest⟩ := Reaches.start.exists_split hcut hlexemes
  rw [List.append_nil] at hreaches
  cases rest with
  | nil =>
    rw [cut] at hrest
    split at hrest <;> cases hrest
  | cons c r =>
  obtain ⟨d₁, q₁, st₁, hsplit, hd₁, hactive, hc, hstarts, hafter, hregion, hfresh⟩ :=
    cut_disabled hrest rfl hkind
  obtain rfl : d₁ = d := hd₁.symm.trans hd
  have hrest_eq : d₁ ++ q = d₁ ++ q₁ := by
    have hsource := hreaches.source_eq
    rw [hp, List.append_assoc, hsplit] at hsource
    exact List.append_cancel_left hsource
  obtain rfl := List.append_cancel_left hrest_eq
  rw [hsplit] at hreaches
  have hhead : (d₁ ++ q).head?.any inLine = true := by rw [← hsplit]; exact hc
  cases hlast : d'.getLast? with
  | none => rw [hlast] at hend; cases hend
  | some e' =>
  rw [hlast, Option.any_some] at hend
  obtain ⟨d', rfl⟩ := List.getLast?_eq_some_iff.mp hlast
  obtain ⟨steps', st', hreaches', hregion', hfresh', htokens⟩ :=
    hreaches.replaced rfl hactive hhead hstarts hend hno
  obtain ⟨pieces', hcut', hfaces, hfinal⟩ := cut_congr hafter (hregion'.trans hregion.symm)
    (hfresh'.trans hfresh.symm)
  refine ⟨TokenStream.ofCut pieces,
    TokenStream.ofCut (Cut.prepend (steps'.map (·.lexeme)).reverse pieces'), ?_, ?_, ?_, ?_⟩
  · rw [TokenStream.ofSource, String.toList_ofList, hcut]
    rfl
  · rw [TokenStream.ofSource, String.toList_ofList, hreaches'.cut_eq, hcut']
    rfl
  · rw [map_spelling_ofCut, map_spelling_ofCut, hlexemes, Cut.prepend, List.filterMap_append,
      List.filterMap_append, List.filterMap_cons, Lexeme.spelling?_trivia hkind,
      Lexeme.filterMap_spelling?_congr hfaces, List.filterMap_reverse, htokens,
      ← List.filterMap_reverse]
  · exact congrArg Region.symbols hfinal

/-- Disabled text replaced by a definition and by openings of a literal and a comment. -/
theorem disabled_text_ignored_openings :
    NoConditionalLine "#if A\n".toList "#define A\n\"/*\r\n".toList "#endif\ny".toList
      ∧ ∃ stream stream', TokenStream.ofSource "#if A\nx\n#endif\ny" [] = .ok stream
        ∧ TokenStream.ofSource "#if A\n#define A\n\"/*\r\n#endif\ny" [] = .ok stream'
        ∧ stream'.all.map Token.spelling = stream.all.map Token.spelling
        ∧ stream'.symbols = stream.symbols := by
  have hno : NoConditionalLine "#if A\n".toList "#define A\n\"/*\r\n".toList "#endif\ny".toList := by
    decide +kernel
  have hcut : cut { region := Region.start [] } ("#if A\n".toList ++ "x\n".toList ++ "#endif\ny".toList)
      = .ok ⟨[⟨.trivia .directive, "#if A".toList, 0, ⟨1, 1⟩⟩, ⟨.trivia .endOfLine, ['\n'], 5, ⟨1, 6⟩⟩]
          ++ ⟨.trivia .disabledText, "x\n".toList, 6, ⟨2, 1⟩⟩
          :: [⟨.trivia .directive, "#endif".toList, 8, ⟨3, 1⟩⟩, ⟨.trivia .endOfLine, ['\n'], 14, ⟨3, 7⟩⟩,
            ⟨.token .identifier, ['y'], 15, ⟨4, 1⟩⟩], ⟨⟨[], []⟩, 16, ⟨4, 2⟩, false⟩⟩ := by
    decide +kernel
  have hsource : "#if A\nx\n#endif\ny"
      = String.ofList ("#if A\n".toList ++ "x\n".toList ++ "#endif\ny".toList) := by decide +kernel
  have hsource' : "#if A\n#define A\n\"/*\r\n#endif\ny"
      = String.ofList ("#if A\n".toList ++ "#define A\n\"/*\r\n".toList ++ "#endif\ny".toList) := by
    decide +kernel
  rw [hsource, hsource']
  exact ⟨hno, disabled_text_ignored hcut rfl rfl rfl rfl (by decide +kernel) hno⟩

end NullableMarker
