import NullableMarker.Proofs.Relexing

/-!
# Scans

A scan goes from lexeme to lexeme. Cutting a text is scanning it to its end, and what was scanned so
far is a part of the cut whatever comes after it.

* `ScanState.step` — one lexeme
* `Reaches` — the states that a scan comes to
* `Reaches.cut_eq` — what was scanned, and the cut of the rest
* `exists_step` — the step of a lexeme
-/

namespace NullableMarker

open Text

/-! ## Steps -/

@[simp] theorem Lexeme.textOf_append (as bs : List Lexeme) :
    textOf (as ++ bs) = textOf as ++ textOf bs := List.flatMap_append

/-- A lexeme of a scan, with the states before and after it. -/
structure ScanStep where
  before : ScanState
  lexeme : Lexeme
  after : ScanState

/-- The first lexeme of a text, and the text after it. -/
def ScanState.step (st : ScanState) (c : Char) (r : List Char) :
    Except LexError (ScanStep × List Char) :=
  match lexemeAhead st.fresh st.region.isActive c r with
  | .error fault => .error (st.blame (c :: r) fault)
  | .ok (kind, extra) =>
    match st.regionAfter kind (c :: r.take extra) with
    | .error e => .error e
    | .ok region =>
      .ok (⟨st, ⟨kind, c :: r.take extra, st.offset, st.place⟩,
        { st.advance (extra + 1) (c :: r) with region }⟩, r.drop extra)

/-- From `start`, a scan of `source` comes to the state `st` with `rest` ahead. Its steps are given,
the latest first. -/
inductive Reaches (start : ScanState) (source : List Char) :
    List ScanStep → ScanState → List Char → Prop
  | start : Reaches start source [] start source
  | step {steps : List ScanStep} {st : ScanState} {c : Char} {r rest : List Char} {step : ScanStep}
      (h : Reaches start source steps st (c :: r)) (hstep : st.step c r = .ok (step, rest)) :
      Reaches start source (step :: steps) step.after rest

/-- Puts lexemes before those of a cut. -/
def Cut.prepend (ls : List Lexeme) (pieces : Cut) : Cut :=
  { pieces with lexemes := ls ++ pieces.lexemes }

/-- Cutting a text takes a step, and cuts what is left. -/
theorem cut_step (st : ScanState) (c : Char) (r : List Char) :
    cut st (c :: r) = st.step c r >>= fun (step, rest) =>
      (cut step.after rest).map (Cut.prepend [step.lexeme]) := by
  rw [cut, ScanState.step]
  cases lexemeAhead st.fresh st.region.isActive c r with
  | error fault => rfl
  | ok ahead =>
    obtain ⟨kind, extra⟩ := ahead
    dsimp only
    cases st.regionAfter kind (c :: r.take extra) with
    | error e => rfl
    | ok region =>
      show _ = Except.map _ (cut _ _)
      dsimp only
      cases cut { st.advance (extra + 1) (c :: r) with region } (r.drop extra) <;> rfl

/-- What a step is. -/
theorem ScanState.step_ok {st : ScanState} {c : Char} {r rest : List Char} {step : ScanStep}
    (h : st.step c r = .ok (step, rest)) :
    ∃ kind extra region, lexemeAhead st.fresh st.region.isActive c r = .ok (kind, extra)
      ∧ st.regionAfter kind (c :: r.take extra) = .ok region
      ∧ step = ⟨st, ⟨kind, c :: r.take extra, st.offset, st.place⟩,
        { st.advance (extra + 1) (c :: r) with region }⟩
      ∧ rest = r.drop extra := by
  unfold ScanState.step at h
  split at h
  · cases h
  · next kind extra hahead =>
    split at h
    · cases h
    · next region hregion =>
      cases h
      exact ⟨kind, extra, region, hahead, hregion, rfl, rfl⟩

/-! ## Runs -/

namespace Reaches

variable {start st : ScanState} {source rest : List Char} {steps : List ScanStep}

/-- A text is cut into the lexemes of the steps taken and those of what is left. -/
theorem cut_eq (h : Reaches start source steps st rest) :
    cut start source = (cut st rest).map (Cut.prepend (steps.map (·.lexeme)).reverse) := by
  induction h with
  | start => cases hcut : cut start source <;> rfl
  | @step steps st c r rest step h hstep ih =>
    rw [ih, cut_step, hstep]
    show ((cut step.after rest).map _).map _ = _
    cases cut step.after rest with
    | error e => rfl
    | ok pieces => simp [Except.map, Cut.prepend]

/-- The text of the steps taken and what is left make up the source. -/
theorem source_eq (h : Reaches start source steps st rest) :
    source = Lexeme.textOf (steps.map (·.lexeme)).reverse ++ rest := by
  induction h with
  | start => rfl
  | @step steps st c r rest step h hstep ih =>
    obtain ⟨kind, extra, region, -, -, rfl, rfl⟩ := ScanState.step_ok hstep
    simp [ih, Lexeme.textOf]

/-- The text of the steps taken tells whether the line is blank so far. -/
theorem fresh_eq (h : Reaches start source steps st rest) :
    st.fresh = (Lexeme.textOf (steps.map (·.lexeme)).reverse).foldl ScanState.freshAfter
      start.fresh := by
  induction h with
  | start => rfl
  | @step steps st c r rest step h hstep ih =>
    obtain ⟨kind, extra, region, -, -, rfl, rfl⟩ := ScanState.step_ok hstep
    rw [List.map_cons, List.reverse_cons, Lexeme.textOf_append, List.foldl_append, ← ih]
    simp [Lexeme.textOf, ScanState.advance]

/-- A scan goes on through the lexemes of what is left. -/
theorem exists_split (h : Reaches start source steps st rest) {pieces : Cut} {as bs : List Lexeme}
    (hcut : cut st rest = .ok pieces) (hsplit : pieces.lexemes = as ++ bs) :
    ∃ more st' rest', Reaches start source (more ++ steps) st' rest'
      ∧ (more.map (·.lexeme)).reverse = as ∧ cut st' rest' = .ok ⟨bs, pieces.final⟩ := by
  induction as generalizing steps st rest pieces with
  | nil =>
    refine ⟨[], st, rest, h, rfl, ?_⟩
    rw [hcut, ← show pieces.lexemes = bs from hsplit]
  | cons a as ih =>
    cases rest with
    | nil =>
      rw [cut] at hcut
      split at hcut
      · cases hcut
        cases hsplit
      · cases hcut
    | cons c r =>
      rw [cut_step] at hcut
      obtain ⟨⟨step, rest⟩, hstep, hmap⟩ := ok_of_bind hcut
      obtain ⟨ahead, hahead, rfl⟩ := ok_of_map hmap
      obtain ⟨rfl, hafter⟩ := List.cons.inj hsplit
      obtain ⟨more, st', rest', hmore, hlexemes, hcut'⟩ := ih (h.step hstep) hahead hafter
      refine ⟨more ++ [step], st', rest', by rwa [List.append_assoc], ?_, hcut'⟩
      rw [List.map_append, List.reverse_append, hlexemes]
      rfl

/-- A text that is cut is scanned to its end. -/
theorem exists_end (h : Reaches start source steps st rest) {pieces : Cut}
    (hcut : cut st rest = .ok pieces) :
    ∃ more, Reaches start source (more ++ steps) pieces.final []
      ∧ (more.map (·.lexeme)).reverse = pieces.lexemes := by
  obtain ⟨more, st', rest', hmore, hlexemes, hcut'⟩ := h.exists_split hcut (List.append_nil _).symm
  cases rest' with
  | nil =>
    rw [cut] at hcut'
    split at hcut'
    · obtain ⟨⟩ := Except.ok.inj hcut'
      exact ⟨more, hmore, hlexemes⟩
    · cases hcut'
  | cons c r =>
    rw [cut_step] at hcut'
    obtain ⟨⟨step, rest⟩, -, hcut'⟩ := ok_of_bind hcut'
    obtain ⟨ahead, -, hahead⟩ := ok_of_map hcut'
    cases hahead

end Reaches

/-- Each lexeme of a cut is that of a step. -/
theorem exists_step {start : ScanState} {source : List Char} {pieces : Cut}
    (hcut : cut start source = .ok pieces) {as bs : List Lexeme} {l : Lexeme}
    (hsplit : pieces.lexemes = as ++ l :: bs) :
    ∃ (st : ScanState) (c : Char) (r rest : List Char) (step : ScanStep),
      st.step c r = .ok (step, rest) ∧ step.lexeme = l
        ∧ st.fresh = (Lexeme.textOf as).foldl ScanState.freshAfter start.fresh
        ∧ cut step.after rest = .ok ⟨bs, pieces.final⟩ := by
  obtain ⟨steps, st, rest, hreach, rfl, hcut'⟩ := Reaches.start.exists_split hcut hsplit
  rw [List.append_nil] at hreach
  cases rest with
  | nil =>
    rw [cut] at hcut'
    split at hcut'
    · cases hcut'
    · cases hcut'
  | cons c r =>
    rw [cut_step] at hcut'
    obtain ⟨⟨step, rest⟩, hstep, hmap⟩ := ok_of_bind hcut'
    obtain ⟨⟨lexemes, final⟩, hahead, heq⟩ := ok_of_map hmap
    obtain ⟨hlexemes, rfl⟩ := Cut.mk.inj heq
    obtain ⟨rfl, rfl⟩ := List.cons.inj hlexemes
    exact ⟨st, c, r, rest, step, hstep, rfl, hreach.fresh_eq, hahead⟩

end NullableMarker
