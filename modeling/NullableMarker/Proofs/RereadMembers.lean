import NullableMarker.Proofs.RereadParts

/-!
# Reading members again

The shapes of members that hold no members are read from woven tokens as they are read from the
tokens themselves; where the marks do not fit a shape, it does not read the woven tokens.

* `plainShape_tracks` — members that hold no members
* `typeHead_tracks` — the heads of type declarations
-/

namespace NullableMarker.Grammar

open Weaving

variable {w : Weaving}

/-! ## Explicit interfaces -/

theorem CoreFollows.live {ts us : List Token} {p : Parsed ts} {p' : Parsed us}
    (h : CoreFollows w p p') (hsound : w.Sound ts) (hnil : w.pending p.tree.tokens = []) :
    Live w (view p) (view p') := by
  obtain ⟨kind, cs, htree, hkind, -⟩ := h.core
  refine ⟨?_, (sound_parsed hsound p).of_append, fun hfits => ?_, rfl, rfl⟩
  · show p'.rest = w.weave p.rest
    rw [h.rest, hnil, List.nil_append]
  · show [p'.tree] = [p.tree].map w.tree
    have hfits := hfits p.tree (List.mem_singleton_self _)
    rw [htree, fits_type hkind, ← Tree.tokens_node kind, ← htree] at hfits
    rw [h.tree hfits, List.map_singleton, htree, tree_type hkind, ← Tree.tokens_node kind, ← htree,
      hnil]
    rfl

/-- The dot and `this` after a name are seen alike. -/
theorem nextThis_weave {ts : List Token} (hsound : w.Sound ts) :
    (nextIs .dot (w.weave ts) && nextKeyword ["this"] (w.weave ts).tail)
      = (nextIs .dot ts && nextKeyword ["this"] ts.tail) := by
  rw [nextIs_weave]
  cases ts with
  | nil => rfl
  | cons t ts =>
    cases hdot : nextIs .dot (t :: ts) with
    | false => rfl
    | true =>
      have hkind : t.kind = .dot := by simpa [nextIs] using hdot
      have hunmarked := hsound.unmarked (endsType_of_kind (by simp [hkind]))
      rw [weave_cons, w.after_of_unmarked hunmarked, List.nil_append, List.tail_cons, List.tail_cons,
        nextKeyword_weave]

theorem not_of_next {us : List Token} {kind other : TokenKind} (hkind : kind ≠ other)
    (h : nextIs kind us = true) : nextIs other us = false := by
  cases us with
  | nil => rfl
  | cons u us =>
    have hu : u.kind = kind := by simpa [nextIs] using h
    simpa [nextIs, hu] using hkind

theorem nextIn_of_next {us : List Token} {kind : TokenKind} {kinds : List TokenKind}
    (hkinds : kinds.contains kind = false) (h : nextIs kind us = true) : nextIn kinds us = false := by
  cases us with
  | nil => rfl
  | cons u us =>
    have hu : u.kind = kind := by simpa [nextIs] using h
    rw [nextIn, List.head?_cons, Option.any_some, hu, hkinds]

/-- What may be read, seen alike by both readers. -/
def OptionLive (w : Weaving) {ts us : List Token} (e : Option (Parsed ts))
    (e' : Option (Parsed us)) : Prop :=
  (e = none ∧ e' = none) ∨ ∃ p p', e = some p ∧ e' = some p' ∧ Live w (view p) (view p')

theorem CoreFollows.cases {ts us : List Token} {p : Parsed ts} {p' : Parsed us}
    (h : CoreFollows w p p') (hsound : w.Sound ts) :
    Live w (view p) (view p') ∨ nextIs .identifier p.rest = true ∧ AtMark p'.rest := by
  rcases pending_cases (sound_parsed hsound p) with hnil | ⟨m, u, us, hm, hquestion, hrest, hu⟩
  · exact .inl (h.live hsound hnil)
  · refine .inr ⟨by simp [hrest, nextIs, hu], ?_⟩
    simp [AtMark, h.rest, hm, nextIs, hquestion]

theorem explicitInterface?_follows {ts : List Token} (hsound : w.Sound ts) :
    Follows (OptionLive w) (explicitInterface? ts) (explicitInterface? (w.weave ts)) := by
  refine (name_follows hsound).bind fun whole whole' h => ?_
  have hthis : (nextIs .dot whole'.rest && nextKeyword ["this"] whole'.rest.tail)
      = (nextIs .dot whole.rest && nextKeyword ["this"] whole.rest.tail) := by
    rcases h.cases hsound with hlive | ⟨hident, hmark⟩
    · have hrest : whole'.rest = w.weave whole.rest := hlive.rest
      have hsound : w.Sound whole.rest := hlive.sound
      rw [hrest, nextThis_weave hsound]
    · rw [not_of_next (by simp) hident, not_of_next (by simp) hmark]
      rfl
  dsimp only
  rw [h.segmentCount, hthis]
  -- both readers go back and read the same number of segments
  generalize (if (nextIs .dot whole.rest && nextKeyword ["this"] whole.rest.tail) = true then
    segmentCount whole.tree else segmentCount whole.tree - 1) = count
  split
  · exact ⟨_, rfl, .inl ⟨rfl, rfl⟩⟩
  refine (nameUpTo_follows hsound _).bind fun q q' hq => ?_
  rw [Begun.next, Begun.next]
  rcases hq.cases hsound with hlive | ⟨hident, hmark⟩
  · have hlive : Live w (view (Begun.ofParsed q)) (view (Begun.ofParsed q')) := hlive
    rcases Live.expect .dot rfl hlive with ⟨dot, dot', hd, hd', hlive⟩ | ⟨hd, hd'⟩
    · rw [hd, hd']
      exact ⟨_, rfl, .inr ⟨_, _, rfl, rfl, Live.finish hlive rfl⟩⟩
    · rw [hd, hd']
      rfl
  · have hident : nextIs .identifier (Begun.ofParsed q).rest = true := hident
    have hmark : AtMark (Begun.ofParsed q').rest := hmark
    rw [expect_of_next (by simp) hident, expect_of_next (by simp) hmark]
    rfl

/-- An explicit interface, or none. -/
theorem StepTracks.explicit {R : List Token → Type} [∀ ts, Viewed (R ts)] {a b a' b' : Bool}
    {yes no : (ts : List Token) → Begun ts → Except Failure (R ts)} (hyes : StepTracks w a b yes)
    (hno : StepTracks w a' b' no) :
    StepTracks w (a && a') true fun ts (r : Begun ts) => explicitInterface? r.rest >>= fun e =>
      match e with
      | some p => yes ts (r.add p)
      | none => no ts r where
  live r r' hr := by
    have hexplicit := explicitInterface?_follows (w := w) (show w.Sound r.rest from hr.sound)
    have hrest : r'.rest = w.weave r.rest := hr.rest
    rw [← hrest] at hexplicit
    cases he : explicitInterface? r.rest with
    | error e => exact hexplicit.tracksError he rfl fun h => by rw [h]; rfl
    | ok e =>
      obtain ⟨e', he', hlive⟩ := hexplicit.ok he
      rw [he']
      rcases hlive with ⟨rfl, rfl⟩ | ⟨p, p', rfl, rfl, hp⟩
      · exact Tracks.weaken (hno.live r r' hr) (by rintro rfl; simp)
      · have hr : Live w (view r.toReading) (view r'.toReading) := hr
        exact Tracks.weaken (hyes.live (r.add p) (r'.add p') (hr.add hp)) (by rintro rfl; rfl)
  mark r' hmark := by
    have hname : name r'.rest = .error .mismatch := name_of_question hmark
    rw [explicitInterface?, hname]
    exact .inl rfl
  grows r q hq hfits := by
    obtain ⟨e, -, hq⟩ := ok_of_bind hq
    cases e with
    | some p => exact fits_of_add (hyes.grows (r.add p) q hq hfits)
    | none => exact hno.grows r q hq hfits

/-! ## Shapes -/

/-- A block in braces. -/
theorem StepTracks.block {R : List Token → Type} [∀ ts, Viewed (R ts)] {a b : Bool}
    {step : (ts : List Token) → Begun ts → Except Failure (R ts)} (h : StepTracks w a b step) :
    StepTracks w a true fun ts (r : Begun ts) =>
      if nextIs .lbrace r.rest then
        balanced r.rest >>= fun g => step ts (r.add (.ofGroup .block g))
      else throw .mismatch where
  live r r' hr := by
    have hrest : r'.rest = w.weave r.rest := hr.rest
    rw [(testsAlike_nextIs (show TokenKind.lbrace ≠ .question by simp)).agree_begun hr]
    split
    · next hbrace =>
      have heq : ∀ {ts : List Token} (r : Begun ts),
          (balanced r.rest >>= fun g => step ts (r.add (.ofGroup .block g)))
            = bracketed .block r.rest >>= fun p => step ts (r.add p) := by
        intro ts r
        rw [bracketed]
        cases balanced r.rest <;> rfl
      rw [heq, heq]
      exact .round hr (bracketed_brace_tracks rfl hr.sound hbrace)
        (fun p p' hp => h.live (r.add p) (r'.add p') hp) (fun _ h => by cases h)
        fun p q hq hfits => h.grows (r.add p) q hq hfits
    · exact tracks_mismatch
  mark r' hmark := by
    have hmark : AtMark r'.rest := hmark
    rw [nextIs_of_atMark hmark (by simp)]
    exact .inl rfl
  grows r q hq hfits := by
    split at hq
    · obtain ⟨g, -, hq⟩ := ok_of_bind hq
      exact fits_of_add (h.grows _ q hq hfits)
    · cases hq

theorem enumShape_tracks : ReaderTracks w true enumShape := by
  have hstep := (StepTracks.next (w := w) readerTracks_identifier).bind
    ((StepTracks.nextIf (testsAlike_nextIs (show TokenKind.colon ≠ .question by simp))
      fun ts hsound _ => readerTracks_baseList.tracks ts hsound).bind
      (StepTracks.block (StepTracks.optional (f := (·.kind == .semicolon)) (by simp)
        (by intro m hm; rw [hm]; rfl) (fun t ht => endsType_of_kind (by simp [beq_iff_eq.mp ht]))
        (StepTracks.shape .enumType))))
  exact (readerTracks_keyword ["enum"] (by decide)).bind hstep.ofParsed

/-- The parts that follow the name of a declaration. -/
theorem stepTracks_typeParameters : StepTracks w false false fun ts (r : Begun ts) =>
    r.nextIf (nextIs .lessThan) typeParameterList :=
  .nextIf (testsAlike_nextIs (by simp)) typeParameterList_tracks

theorem delegateShape_tracks : ReaderTracks w true delegateShape := by
  have hstep := (StepTracks.next (w := w) readerTracks_type).bind
    ((StepTracks.next readerTracks_identifier).bind
      (stepTracks_typeParameters.bind ((StepTracks.next readerTracks_parameterList).bind
        (stepTracks_constraintClauses.bind
          ((StepTracks.next (readerTracks_expect .semicolon rfl)).bind
            (StepTracks.shape .delegateType))))))
  exact (readerTracks_keyword ["delegate"] (by decide)).bind hstep.ofParsed

theorem destructorShape_tracks (ts : List Token) (hsound : w.Sound ts) :
    Tracks w true (destructorShape ts) (destructorShape (w.weave ts)) := by
  have hstep := (StepTracks.next (w := w) readerTracks_identifier).bind
    ((StepTracks.next readerTracks_parameterList).bind
      ((StepTracks.next readerTracks_body).bind (StepTracks.shape .destructor)))
  exact hstep.ofParsed.after (expectThat_tracks (by simp) ts hsound)

theorem conversionShape_tracks : ReaderTracks w true conversionShape := by
  have hstep := (StepTracks.next (w := w) (readerTracks_word ["operator"])).bind
    (StepTracks.optional (f := (·.isKeyword ["checked"])) (by simp)
      (fun m hm => isKeyword_of_question hm _) (fun t ht => endsType_of_isKeyword ht (by decide))
      ((StepTracks.next readerTracks_type).bind ((StepTracks.next readerTracks_parameterList).bind
        ((StepTracks.next readerTracks_body).bind (StepTracks.shape .conversionOperator)))))
  exact (readerTracks_keyword ["implicit", "explicit"] (by decide)).bind hstep.ofParsed

theorem readerTracks_constructorInitializer : ReaderTracks w false constructorInitializer := by
  have heq : (fun ts (r : Begun ts) => balanced r.rest >>= fun g =>
        (pure ((r.extend (.ofRun g.toRun)).finish .skipped) : Except Failure (Parsed ts)))
      = fun ts r => ((balanced r.rest).map fun g => r.extend (.ofRun g.toRun)) >>= fun r =>
        pure (r.finish .skipped) := by
    funext ts r
    cases balanced r.rest <;> rfl
  have hgroup : StepTracks w false true fun ts (r : Begun ts) => balanced r.rest >>= fun g =>
      (pure ((r.extend (.ofRun g.toRun)).finish .skipped) : Except Failure (Parsed ts)) := by
    rw [heq]
    exact StepTracks.group.bind (StepTracks.finish .skipped rfl)
  exact (readerTracks_expect .colon rfl).bind
    ((StepTracks.next (readerTracks_word ["base", "this"])).bind
      (StepTracks.ite (testsAlike_nextIs (by simp)) hgroup StepTracks.fail)).ofParsed

theorem constructorShape_tracks : ReaderTracks w true constructorShape := by
  have hstep := (StepTracks.next (w := w) readerTracks_parameterList).bind
    ((StepTracks.nextIf (testsAlike_nextIs (show TokenKind.colon ≠ .question by simp))
      fun ts hsound _ => readerTracks_constructorInitializer.tracks ts hsound).bind
      ((StepTracks.next readerTracks_body).bind (StepTracks.shape .constructor)))
  exact readerTracks_identifier.bind hstep.ofParsed

theorem indexerShape_tracks : StepTracks w true true fun ts (r : Begun ts) => indexerShape r := by
  have hlist := readerTracks_parameterListIn (w := w) .lbracket .rbracket rfl (by simp)
  exact (StepTracks.next (readerTracks_keyword ["this"] (by decide))).bind
    ((StepTracks.next hlist).bind
      (StepTracks.ite (testsAlike_nextIs (show TokenKind.lbrace ≠ .question by simp))
        ((StepTracks.next readerTracks_accessorList).bind (StepTracks.shape .indexer))
        (StepTracks.ite (testsAlike_nextIs (show TokenKind.arrow ≠ .question by simp))
          ((StepTracks.next readerTracks_body).bind (StepTracks.shape .indexer)) StepTracks.fail)))

theorem methodShape_tracks : StepTracks w true true fun ts (r : Begun ts) => methodShape r :=
  stepTracks_typeParameters.bind ((StepTracks.next readerTracks_parameterList).bind
    (stepTracks_constraintClauses.bind
      ((StepTracks.next readerTracks_body).bind (StepTracks.shape .method))))

/-- A part that decides how the reading goes on. -/
theorem StepTracks.iteNext {R : List Token → Type} [∀ ts, Viewed (R ts)] {a b c a' b' : Bool}
    {test : List Token → Bool} (htest : TestsAlike w test)
    {reader : (ts : List Token) → Except Failure (Parsed ts)}
    (h : ∀ ts, w.Sound ts → test ts = true → Tracks w c (reader ts) (reader (w.weave ts)))
    {more no : (ts : List Token) → Begun ts → Except Failure (R ts)} (hmore : StepTracks w a' b' more)
    (hno : StepTracks w a b no) :
    StepTracks w ((a' && (c || b')) && a) b fun ts (r : Begun ts) =>
      if test r.rest then r.next reader >>= more ts else no ts r where
  live r r' hr := by
    rw [htest.agree_begun hr]
    split
    · next hr' =>
      exact (hmore.after (.next hr (h r.rest hr.sound hr'))).weaken fun h => by rw [h]; rfl
    · exact Tracks.weaken (hno.live r r' hr) (by rintro rfl; simp)
  mark r' hmark := by
    rw [htest.mark r'.rest hmark]
    exact hno.mark r' hmark
  grows r q hq hfits := by
    split at hq
    · obtain ⟨s, hs, hq⟩ := ok_of_bind hq
      obtain ⟨p, -, rfl⟩ := Begun.next_ok hs
      exact fits_of_add (hmore.grows _ q hq hfits)
    · exact hno.grows r q hq hfits

theorem propertyShape_tracks : StepTracks w true true fun ts (r : Begun ts) => propertyShape r := by
  have hstop := stopsAlike_kind (w := w) (show TokenKind.semicolon ≠ .question by simp)
  have hvalue := StepTracks.iteNext
    (testsAlike_nextIs (w := w) (show TokenKind.equals ≠ .question by simp))
    (fun ts hsound _ => equalsValue_tracks hstop ts hsound)
    ((StepTracks.next (readerTracks_expect .semicolon rfl)).bind (StepTracks.shape .property))
    (StepTracks.shape .property)
  exact StepTracks.ite (testsAlike_nextIs (by simp))
    ((StepTracks.next readerTracks_body).bind (StepTracks.shape .property))
    ((StepTracks.next readerTracks_accessorList).bind hvalue)

theorem namedShape_tracks : StepTracks w true true fun ts (r : Begun ts) => namedShape r :=
  StepTracks.ite (testsAlike_nextIn rfl) methodShape_tracks
    (StepTracks.ite (testsAlike_nextIn rfl) propertyShape_tracks StepTracks.fail)

/-- A step after one that never ends at a mark. -/
theorem StepTracks.bindSure {S T R : List Token → Type} [∀ ts, Viewed (S ts)] [∀ ts, Viewed (T ts)]
    [∀ ts, Viewed (R ts)] {a : Bool} {first : (ts : List Token) → S ts → Except Failure (T ts)}
    {second : (ts : List Token) → T ts → Except Failure (R ts)} (h : StepTracks w true true first)
    (hlive : ∀ {ts us : List Token} (s : T ts) (s' : T us), Live w (view s) (view s') →
      Tracks w a (second ts s) (second us s'))
    (hgrows : ∀ {ts : List Token} (s : T ts) (q : R ts), second ts s = .ok q → (view q).Fits w →
      (view s).Fits w) :
    StepTracks w a true fun ts s => first ts s >>= second ts where
  live s s' hs := by
    have hfirst := h.live s s' hs
    cases ht : first _ s with
    | error e =>
      rw [ht] at hfirst
      cases e with
      | fatal cause token => trivial
      | mismatch =>
        rw [Stuck.mismatch hfirst]
        exact tracks_mismatch
    | ok t =>
      rw [ht] at hfirst
      rcases hfirst with ⟨t', ht', hlive'⟩ | ⟨hfits, hstuck⟩
      · rw [ht']
        exact hlive t t' hlive'
      · rw [hstuck.mismatch]
        exact .stuck rfl fun q hq hall => hfits (hgrows t q hq hall)
  mark s' hmark := by
    rw [(h.mark s' hmark).mismatch]
    exact .inl rfl
  grows s q hq hfits := by
    obtain ⟨t, ht, hq⟩ := ok_of_bind hq
    exact h.grows s t ht (hgrows t q hq hfits)

theorem operatorShape_tracks : StepTracks w true true fun ts (r : Begun ts) => operatorShape r := by
  have hstep := (StepTracks.next (w := w) readerTracks_parameterList).bind
    ((StepTracks.next readerTracks_body).bind (StepTracks.shape .operator))
  have hstop := stopsAlike_kind (w := w) (show TokenKind.lparen ≠ .question by simp)
  refine StepTracks.bindSure (StepTracks.next (readerTracks_keyword ["operator"] (by decide))) ?_ ?_
  · intro ts us r r' hr
    have htake := takeUntil_follows hstop r.rest hr.sound
    have hrest : r'.rest = w.weave r.rest := hr.rest
    rw [← hrest] at htake
    cases hsymbol : takeUntil (fun t _ => t.kind == .lparen) r.rest with
    | error e => exact htake.tracksError hsymbol rfl fun h => by rw [h]; rfl
    | ok symbol =>
      obtain ⟨symbol', hsymbol', hcovers⟩ := htake.ok hsymbol
      have hempty : symbol'.taken.isEmpty = symbol.taken.isEmpty := by rw [hcovers.1, isEmpty_weave]
      rw [hsymbol']
      show Tracks w true (if symbol.taken.isEmpty = true then _ else _)
        (if symbol'.taken.isEmpty = true then _ else _)
      rw [hempty]
      split
      · exact tracks_mismatch
      · exact hstep.live _ _ (hr.extendRun hcovers)
  · intro ts r q hq hfits
    obtain ⟨symbol, -, hq⟩ := ok_of_bind hq
    dsimp only at hq
    split at hq
    · cases hq
    · exact fits_of_extend (hstep.grows _ q hq hfits)

/-- A name is read by both readers or by none; after a name with a mark comes another name. -/
theorem Live.expectName {ts us : List Token} {r : Begun ts} {r' : Begun us}
    (hr : Live w (view r) (view r')) :
    (Grammar.expect .identifier r.rest = .error .mismatch
        ∧ Grammar.expect .identifier r'.rest = .error .mismatch)
      ∨ ∃ p p', Grammar.expect .identifier r.rest = .ok p
        ∧ Grammar.expect .identifier r'.rest = .ok p' ∧ p'.tree.text = p.tree.text
        ∧ (Live w (view (r.add p)) (view (r'.add p')) ∨ ¬(view (r.add p)).Fits w
          ∧ nextIs .identifier (r.add p).rest = true ∧ AtMark (r'.add p').rest) := by
  have hsound : w.Sound r.rest := hr.sound
  have hrest : r'.rest = w.weave r.rest := hr.rest
  have hr : Live w (view r.toReading) (view r'.toReading) := hr
  have hexpect := expect_follows (w := w) .identifier r.rest
  rw [← hrest] at hexpect
  cases hp : Grammar.expect .identifier r.rest with
  | error e =>
    cases expect_error hp
    exact .inl ⟨rfl, hexpect.mismatch hp⟩
  | ok p =>
    obtain ⟨p', hp', htoken⟩ := hexpect.ok hp
    obtain ⟨t, ht, ht', hcons, hp'rest⟩ := id htoken
    refine .inr ⟨p, p', rfl, hp', by rw [ht, ht']; simp [Tree.text], ?_⟩
    cases hmarked : w.marked t with
    | false =>
      refine .inl (hr.add (htoken.live hsound fun s hs => ?_))
      rw [ht] at hs
      cases hs
      exact hmarked
    | true =>
      rw [hcons] at hsound
      refine .inr ⟨fun hfits => ?_, (hsound.1 hmarked).2, ?_⟩
      · have hfits := hfits p.tree (List.mem_append_right _ (List.mem_singleton_self _))
        rw [ht, fits_token, hmarked] at hfits
        cases hfits
      · show AtMark p'.rest
        rw [hp'rest]
        exact atMark_after hmarked _

theorem Live.nextName {ts us : List Token} {r : Begun ts} {r' : Begun us}
    (hr : Live w (view r) (view r')) :
    (r.next (Grammar.expect .identifier) = .error .mismatch
        ∧ r'.next (Grammar.expect .identifier) = .error .mismatch)
      ∨ ∃ named named', r.next (Grammar.expect .identifier) = .ok named
        ∧ r'.next (Grammar.expect .identifier) = .ok named'
        ∧ (Live w (view named) (view named')
          ∨ ¬(view named).Fits w ∧ nextIs .identifier named.rest = true ∧ AtMark named'.rest) := by
  rw [Begun.next, Begun.next]
  rcases hr.expectName with ⟨hp, hp'⟩ | ⟨p, p', hp, hp', -, h⟩
  · rw [hp, hp']
    exact .inl ⟨rfl, rfl⟩
  · rw [hp, hp']
    exact .inr ⟨_, _, rfl, rfl, h⟩

section Names

variable {a b a' b' : Bool} {test : List Token → Bool}
  {named other : (ts : List Token) → Begun ts → Except Failure (Shape ts)}

/-- What follows a name decides whether the name is read anew. -/
theorem StepTracks.renamed (htest : TestsAlike w test)
    (hident : ∀ us, nextIs .identifier us = true → test us = false)
    (hother : StepTracks w a b other) (hnamed : StepTracks w a' true named) :
    StepTracks w (a && a') true fun ts (r : Begun ts) => r.next (expect .identifier) >>= fun s =>
      if test s.rest then other ts r else named ts s where
  live r r' hr := by
    rcases hr.nextName with ⟨hs, hs'⟩ | ⟨s, s', hs, hs', hlive | ⟨hfits, hnext, hmark⟩⟩
    · rw [hs, hs']
      exact tracks_mismatch
    · rw [hs, hs']
      show Tracks w _ (if test s.rest = true then _ else _) (if test s'.rest = true then _ else _)
      rw [htest.agree_begun hlive]
      split
      · exact Tracks.weaken (hother.live r r' hr) (by rintro rfl; rfl)
      · exact Tracks.weaken (hnamed.live s s' hlive) (by rintro rfl; simp)
    · rw [hs, hs']
      show Tracks w _ (if test s.rest = true then _ else _) (if test s'.rest = true then _ else _)
      rw [hident _ hnext, htest.mark _ hmark]
      exact (hnamed.stuck hfits hmark).weaken (by simp)
  mark r' hmark := by
    rw [(StepTracks.next (w := w) readerTracks_identifier).mark r' hmark |>.mismatch]
    exact .inl rfl
  grows r q hq hfits := by
    obtain ⟨s, hs, hq⟩ := ok_of_bind hq
    split at hq
    · exact hother.grows r q hq hfits
    · exact (StepTracks.next readerTracks_identifier).grows r s hs (hnamed.grows s q hq hfits)

/-- What follows a name decides whether the name is kept. -/
theorem StepTracks.kept (htest : TestsAlike w test)
    (hident : ∀ us, nextIs .identifier us = true → test us = false)
    (hnamed : StepTracks w a b named) (hother : StepTracks w a' b' other) :
    StepTracks w (a && a') true fun ts (r : Begun ts) => r.next (expect .identifier) >>= fun s =>
      if test s.rest then named ts s else other ts r where
  live r r' hr := by
    rcases hr.nextName with ⟨hs, hs'⟩ | ⟨s, s', hs, hs', hlive | ⟨hfits, hnext, hmark⟩⟩
    · rw [hs, hs']
      exact tracks_mismatch
    · rw [hs, hs']
      show Tracks w _ (if test s.rest = true then _ else _) (if test s'.rest = true then _ else _)
      rw [htest.agree_begun hlive]
      split
      · exact Tracks.weaken (hnamed.live s s' hlive) (by rintro rfl; rfl)
      · exact Tracks.weaken (hother.live r r' hr) (by rintro rfl; simp)
    · rw [hs, hs']
      show Tracks w _ (if test s.rest = true then _ else _) (if test s'.rest = true then _ else _)
      rw [hident _ hnext, htest.mark _ hmark]
      exact Tracks.weaken (hother.live r r' hr) (by rintro rfl; simp)
  mark r' hmark := by
    rw [(StepTracks.next (w := w) readerTracks_identifier).mark r' hmark |>.mismatch]
    exact .inl rfl
  grows r q hq hfits := by
    obtain ⟨s, hs, hq⟩ := ok_of_bind hq
    split at hq
    · exact (StepTracks.next readerTracks_identifier).grows r s hs (hnamed.grows s q hq hfits)
    · exact hother.grows r q hq hfits

end Names

theorem eventShape_tracks : ReaderTracks w true eventShape := by
  have hexplicit := (StepTracks.next (w := w) readerTracks_identifier).bind
    ((StepTracks.next readerTracks_accessorList).bind (StepTracks.shape .event))
  have hplain := StepTracks.kept
    (testsAlike_nextIs (w := w) (show TokenKind.lbrace ≠ .question by simp))
    (fun us h => not_of_next (by simp) h)
    ((StepTracks.next readerTracks_accessorList).bind (StepTracks.shape .event))
    (stepTracks_declarators.bind (StepTracks.shape .eventField))
  exact (readerTracks_keyword ["event"] (by decide)).bind
    ((StepTracks.next readerTracks_type).bind (StepTracks.explicit hexplicit hplain)).ofParsed

theorem typedShape_tracks : ReaderTracks w true typedShape := by
  have hexplicit := StepTracks.ite (testsAlike_nextKeyword (w := w) ["this"]) indexerShape_tracks
    ((StepTracks.next readerTracks_identifier).bind namedShape_tracks)
  have hplain := StepTracks.renamed
    (show TestsAlike w (nextIn [.equals, .semicolon, .comma, .lbracket]) from testsAlike_nextIn rfl)
    (fun us h => nextIn_of_next rfl h)
    (stepTracks_declarators.bind (StepTracks.shape .field)) namedShape_tracks
  exact readerTracks_type.bind (StepTracks.ite (testsAlike_nextKeyword ["operator"])
    operatorShape_tracks (StepTracks.ite (testsAlike_nextKeyword ["this"]) indexerShape_tracks
      (StepTracks.explicit hexplicit hplain))).ofParsed

theorem plainShape_tracks (typeName : Option String) (ts : List Token) (hsound : w.Sound ts) :
    Tracks w true (plainShape typeName ts) (plainShape typeName (w.weave ts)) := by
  have hconstructor : ((w.weave ts).head?.any
        (fun t => t.kind == .identifier && some t.value == typeName)
        && nextIs .lparen (w.weave ts).tail)
      = (ts.head?.any (fun t => t.kind == .identifier && some t.value == typeName)
        && nextIs .lparen ts.tail) := by
    cases ts with
    | nil => rfl
    | cons t ts =>
      rw [weave_cons, List.head?_cons, List.head?_cons, Option.any_some, Option.any_some,
        kind_relabel, value_relabel, List.tail_cons, List.tail_cons]
      cases hmarked : w.marked t with
      | false => rw [w.after_of_unmarked hmarked, List.nil_append, nextIs_weave]
      | true =>
        rw [nextIs_of_atMark (atMark_after hmarked _) (by simp),
          not_of_next (by simp) (hsound.1 hmarked).2]
  have hdestructor : (w.weave ts).head?.any (fun t => t.kind == .operator && t.value == "~")
      = ts.head?.any (fun t => t.kind == .operator && t.value == "~") := by
    rw [head?_weave]
    cases ts <;> simp
  rw [plainShape, plainShape, nextKeyword_weave, nextKeyword_weave, nextKeyword_weave,
    nextKeyword_weave, hdestructor, hconstructor]
  split
  · exact enumShape_tracks.tracks ts hsound
  split
  · exact delegateShape_tracks.tracks ts hsound
  split
  · exact eventShape_tracks.tracks ts hsound
  split
  · exact destructorShape_tracks ts hsound
  split
  · exact conversionShape_tracks.tracks ts hsound
  split
  · exact constructorShape_tracks.tracks ts hsound
  · exact typedShape_tracks.tracks ts hsound

/-! ## Heads of type declarations -/

/-- Reads the parts of a head after the name. -/
def headAfter (kind : NodeKind) (name : String) {ts : List Token} (r : Begun ts) :
    Except Failure (TypeHead ts) := do
  let r ← r.nextIf (nextIs .lessThan) typeParameterList
  let r ← r.nextIf (nextIs .lparen) parameterList
  let r ← r.nextIf (nextIs .colon) baseList
  let r ← constraintClauses r
  return ⟨kind, name, r⟩

theorem stepTracks_headAfter (kind : NodeKind) (name : String) :
    StepTracks w false false fun ts (r : Begun ts) => headAfter kind name r := by
  have hparameters := StepTracks.nextIf
    (testsAlike_nextIs (w := w) (show TokenKind.lparen ≠ .question by simp))
    fun ts hsound _ => readerTracks_parameterList.tracks ts hsound
  have hbases := StepTracks.nextIf
    (testsAlike_nextIs (w := w) (show TokenKind.colon ≠ .question by simp))
    fun ts hsound _ => readerTracks_baseList.tracks ts hsound
  have hend : StepTracks w true false fun ts (r : Begun ts) =>
      (pure ⟨kind, name, r⟩ : Except Failure (TypeHead ts)) :=
    .pure (fun _ _ h => ⟨h.rest, h.sound, h.children, rfl, rfl⟩) (fun _ => rfl) fun _ h => h
  exact stepTracks_typeParameters.bind
    (hparameters.bind (hbases.bind (stepTracks_constraintClauses.bind hend)))

theorem typeHead_tracks {t : Token} {ts : List Token} (hsound : w.Sound (t :: ts))
    (hunmarked : w.marked t = false) :
    Tracks w false (typeHead (t :: ts)) (typeHead (w.weave (t :: ts))) := by
  have hstart : Live w (view (Begun.token t ts)) (view (Begun.token (w.relabel t) (w.weave ts))) :=
    ⟨rfl, hsound.tail, fun _ => by show [Tree.token (w.relabel t)] = [Tree.token t].map w.tree; simp,
      rfl, rfl⟩
  have hrecord := hstart.optional (f := (·.isKeyword ["class", "struct"])) (by simp)
    fun t ht => endsType_of_isKeyword ht (by decide)
  rw [weave_cons, w.after_of_unmarked hunmarked, List.nil_append, typeHead, typeHead, value_relabel]
  dsimp only
  generalize declarationKind t.value = kind
  have hr : Live w (view (if (kind == .recordType) = true then
        (Begun.token t ts).optional (·.isKeyword ["class", "struct"]) else Begun.token t ts))
      (view (if (kind == .recordType) = true then
        (Begun.token (w.relabel t) (w.weave ts)).optional (·.isKeyword ["class", "struct"])
        else Begun.token (w.relabel t) (w.weave ts))) := by
    split
    · exact hrecord
    · exact hstart
  generalize (if (kind == .recordType) = true then
    (Begun.token t ts).optional (·.isKeyword ["class", "struct"]) else Begun.token t ts) = r at hr ⊢
  generalize (if (kind == .recordType) = true then
    (Begun.token (w.relabel t) (w.weave ts)).optional (·.isKeyword ["class", "struct"])
    else Begun.token (w.relabel t) (w.weave ts)) = r' at hr ⊢
  rcases hr.expectName with ⟨hp, hp'⟩ | ⟨p, p', hp, hp', htext, hlive | ⟨hfits, -, hmark⟩⟩
  · rw [hp, hp']
    exact tracks_mismatch
  · rw [hp, hp']
    show Tracks w false (headAfter kind p.tree.text (r.add p)) (headAfter kind p'.tree.text (r'.add p'))
    rw [htext]
    exact (stepTracks_headAfter kind p.tree.text).live (r.add p) (r'.add p') hlive
  · rw [hp, hp']
    show Tracks w false (headAfter kind p.tree.text (r.add p)) (headAfter kind p'.tree.text (r'.add p'))
    rw [htext]
    exact (stepTracks_headAfter kind p.tree.text).stuck hfits hmark

end NullableMarker.Grammar
