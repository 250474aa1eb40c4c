import NullableMarker.Proofs.MemberForms
import NullableMarker.Proofs.RereadSteps

/-!
# Reading parts of members again

The parts of members are read from woven tokens as they are read from the tokens themselves, as long
as the marks come at the ends of their types.

* `readerTracks_parameterList`, `readerTracks_accessorList`, `readerTracks_baseList`
* `stepTracks_constraintClauses`, `stepTracks_declarators` — parts after what was read
-/

namespace NullableMarker.Grammar

open Weaving

variable {w : Weaving}

/-! ## Parts of members -/

theorem typeParameters_of_question {us : List Token} (h : AtMark us) :
    typeParameters us = .error .mismatch := by
  cases us with
  | nil => cases h
  | cons m us =>
    have hm : m.kind = .question := by simpa [AtMark, nextIs] using h
    rw [typeParameters, isKeyword_of_question hm, hm]
    rfl

theorem typeParameters_tracks (ts : List Token) (hsound : w.Sound ts) :
    Tracks w false (typeParameters ts) (typeParameters (w.weave ts)) := by
  fun_induction typeParameters ts with
  | case1 =>
    rw [weave_nil, typeParameters]
    exact tracks_mismatch
  | case2 t rest hgt =>
    rw [weave_cons, typeParameters, kind_relabel, if_pos hgt]
    have hsingle : GroupFollows w (Group.single t rest)
        (Group.single (w.relabel t) (w.after t ++ w.weave rest)) := ⟨rfl, rfl⟩
    rcases hsingle.live hsound with hlive | ⟨hfits, hmark⟩
    · exact .live hlive
    · exact .inr ⟨hfits, .inr ⟨rfl, _, rfl, hmark⟩⟩
  | case3 t rest hgt hbracket e he =>
    have hgroup := balanced_follows (w := w) (t :: rest)
    rw [weave_cons] at hgroup ⊢
    rw [typeParameters, kind_relabel, if_neg hgt, if_pos hbracket]
    exact hgroup.tracksError he rfl fun h => by rw [h]
  | case4 t rest hgt hbracket g hg ih =>
    have hgroup := balanced_follows (w := w) (t :: rest)
    rw [weave_cons] at hgroup ⊢
    rw [typeParameters, kind_relabel, if_neg hgt, if_pos hbracket]
    obtain ⟨g', hg', hfollows⟩ := hgroup.ok hg
    rw [hg']
    dsimp only
    rcases hfollows.live hsound with hlive | ⟨hfits, hmark⟩
    · have hmore := ih hlive.sound
      have hrest : g'.rest = w.weave g.rest := hlive.rest
      rw [← hrest] at hmore
      exact hmore.map (fun _ _ h => hlive.appendGroup h) (fun _ h => h)
        fun _ h => (fits_of_appendGroup h).2
    · -- a mark after the attributes of a parameter
      have hmark : AtMark g'.rest := hmark
      refine .stuck (by rw [typeParameters_of_question hmark]; rfl) ?_
      intro q hq hall
      obtain ⟨more, -, rfl⟩ := ok_of_map hq
      exact hfits (fits_of_appendGroup hall).1
  | case5 t rest hgt hbracket hname ih =>
    rw [weave_cons, typeParameters, kind_relabel, isKeyword_relabel, if_neg hgt, if_neg hbracket,
      if_pos hname]
    cases hmarked : w.marked t with
    | false =>
      rw [w.after_of_unmarked hmarked]
      exact (ih hsound.tail).map (fun _ _ h => h.consToken t) (fun _ h => h)
        fun _ h => (fits_of_consToken h).2
    | true =>
      refine .stuck (by rw [typeParameters_of_question (atMark_after hmarked _)]; rfl) ?_
      intro g hg hfits
      obtain ⟨more, -, rfl⟩ := ok_of_map hg
      rw [(fits_of_consToken hfits).1] at hmarked
      cases hmarked
  | case6 t rest hgt hbracket hname =>
    rw [weave_cons, typeParameters, kind_relabel, isKeyword_relabel, if_neg hgt, if_neg hbracket,
      if_neg hname]
    exact tracks_mismatch

theorem typeParameterList_tracks (ts : List Token) (hsound : w.Sound ts)
    (h : nextIs .lessThan ts = true) :
    Tracks w false (typeParameterList ts) (typeParameterList (w.weave ts)) := by
  cases ts with
  | nil => cases h
  | cons t ts =>
    have hkind : t.kind = .lessThan := by simpa [nextIs] using h
    have hunmarked := hsound.unmarked (endsType_of_kind (by simp [hkind]))
    rw [weave_cons, w.after_of_unmarked hunmarked]
    have hcons := (typeParameters_tracks ts hsound.tail).map (fun _ _ h => h.consToken t)
      (fun _ h => h) fun _ h => (fits_of_consToken h).2
    have hnode := hcons.ofGroup (show NodeKind.typeParameterList.isType = false from rfl)
    rwa [map_map, map_map] at hnode

/-- Tokens up to a stop, after a first one. -/
theorem takeUntil_tracks {stop : Token → List Token → Bool} (hstop : StopsAlike w stop)
    {kind : NodeKind} (hkind : kind.isType = false) {t : Token} {ts : List Token}
    (hsound : w.Sound (t :: ts)) :
    Tracks w true ((takeUntil stop ts).map fun r => Parsed.ofGroup kind (Group.cons t r))
      ((takeUntil stop (w.after t ++ w.weave ts)).map fun r =>
        Parsed.ofGroup kind (Group.cons (w.relabel t) r)) := by
  have htake := takeUntil_marks hstop (takeUntil_follows hstop ts hsound.tail) (isMark_after w t)
  have hgroup : Follows (GroupCovers w) ((takeUntil stop ts).map (Group.cons t))
      ((takeUntil stop (w.after t ++ w.weave ts)).map (Group.cons (w.relabel t))) := by
    refine htake.map ?_
    rintro r r' ⟨htaken, hrest⟩
    exact ⟨congrArg (w.relabel t :: ·) htaken, hrest⟩
  have htracks : Tracks w true _ _ := hgroup.tracks fun _ _ _ h => .inl (h.live hsound)
  have hnode := htracks.ofGroup hkind
  rwa [map_map, map_map] at hnode

theorem stopsAlike_endsConstraint : StopsAlike w endsConstraint where
  mark m us hm := by
    rw [endsConstraint, hm, isWord_of_question hm]
    rfl
  token t ts _ := by simp [endsConstraint]

theorem constraintClause_tracks (ts : List Token) (hsound : w.Sound ts) :
    Tracks w true (constraintClause ts) (constraintClause (w.weave ts)) := by
  cases ts with
  | nil => exact tracks_mismatch
  | cons t ts => exact takeUntil_tracks stopsAlike_endsConstraint rfl hsound

theorem constraintClauses_eq {ts : List Token} (r : Begun ts) :
    constraintClauses r = if nextWord ["where"] r.rest then
      constraintClause r.rest >>= fun p => constraintClauses (r.add p) else .ok r := by
  rw [constraintClauses]
  split
  · cases constraintClause r.rest <;> rfl
  · rfl

theorem stepTracks_constraintClauses :
    StepTracks w true false fun ts (r : Begun ts) => constraintClauses r where
  live r r' hr := by
    induction hn : r.rest.length using Nat.strongRecOn generalizing r r' with
    | ind n ih =>
      subst hn
      rw [constraintClauses_eq r, constraintClauses_eq r',
        (testsAlike_nextWord (w := w) ["where"]).agree_begun hr]
      split
      · exact .round hr (constraintClause_tracks r.rest hr.sound)
          (fun p p' hp => ih _ p.progress (r.add p) (r'.add p') hp rfl) (fun _ h => by cases h)
          fun p q hq hfits => (adds_constraintClauses hq).grows hfits
      · exact .live hr
  mark r' hmark := by
    have hmark : AtMark r'.rest := hmark
    rw [constraintClauses_eq, nextWord_of_atMark hmark]
    exact .inr ⟨rfl, r', rfl, hmark⟩
  grows r q hq hfits := (adds_constraintClauses hq).grows hfits

theorem readerTracks_body : ReaderTracks w true body where
  tracks ts hsound := by
    cases ts with
    | nil => exact tracks_mismatch
    | cons t ts =>
      have hexpect := (readerTracks_expect (w := w) .semicolon (by simp)).tracks (t :: ts) hsound
      have hblock := bracketed_brace_tracks (w := w) (show NodeKind.block.isType = false from rfl)
        hsound
      rw [weave_cons] at hexpect hblock ⊢
      rw [body, body, kind_relabel]
      split
      · next ht =>
        exact hblock (by simpa [nextIs] using ht)
      split
      · next ht =>
        have hfollows := through_follows (w := w) (show TokenKind.semicolon ≠ .question by simp)
          (fun u hu => endsType_of_kind (by simp [hu])) t hsound.tail
        have htracks : Tracks w true _ _ := hfollows.tracks fun _ _ _ h => .inl (h.live hsound)
        exact htracks.ofGroup rfl
      · exact hexpect
  mark us hmark := by
    cases us with
    | nil => rfl
    | cons m us =>
      have hm : m.kind = .question := by simpa [AtMark, nextIs] using hmark
      rw [body, hm]
      exact expect_of_next (by simp) hmark

theorem equalsValue_tracks {stop : Token → List Token → Bool} (hstop : StopsAlike w stop)
    (ts : List Token) (hsound : w.Sound ts) :
    Tracks w true (equalsValue stop ts) (equalsValue stop (w.weave ts)) := by
  cases ts with
  | nil => exact tracks_mismatch
  | cons t ts => exact takeUntil_tracks hstop rfl hsound

/-! ## Attributes and modifiers -/

theorem attributeListsAfter_eq {ts : List Token} (r : Reading ts) :
    attributeListsAfter r = if nextIs .lbracket r.rest then
        bracketed .attributeList r.rest >>= fun p => attributeListsAfter (r.add p).toReading
      else .ok r := by
  rw [attributeListsAfter, bracketed]
  split
  · cases balanced r.rest <;> rfl
  · rfl

theorem attributeListsAfter_grows {ts : List Token} {r q : Reading ts}
    (h : attributeListsAfter r = .ok q) (hfits : (view q).Fits w) : (view r).Fits w := by
  fun_induction attributeListsAfter r with
  | case1 => cases h
  | case2 r hnext g hg ih => exact fits_of_add (ih h)
  | case3 =>
    cases h
    exact hfits

theorem attributeListsAfter_of_question {us : List Token} {r : Reading us} (h : AtMark r.rest) :
    attributeListsAfter r = .ok r := by
  rw [attributeListsAfter_eq, nextIs_of_atMark h (by simp)]
  rfl

theorem attributeListsAfter_tracks {ts us : List Token} {r : Reading ts} {r' : Reading us}
    (hr : Live w (view r) (view r')) :
    Tracks w false (attributeListsAfter r) (attributeListsAfter r') := by
  induction hn : r.rest.length using Nat.strongRecOn generalizing r r' with
  | ind n ih =>
    subst hn
    have hagree : nextIs .lbracket r'.rest = nextIs .lbracket r.rest :=
      (testsAlike_nextIs (by simp)).agree hr
    rw [attributeListsAfter_eq r, attributeListsAfter_eq r', hagree]
    split
    · refine .round hr (bracketed_tracks rfl hr.sound) ?_ ?_ ?_
      · exact fun p p' hp => ih _ p.progress hp rfl
      · intro p' _ hp'
        have hp' : AtMark (r'.add p').toReading.rest := hp'
        rw [attributeListsAfter_of_question hp']
        exact .inr ⟨rfl, _, rfl, hp'⟩
      · exact fun p q hq hfits => attributeListsAfter_grows hq hfits
    · exact .live hr

/-- The longest run of words is taken, or the run up to a mark that does not fit. -/
theorem takeWhile_words (words : List String) (ts : List Token) :
    RunCovers w (Run.takeWhile (fun t _ => t.isWord words) ts)
        (Run.takeWhile (fun t _ => t.isWord words) (w.weave ts))
      ∨ (∃ t ∈ (Run.takeWhile (fun t _ => t.isWord words) ts).taken, w.marked t = true)
        ∧ AtMark (Run.takeWhile (fun t _ => t.isWord words) (w.weave ts)).rest := by
  induction ts with
  | nil => exact .inl ⟨rfl, rfl⟩
  | cons t ts ih =>
    rw [weave_cons, Run.takeWhile, Run.takeWhile, isWord_relabel]
    split
    · cases hmarked : w.marked t with
      | false =>
        rw [w.after_of_unmarked hmarked, List.nil_append]
        rcases ih with ⟨htaken, hrest⟩ | ⟨⟨u, hu, humarked⟩, hmark⟩
        · refine .inl ⟨?_, hrest⟩
          show w.relabel t :: _ = w.weave (t :: _)
          rw [htaken, weave_cons, w.after_of_unmarked hmarked]
          rfl
        · exact .inr ⟨⟨u, List.mem_cons_of_mem _ hu, humarked⟩, hmark⟩
      | true =>
        have hmark := atMark_after hmarked (w.weave ts)
        obtain ⟨m, rest, hcons, hm⟩ := exists_of_atMark hmark
        refine .inr ⟨⟨t, List.mem_cons_self, hmarked⟩, ?_⟩
        rw [hcons, Run.takeWhile, isWord_of_question hm]
        rw [hcons] at hmark
        exact hmark
    · exact .inl ⟨rfl, rfl⟩

theorem takeWhile_of_question {words : List String} {us : List Token} (h : AtMark us) :
    Run.takeWhile (fun t _ => t.isWord words) us = Run.none us := by
  obtain ⟨m, rest, rfl, hm⟩ := exists_of_atMark h
  rw [Run.takeWhile, isWord_of_question hm]
  rfl

theorem stepTracks_words (words : List String) :
    StepTracks w false false fun ts (r : Reading ts) => (Except.ok (r.addRun .modifiers
      (.takeWhile (fun t _ => t.isWord words) r.rest)) : Except Failure (Reading ts)) where
  live r r' hr := by
    have hrest : r'.rest = w.weave r.rest := hr.rest
    have htake := takeWhile_words (w := w) words r.rest
    rw [← hrest] at htake
    rcases htake with hcovers | ⟨⟨t, ht, hmarked⟩, hmark⟩
    · exact .live (hr.addRun rfl hcovers)
    · refine .inr ⟨fun hfits => ?_, .inr ⟨rfl, _, rfl, hmark⟩⟩
      rw [(fits_of_addRun rfl hfits).2 t ht] at hmarked
      cases hmarked
  mark r' hmark := by
    have hmark : AtMark r'.rest := hmark
    refine .inr ⟨rfl, _, rfl, ?_⟩
    show AtMark (Run.takeWhile (fun t _ => t.isWord words) r'.rest).rest
    rw [takeWhile_of_question hmark]
    exact hmark
  grows r q hq hfits := by
    cases hq
    exact (fits_of_addRun rfl hfits).1

/-- Attribute lists and words before a part. -/
theorem preamble_tracks (words : List String) (ts : List Token) (hsound : w.Sound ts) :
    Tracks w false (preamble (fun t _ => t.isWord words) ts)
      (preamble (fun t _ => t.isWord words) (w.weave ts)) := by
  have hstart : Live w (view (Reading.start ts)) (view (Reading.start (w.weave ts))) :=
    ⟨rfl, hsound, fun _ => rfl, rfl, rfl⟩
  exact (stepTracks_words words).after (attributeListsAfter_tracks hstart)

/-- A part that starts with attribute lists and words. -/
theorem ReaderTracks.preamble (words : List String) {R : List Token → Type} [∀ ts, Viewed (R ts)]
    {a : Bool} {step : (ts : List Token) → Reading ts → Except Failure (R ts)}
    (h : StepTracks w a true step) :
    ReaderTracks w a fun ts => preamble (fun t _ => t.isWord words) ts >>= step ts where
  tracks ts hsound := by
    have htracks := h.after (preamble_tracks words ts hsound)
    rwa [Bool.false_or, Bool.and_true] at htracks
  mark us hmark := by
    have hlists : attributeListsAfter (Reading.start us) = .ok (.start us) :=
      attributeListsAfter_of_question hmark
    have hpreamble : Grammar.preamble (fun t _ => t.isWord words) us = .ok ((Reading.start us).addRun
        .modifiers (.takeWhile (fun t _ => t.isWord words) (Reading.start us).rest)) := by
      rw [Grammar.preamble, hlists]
      rfl
    rw [hpreamble]
    refine (h.mark _ ?_).mismatch
    show AtMark (Run.takeWhile (fun t _ => t.isWord words) us).rest
    rw [takeWhile_of_question hmark]
    exact hmark

/-! ## Parameters -/

theorem readerTracks_parameter (closing : TokenKind) (hclosing : closing ≠ .question) :
    ReaderTracks w false (parameter closing) := by
  have hstop : StopsAlike w fun t _ => t.kind == .comma || t.kind == closing :=
    ⟨fun m us hm => by rw [hm]; simpa using Ne.symm hclosing, fun t ts _ => by simp⟩
  have harglist := StepTracks.addBind (readerTracks_word (w := w) ["__arglist"])
    (StepTracks.finish .parameter rfl)
  have htyped := StepTracks.addBind (readerTracks_type (w := w))
    ((StepTracks.next readerTracks_identifier).bind
      ((StepTracks.nextIf (testsAlike_nextIs (w := w) (show TokenKind.equals ≠ .question by simp))
        fun ts hsound _ => equalsValue_tracks hstop ts hsound).bind
        (StepTracks.finish .parameter rfl)))
  exact ReaderTracks.preamble parameterModifiers
    (StepTracks.ite (testsAlike_nextWord ["__arglist"]) harglist htyped)

theorem parameters_eq (closing : TokenKind) {ts : List Token} (r : Begun ts) :
    parameters closing r = parameter closing r.rest >>= fun p =>
      match expect .comma (r.add p).rest with
      | .ok comma => parameters closing ((r.add p).add comma)
      | .error _ => (r.add p).next (expect closing) >>= fun r => .ok (r.finish .parameterList) := by
  rw [parameters]
  cases parameter closing r.rest with
  | error e => rfl
  | ok p =>
    dsimp only [bind, Except.bind]
    cases hcomma : expect .comma (r.add p).rest with
    | ok comma =>
      have hcomma : expect .comma p.rest = .ok comma := hcomma
      rw [hcomma]
    | error e =>
      have hcomma : expect .comma p.rest = .error e := hcomma
      rw [hcomma]
      show _ = (expect closing p.rest).map (r.add p).add >>= _
      dsimp only
      cases expect closing p.rest <;> rfl

/-- The end of a list of parameters. -/
theorem stepTracks_closing (closing : TokenKind) (hclosing : closing ≠ .question) :
    StepTracks w false true fun ts (r : Begun ts) =>
      r.next (expect closing) >>= fun r =>
        (.ok (r.finish .parameterList) : Except Failure (Parsed ts)) :=
  (StepTracks.next (readerTracks_expectThat (by simp) fun m hm => by
    rw [hm]
    exact beq_false_of_ne (Ne.symm hclosing))).bind (StepTracks.finish .parameterList rfl)

theorem parameters_grows {closing : TokenKind} {ts : List Token} {r : Begun ts} {q : Parsed ts}
    (h : parameters closing r = .ok q) (hfits : (view q).Fits w) : (view r).Fits w := by
  fun_induction parameters closing r with
  | case1 => cases h
  | case2 r p hp comma hcomma ih => exact fits_of_add (fits_of_add (ih h))
  | case3 r p hp e he =>
    obtain ⟨last, -, rfl⟩ := ok_of_map h
    exact fits_of_add (fits_of_add (fits_finish rfl hfits))

theorem parameters_tracks (closing : TokenKind) (hclosing : closing ≠ .question)
    {ts us : List Token} {r : Begun ts} {r' : Begun us} (hr : Live w (view r) (view r')) :
    Tracks w false (parameters closing r) (parameters closing r') := by
  induction hn : r.rest.length using Nat.strongRecOn generalizing r r' with
  | ind n ih =>
    subst hn
    rw [parameters_eq closing r, parameters_eq closing r']
    refine .round hr ((readerTracks_parameter closing hclosing).tracks r.rest hr.sound) ?_ ?_ ?_
    · intro p p' hp
      have hp : Live w (view (r.add p)) (view (r'.add p')) := hp
      have hclose := (stepTracks_closing closing hclosing).live (r.add p) (r'.add p') hp
      rcases Live.expect .comma rfl hp with ⟨comma, comma', hc, hc', hlive⟩ | ⟨hc, hc'⟩
      · rw [hc, hc']
        exact ih _ (Nat.lt_trans comma.progress p.progress) hlive rfl
      · rw [hc, hc']
        exact hclose
    · intro p' _ hmark
      have hclose := (stepTracks_closing (w := w) closing hclosing).mark (r'.add p') hmark
      have hmark : AtMark (r'.add p').rest := hmark
      rw [expect_of_next (by simp) hmark]
      exact hclose.weaken (by simp)
    · intro p q hq hfits
      split at hq
      · exact fits_of_add (parameters_grows hq hfits)
      · exact (stepTracks_closing closing hclosing).grows (r.add p) q hq hfits

/-- A list of parameters after its opening bracket. -/
theorem stepTracks_parameters (closing : TokenKind) (hclosing : closing ≠ .question) :
    StepTracks w false true fun ts (r : Begun ts) =>
      match expect closing r.rest with
      | .ok last => pure ((r.add last).finish .parameterList)
      | .error _ => parameters closing r where
  live r r' hr := by
    have hclose := (stepTracks_closing closing hclosing).live r r' hr
    have hexpect := expect_follows (w := w) closing r.rest
    have hrest : r'.rest = w.weave r.rest := hr.rest
    rw [← hrest] at hexpect
    rw [Begun.next, Begun.next] at hclose
    cases hlast : expect closing r.rest with
    | error e =>
      cases expect_error hlast
      rw [hexpect.mismatch hlast]
      exact parameters_tracks closing hclosing hr
    | ok last =>
      obtain ⟨last', hlast', -⟩ := hexpect.ok hlast
      rw [hlast, hlast'] at hclose
      rw [hlast']
      exact hclose
  mark r' hmark := by
    have hmark : AtMark r'.rest := hmark
    rw [expect_of_next hclosing hmark]
    dsimp only
    rw [parameters, (readerTracks_parameter (w := w) closing hclosing).mark r'.rest hmark]
    exact .inl rfl
  grows r q hq hfits := by
    split at hq
    · cases hq
      exact fits_of_add (fits_finish rfl hfits)
    · exact parameters_grows hq hfits

theorem readerTracks_parameterListIn (opening closing : TokenKind)
    (hopening : opening.endsNoType = true) (hclosing : closing ≠ .question) :
    ReaderTracks w false (parameterListIn opening closing) :=
  (readerTracks_expect opening hopening).bind (stepTracks_parameters closing hclosing).ofParsed

theorem readerTracks_parameterList : ReaderTracks w false parameterList :=
  readerTracks_parameterListIn .lparen .rparen rfl (by simp)

/-! ## Accessors -/

theorem readerTracks_accessor : ReaderTracks w true accessor :=
  .preamble accessorModifiers (.addBind (readerTracks_word accessorKeywords)
    ((StepTracks.next readerTracks_body).bind (StepTracks.finish .accessor rfl)))

theorem accessors_eq {ts : List Token} (r : Begun ts) :
    accessors r = match expect .rbrace r.rest with
      | .ok last => .ok ((r.add last).finish .accessorList)
      | .error _ => accessor r.rest >>= fun p => accessors (r.add p) := by
  rw [accessors]
  cases expect .rbrace r.rest with
  | ok last => rfl
  | error e => cases accessor r.rest <;> rfl

theorem accessors_grows {ts : List Token} {r : Begun ts} {q : Parsed ts}
    (h : accessors r = .ok q) (hfits : (view q).Fits w) : (view r).Fits w := by
  fun_induction accessors r with
  | case1 r last hlast =>
    cases h
    exact fits_of_add (fits_finish rfl hfits)
  | case2 => cases h
  | case3 r e he p hp ih => exact fits_of_add (ih h)

theorem stepTracks_accessors : StepTracks w true true fun ts (r : Begun ts) => accessors r where
  live r r' hr := by
    induction hn : r.rest.length using Nat.strongRecOn generalizing r r' with
    | ind n ih =>
      subst hn
      rw [accessors_eq r, accessors_eq r']
      rcases Live.expect .rbrace rfl hr with ⟨last, last', hl, hl', hlive⟩ | ⟨hl, hl'⟩
      · rw [hl, hl']
        exact .live (Live.finish hlive rfl)
      · rw [hl, hl']
        exact .round hr (readerTracks_accessor.tracks r.rest hr.sound)
          (fun p p' hp => ih _ p.progress (r.add p) (r'.add p') hp rfl) (fun _ h => by cases h)
          fun p q hq hfits => accessors_grows hq hfits
  mark r' hmark := by
    have hmark : AtMark r'.rest := hmark
    rw [accessors_eq, expect_of_next (by simp) hmark]
    dsimp only
    rw [(readerTracks_accessor (w := w)).mark r'.rest hmark]
    exact .inl rfl
  grows r q hq hfits := accessors_grows hq hfits

theorem readerTracks_accessorList : ReaderTracks w true accessorList := by
  have hbind := (readerTracks_expect (w := w) .lbrace rfl).bind stepTracks_accessors.ofParsed
  have heq : accessorList = fun ts => expect .lbrace ts >>= fun p => accessors (.ofParsed p) := by
    funext ts
    rw [accessorList]
    cases expect .lbrace ts <;> rfl
  rw [heq]
  exact hbind

/-! ## Fields and bases -/

theorem stopsAlike_field :
    StopsAlike w fun t rest => t.kind == .semicolon || startsDeclarator t rest where
  mark m us hm := by
    rw [startsDeclarator, hm]
    rfl
  token t ts hsound := by
    rw [startsDeclarator, startsDeclarator, kind_relabel]
    cases hcomma : t.kind == .comma with
    | false => rfl
    | true =>
      have hunmarked := hsound.unmarked (endsType_of_kind (by simp [beq_iff_eq.mp hcomma]))
      rw [w.after_of_unmarked hunmarked, List.nil_append, nextIs_weave]
      -- a mark after the name comes where no declarator starts
      have htail : nextIn [.equals, .comma, .semicolon] (w.weave ts).tail
          = nextIn [.equals, .comma, .semicolon] ts.tail := by
        cases ts with
        | nil => rfl
        | cons u us =>
          rw [weave_cons, List.tail_cons, List.tail_cons]
          cases hu : w.marked u with
          | false => rw [w.after_of_unmarked hu, List.nil_append, nextIn_weave]
          | true =>
            obtain ⟨v, vs, rfl, hv⟩ := hsound.tail.next hu
            rw [nextIn_of_atMark (atMark_after hu _) rfl, nextIn, List.head?_cons, Option.any_some, hv]
            rfl
      rw [htail]

theorem readerTracks_variableDeclarator : ReaderTracks w false variableDeclarator := by
  have hequals := (StepTracks.nextIf
    (testsAlike_nextIs (w := w) (show TokenKind.equals ≠ .question by simp))
    fun ts hsound _ => equalsValue_tracks stopsAlike_field ts hsound).bind
      (StepTracks.finish .variableDeclarator rfl)
  have hnothing : StepTracks w true false fun ts (r : Begun ts) =>
      (pure r : Except Failure (Begun ts)) :=
    .pure (fun _ _ h => h) (fun _ => rfl) fun _ h => h
  exact readerTracks_identifier.bind (StepTracks.ite (testsAlike_nextIs (by simp))
    (StepTracks.group.bind hequals) (hnothing.bind hequals)).ofParsed

theorem declarators_eq {ts : List Token} (r : Begun ts) :
    declarators r = variableDeclarator r.rest >>= fun p =>
      match expect .comma (r.add p).rest with
      | .ok comma => declarators ((r.add p).add comma)
      | .error _ => (r.add p).next (expect .semicolon) := by
  rw [declarators]
  cases variableDeclarator r.rest with
  | error e => rfl
  | ok p => rfl

theorem declarators_grows {ts : List Token} {r q : Begun ts} (h : declarators r = .ok q)
    (hfits : (view q).Fits w) : (view r).Fits w := by
  obtain ⟨p, cs, -, hq, -⟩ := adds_declarators h
  intro c hc
  refine hfits c ?_
  show c ∈ q.children
  rw [hq]
  exact List.mem_append_left _ hc

theorem stepTracks_declarators :
    StepTracks w true true fun ts (r : Begun ts) => declarators r where
  live r r' hr := by
    induction hn : r.rest.length using Nat.strongRecOn generalizing r r' with
    | ind n ih =>
      subst hn
      have hend := StepTracks.next (readerTracks_expect (w := w) .semicolon rfl)
      rw [declarators_eq r, declarators_eq r']
      refine .round hr (readerTracks_variableDeclarator.tracks r.rest hr.sound) ?_ ?_ ?_
      · intro p p' hp
        have hp : Live w (view (r.add p)) (view (r'.add p')) := hp
        rcases Live.expect .comma rfl hp with ⟨comma, comma', hc, hc', hlive⟩ | ⟨hc, hc'⟩
        · rw [hc, hc']
          exact ih _ (Nat.lt_trans comma.progress p.progress) _ _ hlive rfl
        · rw [hc, hc']
          exact hend.live (r.add p) (r'.add p') hp
      · intro p' _ hmark
        have hmark : AtMark (r'.add p').rest := hmark
        rw [expect_of_next (by simp) hmark]
        exact hend.mark (r'.add p') hmark
      · intro p q hq hfits
        split at hq
        · exact fits_of_add (declarators_grows hq hfits)
        · exact hend.grows (r.add p) q hq hfits
  mark r' hmark := by
    rw [declarators_eq, readerTracks_variableDeclarator (w := w).mark r'.rest hmark]
    exact .inl rfl
  grows r q hq hfits := declarators_grows hq hfits

/-- Goes on after a base. -/
def baseTypesAfter {ts : List Token} (r : Begun ts) : Except Failure (Parsed ts) :=
  match expect .comma r.rest with
  | .ok comma => baseTypes (r.add comma)
  | .error _ => .ok (r.finish .baseList)

theorem baseTypes_eq {ts : List Token} (r : Begun ts) :
    baseTypes r = type r.rest >>= fun p => if nextIs .lparen (r.add p).rest then
        bracketed .skipped (r.add p).rest >>= fun g => baseTypesAfter ((r.add p).add g)
      else baseTypesAfter (r.add p) := by
  rw [baseTypes]
  cases type r.rest with
  | error e => rfl
  | ok p =>
    show (if nextIs .lparen (r.add p).rest then _ else _)
      = if nextIs .lparen (r.add p).rest then _ else _
    split
    · rw [bracketed]
      cases balanced (r.add p).rest with
      | error e => rfl
      | ok g => rfl
    · rfl

theorem baseTypes_grows {ts : List Token} {r : Begun ts} {q : Parsed ts} (h : baseTypes r = .ok q)
    (hfits : (view q).Fits w) : (view r).Fits w := by
  fun_induction baseTypes r with
  | case1 => cases h
  | case2 => cases h
  | case3 r p hp named hparen g hg built comma hcomma ih =>
    exact fits_of_add (fits_of_add (fits_of_add (ih h)))
  | case4 r p hp named hparen g hg built e he =>
    cases h
    exact fits_of_add (fits_of_add (fits_finish rfl hfits))
  | case5 r p hp named hparen comma hcomma ih => exact fits_of_add (fits_of_add (ih h))
  | case6 r p hp named hparen e he =>
    cases h
    exact fits_of_add (fits_finish rfl hfits)

theorem baseTypesAfter_grows {ts : List Token} {r : Begun ts} {q : Parsed ts}
    (h : baseTypesAfter r = .ok q) (hfits : (view q).Fits w) : (view r).Fits w := by
  unfold baseTypesAfter at h
  split at h
  · exact fits_of_add (baseTypes_grows h hfits)
  · cases h
    exact fits_finish rfl hfits

theorem baseTypes_tracks {ts us : List Token} {r : Begun ts} {r' : Begun us}
    (hr : Live w (view r) (view r')) : Tracks w false (baseTypes r) (baseTypes r') := by
  induction hn : r.rest.length using Nat.strongRecOn generalizing r r' with
  | ind n ih =>
    subst hn
    have hafter : ∀ (s : Begun ts) (s' : Begun us), s.rest.length < r.rest.length →
        Live w (view s) (view s') → Tracks w false (baseTypesAfter s) (baseTypesAfter s') := by
      intro s s' hlt hs
      rw [baseTypesAfter, baseTypesAfter]
      rcases Live.expect .comma rfl hs with ⟨comma, comma', hc, hc', hlive⟩ | ⟨hc, hc'⟩
      · rw [hc, hc']
        exact ih _ (Nat.lt_trans comma.progress hlt) hlive rfl
      · rw [hc, hc']
        exact .live (Live.finish hs rfl)
    rw [baseTypes_eq r, baseTypes_eq r']
    refine .round hr (readerTracks_type.tracks r.rest hr.sound) ?_ (fun _ h => by cases h) ?_
    · intro p p' hp
      have hp : Live w (view (r.add p)) (view (r'.add p')) := hp
      rw [(testsAlike_nextIs (show TokenKind.lparen ≠ .question by simp)).agree_begun hp]
      split
      · refine .round hp (bracketed_tracks rfl hp.sound) ?_ ?_ ?_
        · exact fun g g' hg => hafter _ _ (Nat.lt_trans g.progress p.progress) hg
        · intro g' _ hmark
          have hmark : AtMark ((r'.add p').add g').rest := hmark
          rw [baseTypesAfter, expect_of_next (by simp) hmark]
          exact .inr ⟨rfl, _, rfl, hmark⟩
        · exact fun g q hq hfits => baseTypesAfter_grows hq hfits
      · exact hafter _ _ p.progress hp
    · intro p q hq hfits
      split at hq
      · obtain ⟨g, -, hq⟩ := ok_of_bind hq
        exact fits_of_add (baseTypesAfter_grows hq hfits)
      · exact baseTypesAfter_grows hq hfits

theorem stepTracks_baseTypes : StepTracks w false true fun ts (r : Begun ts) => baseTypes r where
  live _ _ hr := baseTypes_tracks hr
  mark r' hmark := by
    rw [baseTypes_eq, (readerTracks_type (w := w)).mark r'.rest hmark]
    exact .inl rfl
  grows r q hq hfits := baseTypes_grows hq hfits

theorem readerTracks_baseList : ReaderTracks w false baseList := by
  have hbind := (readerTracks_expect (w := w) .colon rfl).bind stepTracks_baseTypes.ofParsed
  have heq : baseList = fun ts => expect .colon ts >>= fun p => baseTypes (.ofParsed p) := by
    funext ts
    rw [baseList]
    cases expect .colon ts <;> rfl
  rw [heq]
  exact hbind

end NullableMarker.Grammar
