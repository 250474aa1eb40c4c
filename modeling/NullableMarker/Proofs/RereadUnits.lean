import NullableMarker.Proofs.RereadDeclarations

/-!
# Reading units again

A unit whose marks come at the ends of its types is read from woven tokens as the same unit with the
marks in it.

* `simpleMember_rereads` — directives and members
* `namespaceMembers_rereads` — what stands in a namespace
* `TokenStream.toUnit_weave` — whole units
-/

namespace NullableMarker.Grammar

open Weaving

variable {w : Weaving}

/-! ## Tests of two tokens -/

theorem tail_weave {t : Token} (h : w.marked t = false) (ts : List Token) :
    (w.weave (t :: ts)).tail = w.weave ts := by
  rw [weave_cons, w.after_of_unmarked h]
  rfl

/-- A test of the token after the next one that neither a mark nor an identifier passes. -/
theorem second_weave {test : List Token → Bool} (htest : TestsAlike w test)
    (hident : ∀ us, nextIs .identifier us = true → test us = false) {ts : List Token}
    (hsound : w.Sound ts) : test (w.weave ts).tail = test ts.tail := by
  cases ts with
  | nil => exact htest.weave [] trivial
  | cons t ts =>
    cases hmarked : w.marked t with
    | false =>
      rw [tail_weave hmarked]
      exact htest.weave ts hsound.tail
    | true => exact (htest.mark _ (atMark_after hmarked _)).trans (hident ts (hsound.1 hmarked).2).symm

/-- A keyword that is no type has no mark. -/
theorem unmarked_of_nextKeyword {word : String} (hword : predefinedTypes.contains word = false)
    {t : Token} {ts : List Token} (hsound : w.Sound (t :: ts))
    (h : nextKeyword [word] (t :: ts) = true) : w.marked t = false := by
  refine hsound.unmarked (endsType_of_isKeyword h ?_)
  rintro _ (_ | ⟨_, ⟨⟩⟩)
  exact hword

theorem not_keyword_of_identifier {us : List Token} (h : nextIs .identifier us = true)
    (words : List String) : nextKeyword words us = false := by
  cases us with
  | nil => rfl
  | cons u us =>
    have hu : u.kind = .identifier := by simpa [nextIs] using h
    show u.isKeyword words = false
    rw [Token.isKeyword, hu]
    rfl

theorem startsExternAlias_weave {ts : List Token} (hsound : w.Sound ts) :
    startsExternAlias (w.weave ts) = startsExternAlias ts := by
  rw [startsExternAlias, startsExternAlias, nextKeyword_weave]
  cases ts with
  | nil => rfl
  | cons t ts =>
    cases h : nextKeyword ["extern"] (t :: ts) with
    | false => rfl
    | true => rw [tail_weave (unmarked_of_nextKeyword rfl hsound h), nextWord_weave, List.tail_cons]

theorem startsUsing_weave {ts : List Token} (hsound : w.Sound ts) :
    startsUsing (w.weave ts) = startsUsing ts := by
  have hglobal : nextKeyword ["using"] (w.weave ts).tail = nextKeyword ["using"] ts.tail :=
    second_weave (testsAlike_nextKeyword _) (fun _ h => not_keyword_of_identifier h _) hsound
  rw [startsUsing, startsUsing, nextKeyword_weave, nextWord_weave, hglobal]
  cases ts with
  | nil => rfl
  | cons t ts =>
    cases h : nextKeyword ["using"] (t :: ts) with
    | false => rfl
    | true => rw [tail_weave (unmarked_of_nextKeyword rfl hsound h), nextIs_weave, List.tail_cons]

theorem startsGlobalAttributes_weave {ts : List Token} (hsound : w.Sound ts) :
    startsGlobalAttributes (w.weave ts) = startsGlobalAttributes ts := by
  rw [startsGlobalAttributes, startsGlobalAttributes, nextIs_weave]
  cases ts with
  | nil => rfl
  | cons t ts =>
    cases h : nextIs .lbracket (t :: ts) with
    | false => rfl
    | true =>
      have ht : t.kind = .lbracket := by simpa [nextIs] using h
      have hunmarked := hsound.unmarked (endsType_of_kind (by rw [ht]; rfl))
      have hcolon : nextIs .colon (w.weave ts).tail = nextIs .colon ts.tail :=
        second_weave (testsAlike_nextIs (by decide)) (fun _ h => not_of_next (by decide) h) hsound.tail
      rw [tail_weave hunmarked, nextWord_weave, hcolon, List.tail_cons]

/-! ## Directives -/

theorem externAlias_tracks {ts : List Token} (hsound : w.Sound ts) :
    Tracks w true (externAlias ts) (externAlias (w.weave ts)) := by
  cases ts with
  | nil => exact tracks_mismatch
  | cons t ts =>
    have hends : ∀ t : Token, t.kind = .semicolon → t.endsType = false :=
      fun t ht => endsType_of_kind (by rw [ht]; rfl)
    have hthrough := through_follows (by decide) hends t hsound.tail
    exact (hthrough.tracks fun _ _ _ h => .inl (h.live hsound)).ofGroup rfl

theorem usingName_of_not {ts : List Token}
    (h : ∀ t u rest, ts = t :: u :: rest → (t.kind == .identifier && u.kind == .equals) = false) :
    usingName ts = .start ts := by
  unfold usingName
  split
  · next t u rest => rw [if_neg (by rw [h t u rest rfl]; exact Bool.false_ne_true)]
  · rfl

theorem usingName_of_kinds {t u : Token} (ht : t.kind = .identifier) (hu : u.kind = .equals)
    (rest : List Token) : usingName (t :: u :: rest)
      = (Begun.add (.token t (u :: rest)) (.token u rest)).toReading := by
  rw [usingName, ht, hu]
  rfl

theorem live_start {ts : List Token} (hsound : w.Sound ts) :
    Live w (view (Reading.start ts)) (view (Reading.start (w.weave ts))) :=
  ⟨rfl, hsound, fun _ => rfl, rfl, rfl⟩

/-- A name for the target of a directive is taken by both readers or by none. -/
theorem live_usingName {ts : List Token} (hsound : w.Sound ts) :
    Live w (view (usingName ts)) (view (usingName (w.weave ts))) := by
  by_cases hname : ∃ t u rest, ts = t :: u :: rest ∧ t.kind = .identifier ∧ u.kind = .equals
  · obtain ⟨t, u, rest, rfl, ht, hu⟩ := hname
    -- an identifier comes after a token with a mark, but here it is an equals sign
    have htmark : w.marked t = false := by
      rw [← Bool.not_eq_true]
      intro hmarked
      obtain ⟨v, vs, hcons, hv⟩ := hsound.next hmarked
      cases hcons
      rw [hu] at hv
      cases hv
    have humark := hsound.tail.unmarked (endsType_of_kind (by rw [hu]; rfl))
    have hweave : w.weave (t :: u :: rest) = w.relabel t :: w.relabel u :: w.weave rest := by
      rw [weave_cons, weave_cons, w.after_of_unmarked htmark, w.after_of_unmarked humark]
      rfl
    rw [hweave, usingName_of_kinds ht hu, usingName_of_kinds (by simpa using ht) (by simpa using hu)]
    refine ⟨rfl, hsound.tail.tail, fun _ => ?_, rfl, rfl⟩
    simp [view, Begun.add, Begun.token, Reading.add, Parsed.token]
  · have hleft : usingName ts = .start ts := by
      refine usingName_of_not fun t u rest heq => ?_
      rw [← Bool.not_eq_true, Bool.and_eq_true, beq_iff_eq, beq_iff_eq]
      exact fun hkinds => hname ⟨t, u, rest, heq, hkinds⟩
    have hright : usingName (w.weave ts) = .start (w.weave ts) := by
      refine usingName_of_not fun t' u' rest' heq => ?_
      rw [← Bool.not_eq_true, Bool.and_eq_true, beq_iff_eq, beq_iff_eq]
      rintro ⟨ht', hu'⟩
      cases ts with
      | nil => cases heq
      | cons t ts =>
        rw [weave_cons] at heq
        obtain ⟨rfl, hmore⟩ := List.cons.inj heq
        cases hmarked : w.marked t with
        | true =>
          rw [w.after_of_marked hmarked] at hmore
          obtain ⟨rfl, -⟩ := List.cons.inj hmore
          rw [kind_mark] at hu'
          cases hu'
        | false =>
          rw [w.after_of_unmarked hmarked, List.nil_append] at hmore
          cases ts with
          | nil => cases hmore
          | cons u rest =>
            rw [weave_cons] at hmore
            obtain ⟨rfl, -⟩ := List.cons.inj hmore
            exact hname ⟨t, u, rest, rfl, by simpa using ht', by simpa using hu'⟩
    rw [hleft, hright]
    exact live_start hsound

/-- What was read of the rest, together with what was read before. -/
theorem Live.extend {ts us : List Token} {r : Begun ts} {r' : Begun us}
    (h : Live w (view r) (view r')) {s : Reading r.rest} {s' : Reading r'.rest}
    (hs : Live w (view s) (view s')) : Live w (view (r.extend s)) (view (r'.extend s')) where
  rest := hs.rest
  sound := hs.sound
  children hfits := by
    have hr : r'.children = r.children.map w.tree :=
      h.children fun c hc => hfits c (List.mem_append_left _ hc)
    have hmore : s'.children = s.children.map w.tree :=
      hs.children fun c hc => hfits c (List.mem_append_right _ hc)
    show r'.children ++ s'.children = (r.children ++ s.children).map w.tree
    rw [hr, hmore, List.map_append]
  kind := rfl
  name := rfl

theorem Live.usingName {ts us : List Token} {r : Begun ts} {r' : Begun us}
    (h : Live w (view r) (view r')) :
    Live w (view (r.extend (Grammar.usingName r.rest)))
      (view (r'.extend (Grammar.usingName r'.rest))) := by
  refine h.extend ?_
  have hrest : r'.rest = w.weave r.rest := h.rest
  rw [hrest]
  exact live_usingName h.sound

theorem atMark_usingName {us : List Token} {r' : Begun us} (h : AtMark (view r').rest) :
    AtMark (view (r'.extend (usingName r'.rest))).rest := by
  have hnone : usingName r'.rest = .start r'.rest := by
    refine usingName_of_not fun t u rest heq => ?_
    obtain ⟨m, ms, hm, hkind⟩ := exists_of_atMark h
    have hcons : m :: ms = t :: u :: rest := hm.symm.trans heq
    obtain ⟨rfl, -⟩ := List.cons.inj hcons
    rw [hkind]
    rfl
  show AtMark (usingName r'.rest).rest
  rw [hnone]
  exact h

/-- Reads what follows the keyword of a using directive. -/
def usingAfter {ts : List Token} (r : Begun ts) : Except Failure (Parsed ts) := do
  let r := r.optional (·.isKeyword ["static"])
  let r := r.extend (usingName r.rest)
  let r ← r.next type
  let r ← r.next (expect .semicolon)
  return r.finish .usingDirective

theorem stepTracks_usingAfter : StepTracks w true true fun ts (r : Begun ts) => usingAfter r := by
  have hend : StepTracks w true true fun ts (r : Begun ts) => r.next type >>= fun r =>
      r.next (expect .semicolon) >>= fun r =>
        (Pure.pure (r.finish .usingDirective) : Except Failure (Parsed ts)) :=
    (StepTracks.next readerTracks_type).bind
      ((StepTracks.next (readerTracks_expect .semicolon rfl)).bind
        (StepTracks.finish .usingDirective rfl))
  have hnamed : StepTracks w true true fun ts (r : Begun ts) =>
      (r.extend (usingName r.rest)).next type >>= fun r =>
        r.next (expect .semicolon) >>= fun r =>
          (Pure.pure (r.finish .usingDirective) : Except Failure (Parsed ts)) :=
    { live := fun _ _ hr => hend.live _ _ hr.usingName
      mark := fun _ hr => hend.mark _ (atMark_usingName hr)
      grows := fun _ _ hq hfits => fits_of_extend (hend.grows _ _ hq hfits) }
  refine StepTracks.optional (f := (·.isKeyword ["static"])) (by simp)
    (fun m hm => isKeyword_of_question hm _) ?_ hnamed
  exact fun t ht => endsType_of_isKeyword ht (by decide)

/-- The keyword of a using directive comes after `global`, if that is there. -/
theorem nextKeyword_of_startsUsing {ts : List Token} (h : startsUsing ts = true) :
    nextKeyword ["using"] (Run.optional (·.isWord ["global"]) ts).rest = true := by
  rw [startsUsing, Bool.or_eq_true, Bool.and_eq_true, Bool.and_eq_true] at h
  cases ts with
  | nil => rcases h with ⟨h, -⟩ | ⟨h, -⟩ <;> cases h
  | cons t ts =>
    cases hword : t.isWord ["global"] with
    | true =>
      have hvalue : t.value = "global" := by
        simp [Token.isWord] at hword
        exact hword.2
      rw [Run.optional, if_pos hword]
      rcases h with ⟨husing, -⟩ | ⟨-, husing⟩
      · simp [nextKeyword, Token.isKeyword, hvalue] at husing
      · exact husing
    | false =>
      rw [Run.optional, if_neg (by rw [hword]; exact Bool.false_ne_true)]
      rcases h with ⟨husing, -⟩ | ⟨hglobal, -⟩
      · exact husing
      · cases hword.symm.trans hglobal

theorem usingDirective_tracks {ts : List Token} (hsound : w.Sound ts) (h : startsUsing ts = true) :
    Tracks w true (usingDirective ts) (usingDirective (w.weave ts)) := by
  have hkeyword := nextKeyword_of_startsUsing h
  rcases optional_cases (w := w) (f := (·.isWord ["global"])) (by simp) hsound with
    ⟨hcovers, hunmarked⟩ | ⟨hident, -⟩
  · have hr : Live w (view (Reading.ofRun (Run.optional (·.isWord ["global"]) ts)))
        (view (Reading.ofRun (Run.optional (·.isWord ["global"]) (w.weave ts)))) := by
      refine ⟨hcovers.2, sound_rest hsound _, fun _ => ?_, rfl, rfl⟩
      refine (congrArg (List.map Tree.token) ?_).trans (map_tree_tokens _).symm
      rw [hcovers.1, w.weave_of_unmarked hunmarked]
    exact Tracks.round hr (expectThat_tracks (fun _ => rfl) _ hr.sound)
      (fun _ _ hlive => stepTracks_usingAfter.live _ _ hlive)
      (fun _ _ hmark => (stepTracks_usingAfter (w := w)).mark _ hmark)
      (fun _ _ hq hfits => stepTracks_usingAfter.grows _ _ hq hfits)
  · rw [not_keyword_of_identifier hident] at hkeyword
    cases hkeyword

/-! ## Members of namespaces -/

/-- What is read is read again, where it is tracked. -/
theorem Tracks.rereads_of_ok {α β : Type} [Viewed α] [Viewed β] {strict : Bool}
    {o : Except Failure α} {o' : Except Failure β} (h : Tracks w strict o o') {a : α}
    (ho : o = .ok a) : Rereads w o o' := by
  subst ho
  intro hfits
  rcases h with h | ⟨hnot, -⟩
  · exact h
  · exact absurd hfits hnot

theorem orSkipped_rereads {ts : List Token} {attempt : Except Failure (Parsed ts)}
    {attempt' : Except Failure (Parsed (w.weave ts))} (hsound : w.Sound ts)
    (h : Tracks w true attempt attempt') : Rereads w (orSkipped attempt) (orSkipped attempt') := by
  have hread := h.rereads
  unfold orSkipped
  cases attempt with
  | error e =>
    cases e with
    | mismatch =>
      rw [show attempt' = .error .mismatch from hread]
      exact (skipped_tracks ts hsound).rereads
    | fatal fault token => trivial
  | ok p =>
    intro hfits
    obtain ⟨p', hp', hlive⟩ := hread hfits
    rw [hp']
    exact ⟨p', rfl, hlive⟩

theorem takeUntil_error {stop : Token → List Token → Bool} {ts : List Token} {e : Failure}
    (h : takeUntil stop ts = .error e) : e ≠ .mismatch := by
  induction hn : ts.length using Nat.strongRecOn generalizing ts with
  | ind n ih =>
    subst hn
    rw [takeUntil.eq_def] at h
    cases ts with
    | nil => cases h; simp
    | cons t ts =>
      dsimp only at h
      split at h
      · cases h
      split at h
      · next hcloser =>
        split at h
        · next e' he =>
          cases h
          exact balanced_error hcloser he
        · next g _ => exact ih _ g.progress (error_of_map h) rfl
      split at h
      · cases h
        simp
      · exact ih ts.length (by simp) (error_of_map h) rfl

theorem externAlias_error {t : Token} {ts : List Token} {e : Failure}
    (h : externAlias (t :: ts) = .error e) : e ≠ .mismatch := by
  have h : through .semicolon t ts = .error e := error_of_map h
  cases htake : takeUntil (fun t _ => t.kind == .semicolon) ts with
  | error e' =>
    rw [through_error htake] at h
    cases h
    exact takeUntil_error htake
  | ok r =>
    obtain ⟨u, rest, hrest, -⟩ := takeUntil_stops htake
    obtain ⟨g, hg, -⟩ := through_ok t htake hrest
    rw [hg] at h
    cases h

theorem simpleMember_error {ts : List Token} {e : Failure} (h : simpleMember ts = .error e) :
    e ≠ .mismatch := by
  unfold simpleMember at h
  split at h
  · cases ts with
    | nil => rename_i hstarts; cases hstarts
    | cons t ts => exact externAlias_error h
  split at h
  · exact orSkipped_error h
  split at h
  · next hstarts =>
    rw [startsGlobalAttributes, Bool.and_eq_true, Bool.and_eq_true] at hstarts
    cases ts with
    | nil => cases hstarts.1.1
    | cons t ts =>
      have ht : t.kind = .lbracket := by simpa [nextIs] using hstarts.1.1
      exact balanced_error (by rw [ht]; rfl) (error_of_map h)
  · exact member_error h

/-- Directives, attribute lists and members are read again. -/
theorem simpleMember_rereads {ts : List Token} (hsound : w.Sound ts) :
    Rereads w (simpleMember ts) (simpleMember (w.weave ts)) := by
  cases hmember : simpleMember ts with
  | error e => exact rereads_fatal rfl (simpleMember_error hmember)
  | ok p =>
    rw [← hmember]
    unfold simpleMember
    rw [startsExternAlias_weave hsound, startsUsing_weave hsound, startsGlobalAttributes_weave hsound]
    split
    · exact (externAlias_tracks hsound).rereads
    split
    · next hstarts => exact orSkipped_rereads hsound (usingDirective_tracks hsound hstarts)
    split
    · next hextern husing hglobal =>
      have hp : bracketed .attributeList ts = .ok p := by
        rw [← hmember, simpleMember, if_neg hextern, if_neg husing, if_pos hglobal]
        rfl
      exact (bracketed_tracks rfl hsound).rereads_of_ok hp
    · exact member_rereads none ts hsound

/-! ## Namespaces -/

theorem expect_of_nextIs {kind : TokenKind} {ts : List Token} (h : nextIs kind ts = true) :
    ∃ p, expect kind ts = .ok p := by
  cases ts with
  | nil => cases h
  | cons t ts => exact ⟨.token t ts, if_pos h⟩

/-- What is read of a namespace comes after what was read, and ends with the file or before a
closing brace. -/
theorem namespaceMembers_ends {top : Bool} {ts : List Token} {r s : Reading ts}
    (h : namespaceMembers top r = .ok s) :
    (∃ cs, s.children = r.children ++ cs)
      ∧ if top then s.rest = [] else nextIs .rbrace s.rest = true := by
  induction hn : r.rest.length using Nat.strongRecOn generalizing r with
  | ind n ih =>
    subst hn
    have hmore : ∀ p : Parsed r.rest, namespaceMembers top (r.add p).toReading = .ok s →
        (∃ cs, s.children = r.children ++ cs)
          ∧ if top then s.rest = [] else nextIs .rbrace s.rest = true := by
      intro p hp
      obtain ⟨⟨cs, hcs⟩, hend⟩ := ih _ p.progress hp rfl
      refine ⟨⟨p.tree :: cs, ?_⟩, hend⟩
      rw [hcs]
      exact List.append_assoc r.children [p.tree] cs
    rw [namespaceMembers] at h
    split at h
    · next hempty =>
      cases top with
      | false => cases h
      | true =>
        cases h
        exact ⟨⟨[], (List.append_nil _).symm⟩, List.isEmpty_iff.mp hempty⟩
    split at h
    · next hbrace =>
      cases top with
      | true => cases h
      | false =>
        cases h
        exact ⟨⟨[], (List.append_nil _).symm⟩, hbrace⟩
    split at h
    · cases h
    · next p _ => exact hmore p h

theorem namespaceMembers_grows {top : Bool} {ts : List Token} {r s : Reading ts}
    (h : namespaceMembers top r = .ok s) (hfits : (view s).Fits w) : (view r).Fits w := by
  obtain ⟨⟨cs, hcs⟩, -⟩ := namespaceMembers_ends h
  intro c hc
  refine hfits c ?_
  show c ∈ s.children
  rw [hcs]
  exact List.mem_append_left _ hc

/-- What is added to a namespace fits if all that is read of it in the end does. -/
theorem fits_of_namespaceMembers {top : Bool} {ts : List Token} {r s : Reading ts}
    {p : Parsed r.rest} (h : namespaceMembers top (r.add p).toReading = .ok s)
    (hfits : (view s).Fits w) : (view p).Fits w := by
  have hadd := namespaceMembers_grows h hfits
  exact fun c hc => hadd c (List.mem_append_right _ hc)

theorem namespaceHead_error {ts : List Token} (hne : ts ≠ []) {e : Failure}
    (h : namespaceHead ts = .error e) : e ≠ .mismatch := by
  cases ts with
  | nil => exact absurd rfl hne
  | cons t ts =>
    rw [namespaceHead.eq_2] at h
    cases hname : name ts with
    | ok p => rw [hname] at h; cases h
    | error e' =>
      rw [hname] at h
      cases e' <;> cases h <;> simp

theorem ne_nil_of_nextKeyword {words : List String} {ts : List Token}
    (h : nextKeyword words ts = true) : ts ≠ [] := by
  rintro rfl
  cases h

mutual

theorem namespaceMembers_error {top : Bool} {ts : List Token} {r : Reading ts} {e : Failure}
    (h : namespaceMembers top r = .error e) : e ≠ .mismatch := by
  rw [namespaceMembers] at h
  split at h
  · split at h <;> cases h
    simp
  split at h
  · split at h <;> cases h
    simp
  split at h
  · next he =>
    cases h
    exact namespaceMember_error he
  · next p _ =>
    have hlt := p.progress
    exact namespaceMembers_error h
termination_by (r.rest.length, 2)
decreasing_by
  · exact Prod.Lex.right _ (by decide)
  · exact Prod.Lex.left _ _ hlt

theorem namespaceMember_error {ts : List Token} {e : Failure} (h : namespaceMember ts = .error e) :
    e ≠ .mismatch := by
  rw [namespaceMember] at h
  split at h
  · next hkeyword => exact namespaceDeclaration_error (ne_nil_of_nextKeyword hkeyword) h
  · exact simpleMember_error h
termination_by (ts.length, 1)
decreasing_by exact Prod.Lex.right _ (by decide)

theorem namespaceDeclaration_error {ts : List Token} (hne : ts ≠ []) {e : Failure}
    (h : namespaceDeclaration ts = .error e) : e ≠ .mismatch := by
  rw [namespaceDeclaration] at h
  cases hhead : namespaceHead ts with
  | error e' =>
    rw [hhead] at h
    cases h
    exact namespaceHead_error hne hhead
  | ok head =>
    have hlt := head.progress
    rw [hhead] at h
    dsimp only at h
    split at h
    · next mark _ =>
      have hlt' := mark.progress
      split at h
      · next he =>
        cases h
        exact namespaceMembers_error he
      · cases h
    split at h
    · cases h
      simp
    · next opening _ =>
      have hlt' := opening.progress
      split at h
      · next he =>
        cases h
        exact namespaceMembers_error he
      · next inner hinner =>
        obtain ⟨closing, hclosing⟩ := expect_of_nextIs (namespaceMembers_ends hinner).2
        rw [hclosing] at h
        cases h
termination_by (ts.length, 0)
decreasing_by
  · exact Prod.Lex.left _ _ (Nat.lt_trans hlt' hlt)
  · exact Prod.Lex.left _ _ (Nat.lt_trans hlt' hlt)

end

/-- The head of a namespace is read again; where a mark comes after its name, it has no body. -/
theorem namespaceHead_rereads {ts : List Token} (hsound : w.Sound ts)
    (hkeyword : nextKeyword ["namespace"] ts = true) {head : Begun ts}
    (h : namespaceHead ts = .ok head) :
    nextIs .identifier head.rest = true
      ∨ ∃ head', namespaceHead (w.weave ts) = .ok head' ∧ Live w (view head) (view head') := by
  cases ts with
  | nil => cases hkeyword
  | cons t ts =>
    have hunmarked := unmarked_of_nextKeyword rfl hsound hkeyword
    rw [namespaceHead.eq_2] at h
    cases hname : name ts with
    | error e =>
      rw [hname] at h
      cases e <;> cases h
    | ok p =>
      rw [hname] at h
      cases h
      obtain ⟨p', hp', hcore⟩ := (name_follows hsound.tail).ok hname
      rcases hcore.cases hsound.tail with hlive | ⟨hident, -⟩
      · have hweave : w.weave (t :: ts) = w.relabel t :: w.weave ts := by
          rw [weave_cons, w.after_of_unmarked hunmarked]
          rfl
        rw [hweave]
        refine .inr ⟨(Begun.token (w.relabel t) (w.weave ts)).add p', ?_, ?_⟩
        · rw [namespaceHead.eq_2, hp']
        · have htoken : Live w (view (Begun.token t ts).toReading)
              (view (Begun.token (w.relabel t) (w.weave ts)).toReading) :=
            ⟨rfl, hsound.tail, fun _ => congrArg (fun c => [c]) (tree_token t).symm, rfl, rfl⟩
          exact Live.add htoken hlive
      · exact .inl hident

theorem namespaceMembers_eq (top : Bool) {ts : List Token} (r : Reading ts) :
    namespaceMembers top r =
      if r.rest.isEmpty then
        if top then .ok r else .error (.fatal .endInNamespace none)
      else if nextIs .rbrace r.rest then
        if top then .error (.fatal .closingBraceAtTop r.rest.head?) else .ok r
      else namespaceMember r.rest >>= fun p => namespaceMembers top (r.add p).toReading := by
  rw [namespaceMembers]
  cases namespaceMember r.rest <;> rfl

theorem Live.isEmpty {ts us : List Token} {r : Reading ts} {r' : Reading us}
    (hr : Live w (view r) (view r')) : r'.rest.isEmpty = r.rest.isEmpty := by
  have hrest : r'.rest = w.weave r.rest := hr.rest
  rw [hrest, isEmpty_weave]

theorem live_rest {ts us : List Token} {r : Begun ts} {r' : Begun us}
    (hr : Live w (view r) (view r')) :
    Live w (view (Reading.start r.rest)) (view (Reading.start r'.rest)) :=
  ⟨hr.rest, hr.sound, fun _ => rfl, rfl, rfl⟩

theorem fits_of_extend_right {ts : List Token} {r : Begun ts} {s : Reading r.rest}
    (h : (view (r.extend s)).Fits w) : (view s).Fits w :=
  fun c hc => h c (List.mem_append_right _ hc)

/-- Closes a namespace in braces. -/
def namespaceEnd (ts : List Token) (r : Begun ts) : Except Failure (Parsed ts) :=
  r.next (expect .rbrace) >>= fun r =>
    pure ((r.optional (·.kind == .semicolon)).finish .namespaceBlock)

/-- Reads what follows the head of a namespace. -/
def namespaceAfter {ts : List Token} (head : Begun ts) : Except Failure (Parsed ts) :=
  match expect .semicolon head.rest with
  | .ok mark =>
    namespaceMembers true (.start (head.add mark).rest) >>= fun inner =>
      .ok (((head.add mark).extend inner).finish .fileScopedNamespace)
  | .error _ =>
    match expect .lbrace head.rest with
    | .error _ => .error (.fatal .missingNamespaceBody head.rest.head?)
    | .ok opening =>
      namespaceMembers false (.start (head.add opening).rest) >>= fun inner =>
        namespaceEnd ts ((head.add opening).extend inner)

theorem namespaceDeclaration_eq (ts : List Token) :
    namespaceDeclaration ts = namespaceHead ts >>= namespaceAfter := by
  rw [namespaceDeclaration]
  cases namespaceHead ts with
  | error e => rfl
  | ok head =>
    show _ = namespaceAfter head
    rw [namespaceAfter]
    dsimp only
    cases expect .semicolon head.rest with
    | ok mark =>
      dsimp only
      cases namespaceMembers true (.start (head.add mark).rest) <;> rfl
    | error e =>
      dsimp only
      cases expect .lbrace head.rest with
      | error e => rfl
      | ok opening =>
        dsimp only
        cases namespaceMembers false (.start (head.add opening).rest) with
        | error e => rfl
        | ok inner =>
          show _ = namespaceEnd ts ((head.add opening).extend inner)
          rw [namespaceEnd, Begun.next]
          show _ = (expect .rbrace inner.rest).map _ >>= _
          dsimp only
          cases expect .rbrace inner.rest <;> rfl

theorem stepTracks_namespaceEnd : StepTracks w true true namespaceEnd := by
  refine (StepTracks.next (readerTracks_expect .rbrace rfl)).bind
    (.optional (by simp) ?_ ?_ (.finish .namespaceBlock rfl))
  · intro m hm
    rw [hm]
    rfl
  · intro t ht
    exact endsType_of_kind (by rw [beq_iff_eq.mp ht]; rfl)

/-- Before a closing brace the end of a namespace is read. -/
theorem namespaceEnd_error {ts : List Token} {r : Begun ts} {e : Failure}
    (hbrace : nextIs .rbrace r.rest = true) (h : namespaceEnd ts r = .error e) : e ≠ .mismatch := by
  obtain ⟨closing, hclosing⟩ := expect_of_nextIs hbrace
  rw [namespaceEnd, Begun.next, hclosing] at h
  cases h

mutual

/-- What stands in a namespace is read again. -/
theorem namespaceMembers_rereads (top : Bool) {ts us : List Token} {r : Reading ts}
    {r' : Reading us} (hr : Live w (view r) (view r')) :
    Rereads w (namespaceMembers top r) (namespaceMembers top r') := by
  have hrest : r'.rest = w.weave r.rest := hr.rest
  rw [namespaceMembers_eq top r, namespaceMembers_eq top r', hr.isEmpty,
    (testsAlike_nextIs (by decide)).agree hr]
  split
  · cases top with
    | false => trivial
    | true => exact fun _ => ⟨r', rfl, hr⟩
  split
  · cases top with
    | false => exact fun _ => ⟨r', rfl, hr⟩
    | true => trivial
  have hpart := namespaceMember_rereads r.rest hr.sound
  rw [← hrest] at hpart
  refine hpart.bind (fun p e _ h => namespaceMembers_error h)
    (fun p s h hfits => fits_of_namespaceMembers h hfits) ?_
  intro p p' hlive
  have hlt := p.progress
  exact namespaceMembers_rereads top (hr.add hlive)
termination_by (r.rest.length, 2)
decreasing_by
  · exact Prod.Lex.right _ (by decide)
  · exact Prod.Lex.left _ _ hlt

/-- A namespace member is read again. -/
theorem namespaceMember_rereads (ts : List Token) (hsound : w.Sound ts) :
    Rereads w (namespaceMember ts) (namespaceMember (w.weave ts)) := by
  rw [namespaceMember, namespaceMember, nextKeyword_weave]
  split
  · next hkeyword => exact namespaceDeclaration_rereads ts hsound hkeyword
  · exact simpleMember_rereads hsound
termination_by (ts.length, 1)
decreasing_by exact Prod.Lex.right _ (by decide)

/-- A namespace is read again. -/
theorem namespaceDeclaration_rereads (ts : List Token) (hsound : w.Sound ts)
    (hkeyword : nextKeyword ["namespace"] ts = true) :
    Rereads w (namespaceDeclaration ts) (namespaceDeclaration (w.weave ts)) := by
  cases hp : namespaceDeclaration ts with
  | error e => exact rereads_fatal rfl (namespaceDeclaration_error (ne_nil_of_nextKeyword hkeyword) hp)
  | ok p =>
    rw [namespaceDeclaration_eq] at hp ⊢
    obtain ⟨head, hhead, hp⟩ := ok_of_bind hp
    rcases namespaceHead_rereads hsound hkeyword hhead with hident | ⟨head', hhead', hlive⟩
    · -- an identifier is no body of a namespace
      rw [namespaceAfter, expect_of_next (by decide) hident, expect_of_next (by decide) hident] at hp
      cases hp
    · have hlt := head.progress
      have hafter := namespaceAfter_rereads hlive
      rw [hp] at hafter
      rw [hhead']
      exact hafter
termination_by (ts.length, 0)
decreasing_by exact Prod.Lex.left _ _ hlt

/-- What follows the head of a namespace is read again. -/
theorem namespaceAfter_rereads {ts us : List Token} {head : Begun ts} {head' : Begun us}
    (hlive : Live w (view head) (view head')) :
    Rereads w (namespaceAfter head) (namespaceAfter head') := by
  rw [namespaceAfter, namespaceAfter]
  rcases Live.expect .semicolon rfl hlive with ⟨mark, mark', hm, hm', hadd⟩ | ⟨hm, hm'⟩
  · rw [hm, hm']
    have hlt := mark.progress
    refine (namespaceMembers_rereads true (live_rest hadd)).bind (fun _ _ _ h => by cases h) ?_ ?_
    · rintro inner _ ⟨⟩ hfits
      exact fits_of_extend_right (fits_finish rfl hfits)
    · intro inner inner' hinner _
      exact ⟨_, rfl, (hadd.extend hinner).finish rfl⟩
  rw [hm, hm']
  dsimp only
  rcases Live.expect .lbrace rfl hlive with ⟨opening, opening', ho, ho', hadd⟩ | ⟨ho, ho'⟩
  · rw [ho, ho']
    have hlt := opening.progress
    refine (namespaceMembers_rereads false (live_rest hadd)).bind ?_ ?_ ?_
    · intro inner e hinner he
      have hbrace : nextIs .rbrace inner.rest = true := (namespaceMembers_ends hinner).2
      exact namespaceEnd_error (r := (head.add opening).extend inner) hbrace he
    · intro inner p hp hfits
      exact fits_of_extend_right (stepTracks_namespaceEnd.grows _ p hp hfits)
    · intro inner inner' hinner
      exact (stepTracks_namespaceEnd.live _ _ (hadd.extend hinner)).rereads
  · rw [ho, ho']
    trivial
termination_by (head.rest.length, 2)
decreasing_by
  · exact Prod.Lex.left _ _ hlt
  · exact Prod.Lex.left _ _ hlt

end

end NullableMarker.Grammar

namespace NullableMarker

open Grammar

/-- A unit that the marks fit is read again from woven tokens. -/
theorem TokenStream.toUnit_weave {w : Weaving} {stream stream' : TokenStream} {root : Tree}
    (hsound : w.Sound stream.tokens) (htokens : stream'.tokens = w.weave stream.tokens)
    (heof : stream'.eof = w.relabel stream.eof) (hroot : stream.toUnit = .ok root)
    (hfits : w.Fits root) : stream'.toUnit = .ok (w.tree root) := by
  unfold toUnit at hroot ⊢
  cases hr : namespaceMembers true (.start stream.tokens) with
  | error e => rw [hr] at hroot; cases hroot
  | ok r =>
    rw [hr] at hroot
    cases hroot
    rw [Weaving.fits_node rfl] at hfits
    have hread := namespaceMembers_rereads true (live_start hsound)
    rw [hr, ← htokens] at hread
    obtain ⟨r', hr', hlive⟩ := hread fun c hc => hfits c (List.mem_append_left _ hc)
    have hchildren : r'.children = r.children.map w.tree :=
      hlive.children fun c hc => hfits c (List.mem_append_left _ hc)
    rw [hr', Weaving.tree_node rfl, List.map_append, ← hchildren, heof]
    rfl

end NullableMarker
