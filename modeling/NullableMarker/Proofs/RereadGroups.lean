import NullableMarker.Proofs.Weaving

/-!
# Reading groups of tokens again

Bracketed groups, tokens up to a stop and statements are taken from woven tokens as they are taken
from the tokens themselves; a mark is one more token of them.

* `Follows` — the second outcome is that of the first
* `balanced_follows`, `takeUntil_follows`, `statement_follows` — groups of tokens
-/

namespace NullableMarker.Grammar

open Weaving

variable {w : Weaving}

/-! ## Outcomes -/

section Outcomes

variable {α β γ δ : Type} {live : α → β → Prop} {live₂ : γ → δ → Prop}

/-- The second outcome is that of the first, where the first is a result or a mismatch. -/
def Follows (live : α → β → Prop) (o : Except Failure α) (o' : Except Failure β) : Prop :=
  match o with
  | .error (.fatal _ _) => True
  | .error .mismatch => o' = .error .mismatch
  | .ok a => ∃ b, o' = .ok b ∧ live a b

theorem Follows.map {o : Except Failure α} {o' : Except Failure β} (h : Follows live o o')
    {f : α → γ} {g : β → δ} (hfg : ∀ a b, live a b → live₂ (f a) (g b)) :
    Follows live₂ (o.map f) (o'.map g) := by
  cases o with
  | error e =>
    cases e with
    | fatal cause token => trivial
    | mismatch =>
      have h : o' = .error .mismatch := h
      rw [h]
      rfl
  | ok a =>
    obtain ⟨b, rfl, hab⟩ := h
    exact ⟨g b, rfl, hfg a b hab⟩

theorem Follows.mapRight {o : Except Failure α} {o' : Except Failure β} (h : Follows live o o')
    {live₃ : α → δ → Prop} {g : β → δ} (hg : ∀ a b, live a b → live₃ a (g b)) :
    Follows live₃ o (o'.map g) := by
  cases o with
  | error e =>
    cases e with
    | fatal cause token => trivial
    | mismatch =>
      have h : o' = .error .mismatch := h
      rw [h]
      rfl
  | ok a =>
    obtain ⟨b, rfl, hab⟩ := h
    exact ⟨g b, rfl, hg a b hab⟩

theorem Follows.ok {o : Except Failure α} {o' : Except Failure β} (h : Follows live o o') {a : α}
    (ho : o = .ok a) : ∃ b, o' = .ok b ∧ live a b := by
  subst ho
  exact h

theorem Follows.mismatch {o : Except Failure α} {o' : Except Failure β} (h : Follows live o o')
    (ho : o = .error .mismatch) : o' = .error .mismatch := by
  subst ho
  exact h

theorem Follows.bind {o : Except Failure α} {o' : Except Failure β} (h : Follows live o o')
    {f : α → Except Failure γ} {g : β → Except Failure δ}
    (hfg : ∀ a b, live a b → Follows live₂ (f a) (g b)) : Follows live₂ (o >>= f) (o' >>= g) := by
  cases o with
  | error e =>
    cases e with
    | fatal cause token => trivial
    | mismatch =>
      have h : o' = .error .mismatch := h
      rw [h]
      rfl
  | ok a =>
    obtain ⟨b, rfl, hab⟩ := h
    exact hfg a b hab

/-- Where the first outcome fails, both go on alike. -/
theorem Follows.error {o : Except Failure α} {o' : Except Failure β} (h : Follows live o o')
    {e : Failure} (ho : o = .error e) {x : Except Failure γ} {x' : Except Failure δ} (hx : x = .error e)
    (hx' : o' = .error .mismatch → x' = .error .mismatch) : Follows live₂ x x' := by
  subst hx
  cases e with
  | fatal cause token => trivial
  | mismatch => exact hx' (h.mismatch ho)

end Outcomes

/-- The next token of woven tokens is that of the tokens. -/
theorem head?_weave (ts : List Token) : (w.weave ts).head? = ts.head?.map w.relabel := by
  cases ts <;> rfl

theorem nextIs_weave (kind : TokenKind) (ts : List Token) :
    nextIs kind (w.weave ts) = nextIs kind ts := by
  rw [nextIs, nextIs, head?_weave]
  cases ts <;> simp

theorem nextIn_weave (kinds : List TokenKind) (ts : List Token) :
    nextIn kinds (w.weave ts) = nextIn kinds ts := by
  rw [nextIn, nextIn, head?_weave]
  cases ts <;> simp

theorem nextKeyword_weave (words : List String) (ts : List Token) :
    nextKeyword words (w.weave ts) = nextKeyword words ts := by
  rw [nextKeyword, nextKeyword, head?_weave]
  cases ts <;> simp

theorem nextWord_weave (words : List String) (ts : List Token) :
    nextWord words (w.weave ts) = nextWord words ts := by
  rw [nextWord, nextWord, head?_weave]
  cases ts <;> simp

theorem isEmpty_weave (ts : List Token) : (w.weave ts).isEmpty = ts.isEmpty := by
  cases ts <;> rfl

/-! ## Groups -/

/-- A run of woven tokens that takes what a run of the tokens takes, but no mark after the last. -/
def RunFollows (w : Weaving) {ts us : List Token} (r : Run ts) (r' : Run us) : Prop :=
  r'.taken = w.weaveOpen r.taken ∧ r'.rest = w.pending r.taken ++ w.weave r.rest

/-- A run of woven tokens that takes what a run of the tokens takes, with all marks. -/
def RunCovers (w : Weaving) {ts us : List Token} (r : Run ts) (r' : Run us) : Prop :=
  r'.taken = w.weave r.taken ∧ r'.rest = w.weave r.rest

theorem closeAll_taken_ne_nil {opener : Token} {e : TokenKind} {es : List TokenKind}
    {ts : List Token} {r : Run ts} (h : closeAll opener (e :: es) ts = .ok r) : r.taken ≠ [] := by
  cases ts with
  | nil => cases h
  | cons t ts =>
    rw [closeAll] at h
    split at h
    · obtain ⟨s, -, rfl⟩ := ok_of_map h
      exact List.cons_ne_nil _ _
    · split at h
      · split at h
        · obtain ⟨s, -, rfl⟩ := ok_of_map h
          exact List.cons_ne_nil _ _
        · cases h
      · obtain ⟨s, -, rfl⟩ := ok_of_map h
        exact List.cons_ne_nil _ _

/-- Inside a group a mark is one more token. -/
theorem closeAll_mark (opener : Token) {m : Token} (hm : m.kind = .question) (e : TokenKind)
    (es : List TokenKind) (us : List Token) :
    closeAll opener (e :: es) (m :: us) = (closeAll opener (e :: es) us).map (.cons m) := by
  rw [closeAll, hm]
  rfl

/-- A list that is empty or holds one mark. -/
def IsMark (ms : List Token) : Prop := ms = [] ∨ ∃ m, ms = [m] ∧ m.kind = .question

theorem isMark_after (w : Weaving) (t : Token) : IsMark (w.after t) := by
  cases h : w.marked t with
  | false => exact .inl (w.after_of_unmarked h)
  | true => exact .inr ⟨_, w.after_of_marked h, w.kind_mark t⟩

theorem isMark_pending (w : Weaving) (ts : List Token) : IsMark (w.pending ts) := by
  rw [pending]
  cases ts.getLast? with
  | none => exact .inl rfl
  | some t => exact isMark_after w t

/-- A group that goes on after a token goes on after the mark of the token. -/
theorem closeAll_after {opener opener' : Token} {e : TokenKind} {es : List TokenKind}
    {ts : List Token} (h : Follows (RunFollows w) (closeAll opener (e :: es) ts)
      (closeAll opener' (e :: es) (w.weave ts))) (t : Token) :
    Follows (fun r r' => RunFollows w (r.cons t) (r'.cons (w.relabel t)))
      (closeAll opener (e :: es) ts) (closeAll opener' (e :: es) (w.after t ++ w.weave ts)) := by
  -- the marks are taken on the way
  have hmarks : ∀ ms, IsMark ms → Follows
      (fun r r' => r'.taken = ms ++ w.weaveOpen r.taken ∧ r'.rest = w.pending r.taken ++ w.weave r.rest)
      (closeAll opener (e :: es) ts) (closeAll opener' (e :: es) (ms ++ w.weave ts)) := by
    rintro ms (rfl | ⟨m, rfl, hm⟩)
    · exact h
    · rw [List.singleton_append, closeAll_mark opener' hm]
      refine h.mapRight ?_
      rintro r r' ⟨htaken, hrest⟩
      exact ⟨congrArg (m :: ·) htaken, hrest⟩
  have hafter := hmarks _ (isMark_after w t)
  cases hr : closeAll opener (e :: es) ts with
  | error f =>
    rw [hr] at hafter
    cases f with
    | fatal cause token => trivial
    | mismatch => exact hafter
  | ok r =>
    have hne := closeAll_taken_ne_nil hr
    obtain ⟨r', hr', htaken, hrest⟩ := hafter.ok hr
    refine ⟨r', hr', ?_, ?_⟩
    · show w.relabel t :: r'.taken = w.weaveOpen (t :: r.taken)
      rw [w.weaveOpen_cons t hne, htaken]
    · show r'.rest = w.pending (t :: r.taken) ++ w.weave r.rest
      rw [w.pending_cons t hne, hrest]

theorem closeAll_follows (opener opener' : Token) (expected : List TokenKind) (ts : List Token) :
    Follows (RunFollows w) (closeAll opener expected ts)
      (closeAll opener' expected (w.weave ts)) := by
  fun_induction closeAll opener expected ts with
  | case1 ts =>
    rw [closeAll]
    exact ⟨_, rfl, rfl, rfl⟩
  | case2 => trivial
  | case3 e es t ts c hclose ih =>
    rw [weave_cons, closeAll, kind_relabel, hclose]
    exact (closeAll_after ih t).map fun _ _ h => h
  | case4 e es t ts hclose hcloser heq ih =>
    rw [weave_cons, closeAll, kind_relabel, hclose]
    dsimp only
    rw [if_pos hcloser, if_pos heq]
    cases es with
    | nil =>
      rw [closeAll, closeAll]
      exact ⟨_, rfl, rfl, rfl⟩
    | cons e' es => exact (closeAll_after ih t).map fun _ _ h => h
  | case5 => trivial
  | case6 e es t ts hclose hcloser ih =>
    rw [weave_cons, closeAll, kind_relabel, hclose]
    dsimp only
    rw [if_neg hcloser]
    exact (closeAll_after ih t).map fun _ _ h => h

/-- A bracketed group that is followed by a group of woven tokens. -/
def GroupFollows (w : Weaving) {ts us : List Token} (g : Group ts) (g' : Group us) : Prop :=
  RunFollows w g.toRun g'.toRun

theorem balanced_follows (ts : List Token) :
    Follows (GroupFollows w) (balanced ts) (balanced (w.weave ts)) := by
  cases ts with
  | nil => rfl
  | cons t ts =>
    rw [weave_cons, balanced, balanced, kind_relabel]
    cases closer? t.kind with
    | none => rfl
    | some c => exact (closeAll_after (closeAll_follows t (w.relabel t) [c] ts) t).map fun _ _ h => h

theorem balanced_mark {us : List Token} (h : nextIs .question us = true) :
    balanced us = .error .mismatch := by
  cases us with
  | nil => rfl
  | cons m us =>
    have hm : m.kind = .question := by simpa [nextIs] using h
    rw [balanced, hm]
    rfl

theorem balanced_taken_ne_nil {ts : List Token} (g : Group ts) : g.taken ≠ [] := by
  intro h
  have hlen := congrArg List.length g.complete
  have := g.progress
  rw [h, List.nil_append] at hlen
  omega

/-! ## Up to a stop -/

/-- A stop that no mark is, and that does not notice marks. -/
structure StopsAlike (w : Weaving) (stop : Token → List Token → Bool) : Prop where
  mark : ∀ m us, m.kind = .question → stop m us = false
  token : ∀ t ts, w.Sound (t :: ts) → stop (w.relabel t) (w.after t ++ w.weave ts) = stop t ts

theorem takeUntil_mark {stop : Token → List Token → Bool} (hstop : StopsAlike w stop) {m : Token}
    (hm : m.kind = .question) (us : List Token) :
    takeUntil stop (m :: us) = (takeUntil stop us).map (.cons m) := by
  rw [takeUntil, hstop.mark m us hm, hm]
  rfl

/-- The marks in front of woven tokens are taken. -/
theorem takeUntil_marks {stop : Token → List Token → Bool} (hstop : StopsAlike w stop)
    {ts : List Token} (h : Follows (RunCovers w) (takeUntil stop ts) (takeUntil stop (w.weave ts)))
    {ms : List Token} (hms : IsMark ms) :
    Follows (fun r r' => r'.taken = ms ++ w.weave r.taken ∧ r'.rest = w.weave r.rest)
      (takeUntil stop ts) (takeUntil stop (ms ++ w.weave ts)) := by
  rcases hms with rfl | ⟨m, rfl, hm⟩
  · exact h
  · rw [List.singleton_append, takeUntil_mark hstop hm]
    refine h.mapRight ?_
    rintro r r' ⟨htaken, hrest⟩
    exact ⟨congrArg (m :: ·) htaken, hrest⟩

theorem takeUntil_follows {stop : Token → List Token → Bool} (hstop : StopsAlike w stop)
    (ts : List Token) (hsound : w.Sound ts) :
    Follows (RunCovers w) (takeUntil stop ts) (takeUntil stop (w.weave ts)) := by
  fun_induction takeUntil stop ts with
  | case1 => trivial
  | case2 t rest hc =>
    rw [weave_cons, takeUntil, hstop.token t rest hsound, if_pos hc]
    exact ⟨_, rfl, rfl, rfl⟩
  | case3 t rest hc hopen e he =>
    have hbalanced := balanced_follows (w := w) (t :: rest)
    rw [he, weave_cons] at hbalanced
    cases e with
    | fatal cause token => trivial
    | mismatch =>
      have hbalanced : _ = Except.error Failure.mismatch := hbalanced
      rw [weave_cons, takeUntil, hstop.token t rest hsound, if_neg hc, kind_relabel, if_pos hopen,
        hbalanced]
      rfl
  | case4 t rest hc hopen g hg ih =>
    have hbalanced := balanced_follows (w := w) (t :: rest)
    rw [weave_cons] at hbalanced
    obtain ⟨g', hg', htaken, hrest⟩ := hbalanced.ok hg
    have hsound' : w.Sound g.rest := by
      rw [← g.complete] at hsound
      exact hsound.of_append
    have hmarks := takeUntil_marks hstop (ih hsound') (isMark_pending w g.taken)
    rw [← hrest] at hmarks
    rw [weave_cons, takeUntil, hstop.token t rest hsound, if_neg hc, kind_relabel, if_pos hopen, hg']
    refine hmarks.map ?_
    rintro r r' ⟨htaken', hrest'⟩
    refine ⟨?_, hrest'⟩
    show g'.taken ++ r'.taken = w.weave (g.taken ++ r.taken)
    rw [htaken, htaken', weave_append, ← List.append_assoc, weaveOpen_append_pending]
  | case5 => trivial
  | case6 t rest hc hopen hclose ih =>
    rw [weave_cons, takeUntil, hstop.token t rest hsound, if_neg hc, kind_relabel, if_neg hopen,
      if_neg hclose]
    refine (takeUntil_marks hstop (ih hsound.tail) (isMark_after w t)).map ?_
    rintro r r' ⟨htaken, hrest⟩
    exact ⟨congrArg (w.relabel t :: ·) htaken, hrest⟩

/-- What is taken ends before a stop. -/
theorem takeUntil_stops {stop : Token → List Token → Bool} {ts : List Token} {r : Run ts}
    (h : takeUntil stop ts = .ok r) : ∃ t rest, r.rest = t :: rest ∧ stop t rest = true := by
  fun_induction takeUntil stop ts with
  | case1 => cases h
  | case2 t rest hc =>
    cases h
    exact ⟨t, rest, rfl, hc⟩
  | case3 => cases h
  | case4 t rest hc hopen g hg ih =>
    obtain ⟨s, hs, rfl⟩ := ok_of_map h
    exact ih hs
  | case5 => cases h
  | case6 t rest hc hopen hclose ih =>
    obtain ⟨s, hs, rfl⟩ := ok_of_map h
    exact ih hs

/-- A group of woven tokens that takes what a group of the tokens takes, with all marks. -/
def GroupCovers (w : Weaving) {ts us : List Token} (g : Group ts) (g' : Group us) : Prop :=
  RunCovers w g.toRun g'.toRun

theorem through_ok {kind : TokenKind} (first : Token) {ts : List Token} {r : Run ts} {t : Token}
    {rest : List Token} (h : takeUntil (fun t _ => t.kind == kind) ts = .ok r)
    (hrest : r.rest = t :: rest) :
    ∃ g, through kind first ts = .ok g ∧ g.taken = first :: (r.taken ++ [t]) ∧ g.rest = rest := by
  unfold through
  rw [h]
  simp only [bind, Except.bind]
  split
  · next hnil => rw [hrest] at hnil; cases hnil
  · next u us hcons =>
    rw [hrest] at hcons
    cases hcons
    exact ⟨_, rfl, rfl, rfl⟩

theorem through_error {kind : TokenKind} {first : Token} {ts : List Token} {e : Failure}
    (h : takeUntil (fun t _ => t.kind == kind) ts = .error e) :
    through kind first ts = .error e := by
  unfold through
  rw [h]
  rfl

theorem stopsAlike_kind {kind : TokenKind} (h : kind ≠ .question) :
    StopsAlike w (fun t _ => t.kind == kind) where
  mark m us hm := by
    rw [hm]
    exact beq_false_of_ne (Ne.symm h)
  token t ts _ := by rw [kind_relabel]

theorem through_follows {kind : TokenKind} (hkind : kind ≠ .question)
    (hends : ∀ t : Token, t.kind = kind → t.endsType = false) (first : Token) {ts : List Token}
    (hsound : w.Sound ts) : Follows (GroupCovers w) (through kind first ts)
      (through kind (w.relabel first) (w.after first ++ w.weave ts)) := by
  have hstop := stopsAlike_kind (w := w) hkind
  have htake := takeUntil_marks hstop (takeUntil_follows hstop ts hsound) (isMark_after w first)
  cases hr : takeUntil (fun t _ => t.kind == kind) ts with
  | error e =>
    rw [through_error hr]
    cases e with
    | fatal cause token => trivial
    | mismatch => exact through_error (htake.mismatch hr)
  | ok r =>
    obtain ⟨r', hr', htaken, hrest'⟩ := htake.ok hr
    obtain ⟨t, rest, hrest, hstops⟩ := takeUntil_stops hr
    have hunmarked : w.marked t = false := by
      rw [← r.complete, hrest] at hsound
      exact hsound.of_append.unmarked (hends t (by simpa using hstops))
    rw [hrest, weave_cons, w.after_of_unmarked hunmarked, List.nil_append] at hrest'
    obtain ⟨g, hg, htaken₁, hrest₁⟩ := through_ok first hr hrest
    obtain ⟨g', hg', htaken₂, hrest₂⟩ := through_ok (w.relabel first) hr' hrest'
    rw [hg]
    refine ⟨g', hg', ?_, ?_⟩
    · show g'.taken = w.weave g.taken
      rw [htaken₁, htaken₂, htaken]
      simp [hunmarked]
    · show g'.rest = w.weave g.rest
      rw [hrest₁, hrest₂]

/-! ## Statements -/

theorem optional_covers {f : Token → Bool} (hf : ∀ t, f (w.relabel t) = f t)
    (hends : ∀ t, f t = true → t.endsType = false) {ts : List Token} (hsound : w.Sound ts) :
    RunCovers w (Run.optional f ts) (Run.optional f (w.weave ts)) := by
  cases ts with
  | nil => exact ⟨rfl, rfl⟩
  | cons t ts =>
    rw [weave_cons, Run.optional, Run.optional, hf]
    split
    · next ht =>
      have hunmarked := hsound.unmarked (hends t ht)
      rw [w.after_of_unmarked hunmarked]
      refine ⟨?_, rfl⟩
      show [w.relabel t] = w.weave [t]
      simp [hunmarked]
    · exact ⟨rfl, rfl⟩

theorem statementPart_mark {m : Token} (hm : m.kind = .question) (us : List Token) :
    statementPart (m :: us) = .ok ⟨.single m us, false⟩ := by
  rw [statementPart, hm]
  rfl

/-- After tokens that were taken comes no mark, or a mark before an identifier. -/
theorem pending_cases {taken rest : List Token} (h : w.Sound (taken ++ rest)) :
    w.pending taken = [] ∨ ∃ m u us, w.pending taken = [m] ∧ m.kind = .question
      ∧ rest = u :: us ∧ u.kind = .identifier := by
  cases hlast : taken.getLast? with
  | none => exact .inl (by rw [pending, hlast]; rfl)
  | some t =>
    obtain ⟨init, rfl⟩ := List.getLast?_eq_some_iff.mp hlast
    rw [List.append_assoc] at h
    rw [pending_concat]
    cases hmarked : w.marked t with
    | false => exact .inl (w.after_of_unmarked hmarked)
    | true =>
      obtain ⟨u, us, hrest, hu⟩ := h.of_append.next hmarked
      exact .inr ⟨_, u, us, w.after_of_marked hmarked, w.kind_mark t, hrest, hu⟩

/-- No mark comes after tokens the last of which ends no type. -/
theorem pending_eq_nil {taken : List Token} (rest : List Token) (h : w.Sound (taken ++ rest))
    (hlast : taken.getLast?.all (!·.endsType) = true) : w.pending taken = [] := by
  cases ht : taken.getLast? with
  | none => rw [pending, ht]; rfl
  | some t =>
    obtain ⟨init, rfl⟩ := List.getLast?_eq_some_iff.mp ht
    rw [ht, Option.all_some, Bool.not_eq_true'] at hlast
    rw [List.append_assoc] at h
    rw [pending_concat, w.after_of_unmarked (h.of_append.unmarked hlast)]

theorem RunFollows.covers {ts us : List Token} {r : Run ts} {r' : Run us} (h : RunFollows w r r')
    (hnil : w.pending r.taken = []) : RunCovers w r r' := by
  obtain ⟨htaken, hrest⟩ := h
  rw [hnil, List.nil_append] at hrest
  refine ⟨?_, hrest⟩
  rw [htaken, ← weaveOpen_append_pending, hnil, List.append_nil]

/-- A group in braces has no mark after it. -/
theorem balanced_brace_last {t : Token} {ts : List Token} (ht : t.kind = .lbrace)
    {g : Group (t :: ts)} (h : balanced (t :: ts) = .ok g) :
    g.taken.getLast?.all (!·.endsType) = true := by
  obtain ⟨u, c, hu, hc, hlast⟩ := ends_balanced h
  cases hu
  rw [ht] at hc
  cases hc
  cases hg : g.taken.getLast? with
  | none => rfl
  | some v =>
    rw [hg, Option.any_some, beq_iff_eq] at hlast
    rw [Option.all_some, endsType_of_kind (by simp [hlast])]
    rfl

theorem sound_rest {ts : List Token} (h : w.Sound ts) (r : Run ts) : w.Sound r.rest := by
  rw [← r.complete] at h
  exact h.of_append

/-- A group in braces is covered. -/
theorem balanced_brace_covers {t : Token} {ts : List Token} (ht : t.kind = .lbrace)
    (hsound : w.Sound (t :: ts)) :
    Follows (GroupCovers w) (balanced (t :: ts)) (balanced (w.weave (t :: ts))) := by
  have hfollows := balanced_follows (w := w) (t :: ts)
  cases hg : balanced (t :: ts) with
  | error e => rw [hg] at hfollows; cases e <;> exact hfollows
  | ok g =>
    obtain ⟨g', hg', hgroup⟩ := hfollows.ok hg
    refine ⟨g', hg', hgroup.covers (pending_eq_nil g.rest ?_ (balanced_brace_last ht hg))⟩
    rw [g.complete]
    exact hsound

/-- The part of a statement with its marks, but for one after the last token. -/
def PartFollows (w : Weaving) {ts us : List Token} (part : StatementPart ts)
    (part' : StatementPart us) : Prop :=
  part'.ends = part.ends ∧ RunFollows w part.toRun part'.toRun
    ∧ (part.ends = true → w.pending part.taken = [])

theorem statementPart_follows (ts : List Token) (hsound : w.Sound ts) :
    Follows (PartFollows w) (statementPart ts) (statementPart (w.weave ts)) := by
  cases ts with
  | nil => trivial
  | cons t ts =>
    have hsingle : ∀ ends : Bool, (ends = true → w.marked t = false) →
        PartFollows w ⟨.single t ts, ends⟩
          ⟨.single (w.relabel t) (w.after t ++ w.weave ts), ends⟩ := by
      intro ends hends
      exact ⟨rfl, ⟨rfl, rfl⟩, fun h => w.after_of_unmarked (hends h)⟩
    have hgroup := balanced_follows (w := w) (t :: ts)
    rw [weave_cons] at hgroup ⊢
    rw [statementPart, statementPart, kind_relabel]
    split
    · next hsemi =>
      exact ⟨_, rfl, hsingle true fun _ => hsound.unmarked
        (endsType_of_kind (by simp [beq_iff_eq.mp hsemi]))⟩
    split
    · trivial
    split
    · trivial
    split
    · next hbrace =>
      have hcovers := balanced_brace_covers (beq_iff_eq.mp hbrace) hsound
      rw [weave_cons] at hcovers
      cases hg : balanced (t :: ts) with
      | error e =>
        rw [hg] at hcovers
        cases e with
        | fatal cause token => trivial
        | mismatch =>
          have hcovers : _ = Except.error Failure.mismatch := hcovers
          rw [hcovers]
          rfl
      | ok g =>
        obtain ⟨g', hg', htaken, hrest⟩ := hcovers.ok hg
        rw [hg']
        have hopt := optional_covers (w := w) (f := (·.kind == .semicolon)) (by simp)
          (fun u hu => endsType_of_kind (by simp [beq_iff_eq.mp hu])) (sound_rest hsound g.toRun)
        rw [← hrest] at hopt
        obtain ⟨htaken', hrest'⟩ := hopt
        -- the group and the semicolon are covered, so no mark is left
        have hcovers : RunCovers w (g.append (.optional (·.kind == .semicolon) g.rest)).toRun
            (g'.append (.optional (·.kind == .semicolon) g'.rest)).toRun := by
          refine ⟨?_, hrest'⟩
          show g'.taken ++ _ = w.weave (g.taken ++ _)
          rw [htaken, htaken', weave_append]
        have hnil : w.pending (g.append (.optional (·.kind == .semicolon) g.rest)).taken = [] := by
          refine pending_eq_nil (g.append (.optional (·.kind == .semicolon) g.rest)).rest
            (by rw [Run.complete]; exact hsound) ?_
          show (g.taken ++ (Run.optional (·.kind == .semicolon) g.rest).taken).getLast?.all _ = true
          cases hafter : g.rest with
          | nil =>
            rw [Run.optional, Run.none, List.append_nil]
            exact balanced_brace_last (beq_iff_eq.mp hbrace) hg
          | cons u us =>
            rw [Run.optional]
            split
            · next hu =>
              show (g.taken ++ [u]).getLast?.all _ = true
              rw [List.getLast?_concat, Option.all_some,
                endsType_of_kind (by simp [beq_iff_eq.mp hu])]
              rfl
            · show (g.taken ++ []).getLast?.all _ = true
              rw [List.append_nil]
              exact balanced_brace_last (beq_iff_eq.mp hbrace) hg
        refine ⟨_, rfl, ?_, ?_, fun _ => hnil⟩
        · show (!nextWord continuations _) = !nextWord continuations _
          rw [hcovers.2, nextWord_weave]
        · obtain ⟨h₁, h₂⟩ := hcovers
          refine ⟨?_, ?_⟩
          · rw [h₁, ← weaveOpen_append_pending, hnil, List.append_nil]
          · rw [h₂, hnil, List.nil_append]
    split
    · exact hgroup.map fun g g' h => ⟨rfl, h, fun hf => absurd hf (by simp)⟩
    · exact ⟨_, rfl, hsingle false (by simp)⟩

theorem statement_mark {m u : Token} (hm : m.kind = .question) (hu : u.kind = .identifier)
    (us : List Token) : statement (m :: u :: us)
      = (statement (u :: us)).map fun more => (Group.single m (u :: us)).append more.toRun := by
  rw [statement, statementPart_mark hm]
  dsimp only [Group.single]
  rw [if_neg (by simp [nextIs, hu])]

/-- A statement is taken with all its marks. -/
theorem statement_follows (ts : List Token) (hsound : w.Sound ts) :
    Follows (GroupCovers w) (statement ts) (statement (w.weave ts)) := by
  fun_induction statement ts with
  | case1 ts e he =>
    have hpart := statementPart_follows ts hsound
    rw [he] at hpart
    cases e with
    | fatal cause token => trivial
    | mismatch =>
      have hpart : _ = Except.error Failure.mismatch := hpart
      rw [statement, hpart]
      rfl
  | case2 ts part hpart hstop =>
    obtain ⟨part', hpart', hends, hrun, hnil⟩ := (statementPart_follows ts hsound).ok hpart
    have hsound' : w.Sound (part.taken ++ part.rest) := by
      rw [part.complete]
      exact hsound
    -- a mark would come before an identifier, where no statement ends
    have hnil : w.pending part.taken = [] := by
      rcases pending_cases hsound' with h | ⟨m, u, us, -, -, hrest, hu⟩
      · exact h
      · refine hnil ?_
        simpa [hrest, nextIs, hu] using hstop
    obtain ⟨htaken, hrest⟩ := hrun.covers hnil
    have hstop' : (part'.ends || part'.rest.isEmpty || nextIs .rbrace part'.rest) = true := by
      rw [hends, hrest, isEmpty_weave, nextIs_weave]
      exact hstop
    rw [statement, hpart']
    dsimp only
    rw [if_pos hstop']
    exact ⟨_, rfl, htaken, hrest⟩
  | case3 ts part hpart hstop ih =>
    obtain ⟨part', hpart', hends, hrun, -⟩ := (statementPart_follows ts hsound).ok hpart
    have hsound' : w.Sound (part.taken ++ part.rest) := by
      rw [part.complete]
      exact hsound
    have ih := ih (sound_rest hsound part.toRun)
    have hends' : part.ends = false := by
      simp only [Bool.or_eq_true, not_or, Bool.not_eq_true] at hstop
      exact hstop.1.1
    have hmore : Follows (fun more more' => more'.taken = w.pending part.taken ++ w.weave more.taken
        ∧ more'.rest = w.weave more.rest) (statement part.rest) (statement part'.rest)
        ∧ ¬(part'.ends || part'.rest.isEmpty || nextIs .rbrace part'.rest) = true := by
      rw [hends, hends', hrun.2]
      rcases pending_cases hsound' with h | ⟨m, u, us, h, hm, hrest, hu⟩
      · rw [h, List.nil_append]
        refine ⟨ih, ?_⟩
        rw [isEmpty_weave, nextIs_weave]
        rw [hends'] at hstop
        exact hstop
      · rw [h, List.singleton_append]
        refine ⟨?_, by simp [nextIs, hm]⟩
        have hmark := statement_mark hm (u := w.relabel u) (by rw [kind_relabel, hu])
          (w.after u ++ w.weave us)
        rw [hrest] at ih ⊢
        rw [weave_cons] at ih ⊢
        rw [hmark]
        refine ih.mapRight ?_
        rintro more more' ⟨htaken, hrest'⟩
        exact ⟨congrArg (m :: ·) htaken, hrest'⟩
    rw [statement.eq_def (w.weave ts), hpart']
    dsimp only
    rw [if_neg hmore.2]
    refine hmore.1.map ?_
    rintro more more' ⟨htaken, hrest⟩
    refine ⟨?_, hrest⟩
    show part'.taken ++ more'.taken = w.weave (part.taken ++ more.taken)
    rw [hrun.1, htaken, weave_append, ← List.append_assoc, weaveOpen_append_pending]

end NullableMarker.Grammar
