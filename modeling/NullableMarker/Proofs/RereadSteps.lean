import NullableMarker.Proofs.RereadTypes

/-!
# Steps of readers of woven tokens

A reader of woven tokens goes along with the reader of the tokens until it comes to a mark that
belongs to no type. From there on it can read nothing but what may be left out, so that it fails in
the end. What was read up to such a mark does not fit the marks.

* `Live` — the two readers are at the same place
* `Stuck` — the second reader failed, or is at a mark
* `Tracks` — the second outcome is live or stuck
* `StepTracks.bind` — steps that are tracked, one after the other
-/

namespace NullableMarker.Grammar

open Weaving

variable {w : Weaving}

/-! ## What results show -/

/-- What a result shows: the children that were read, what is left, and how it is to be called. -/
structure View where
  children : List Tree
  rest : List Token
  kind : Option NodeKind
  name : String

/-- A type of results. -/
class Viewed (α : Type) where
  view : α → View

export Viewed (view)

section Views

variable {ts : List Token}

instance : Viewed (Reading ts) := ⟨fun r => ⟨r.children, r.rest, none, ""⟩⟩

instance : Viewed (Begun ts) := ⟨fun r => ⟨r.children, r.rest, none, ""⟩⟩

instance : Viewed (Parsed ts) := ⟨fun p => ⟨[p.tree], p.rest, none, ""⟩⟩

instance : Viewed (Group ts) := ⟨fun g => ⟨g.taken.map .token, g.rest, none, ""⟩⟩

instance : Viewed (Shape ts) := ⟨fun s => ⟨s.read.children, s.read.rest, some s.kind, ""⟩⟩

instance : Viewed (TypeHead ts) := ⟨fun h => ⟨h.read.children, h.read.rest, some h.kind, h.name⟩⟩

end Views

/-- The marks come at the ends of the types that were read. -/
def View.Fits (w : Weaving) (v : View) : Prop := ∀ c ∈ v.children, w.Fits c

/-- The second result shows what the first shows, with the marks. -/
structure Live (w : Weaving) (v v' : View) : Prop where
  rest : v'.rest = w.weave v.rest
  sound : w.Sound v.rest
  children : v.Fits w → v'.children = v.children.map w.tree
  kind : v'.kind = v.kind
  name : v'.name = v.name

/-- A mark comes next. -/
def AtMark (us : List Token) : Prop := nextIs .question us = true

section Outcomes

variable {α β : Type} [Viewed α] [Viewed β]

/-- The reader failed, or is at a mark if that is not excluded. -/
def Stuck (strict : Bool) (o : Except Failure α) : Prop :=
  o = .error .mismatch ∨ strict = false ∧ ∃ a, o = .ok a ∧ AtMark (view a).rest

/-- The second outcome shows what the first shows, or the second reader is stuck at a mark that does
not fit. -/
def Tracks (w : Weaving) (strict : Bool) (o : Except Failure α) (o' : Except Failure β) : Prop :=
  match o with
  | .error (.fatal _ _) => True
  | .error .mismatch => Stuck strict o'
  | .ok a => (∃ b, o' = .ok b ∧ Live w (view a) (view b)) ∨ ¬(view a).Fits w ∧ Stuck strict o'

theorem Stuck.weaken {a b : Bool} {o : Except Failure α} (h : Stuck a o)
    (hab : a = false → b = false) : Stuck b o := by
  rcases h with h | ⟨ha, h⟩
  · exact .inl h
  · exact .inr ⟨hab ha, h⟩

theorem Tracks.weaken {a b : Bool} {o : Except Failure α} {o' : Except Failure β}
    (h : Tracks w a o o') (hab : a = false → b = false) : Tracks w b o o' := by
  cases o with
  | error e =>
    cases e with
    | fatal cause token => trivial
    | mismatch => exact Stuck.weaken h hab
  | ok s => exact h.imp id (And.imp_right (Stuck.weaken · hab))

theorem Tracks.live {strict : Bool} {a : α} {b : β} (h : Live w (view a) (view b)) :
    Tracks w strict (.ok a) (.ok b) := .inl ⟨b, rfl, h⟩

theorem tracks_mismatch {strict : Bool} :
    Tracks w strict (.error .mismatch : Except Failure α) (.error .mismatch : Except Failure β) :=
  .inl rfl

/-- Results that are changed alike. -/
theorem Tracks.map {γ δ : Type} [Viewed γ] [Viewed δ] {strict : Bool} {o : Except Failure α}
    {o' : Except Failure β} (h : Tracks w strict o o') {f : α → γ} {g : β → δ}
    (hlive : ∀ a b, Live w (view a) (view b) → Live w (view (f a)) (view (g b)))
    (hmark : ∀ b, AtMark (view b).rest → AtMark (view (g b)).rest)
    (hfits : ∀ a, (view (f a)).Fits w → (view a).Fits w) :
    Tracks w strict (o.map f) (o'.map g) := by
  have hstuck : Stuck strict o' → Stuck strict (o'.map g) := by
    rintro (rfl | ⟨hstrict, b, rfl, hb⟩)
    · exact .inl rfl
    · exact .inr ⟨hstrict, _, rfl, hmark b hb⟩
  cases o with
  | error e =>
    cases e with
    | fatal cause token => trivial
    | mismatch => exact hstuck h
  | ok a =>
    rcases h with ⟨b, rfl, hab⟩ | ⟨hnot, h⟩
    · exact .inl ⟨_, rfl, hlive a b hab⟩
    · exact .inr ⟨fun ha => hnot (hfits a ha), hstuck h⟩

/-- Outcomes that follow each other are tracked. -/
theorem Follows.tracks {live : α → β → Prop} {o : Except Failure α} {o' : Except Failure β}
    (h : Follows live o o') {strict : Bool}
    (hlive : ∀ a b, o = .ok a → live a b → Live w (view a) (view b)
      ∨ ¬(view a).Fits w ∧ strict = false ∧ AtMark (view b).rest) : Tracks w strict o o' := by
  cases o with
  | error e =>
    cases e with
    | fatal cause token => trivial
    | mismatch => exact .inl (h.mismatch rfl)
  | ok a =>
    obtain ⟨b, rfl, hab⟩ := h.ok rfl
    rcases hlive a b rfl hab with hl | ⟨hfits, hstrict, hmark⟩
    · exact .inl ⟨b, rfl, hl⟩
    · exact .inr ⟨hfits, .inr ⟨hstrict, b, rfl, hmark⟩⟩

end Outcomes

/-! ## Readers and steps -/

section Steps

variable {S T R : List Token → Type} [∀ ts, Viewed (S ts)] [∀ ts, Viewed (T ts)]
  [∀ ts, Viewed (R ts)]

/-- A reader that is tracked, and that reads nothing at a mark. -/
structure ReaderTracks (w : Weaving) (strict : Bool)
    (reader : (ts : List Token) → Except Failure (R ts)) : Prop where
  tracks : ∀ ts, w.Sound ts → Tracks w strict (reader ts) (reader (w.weave ts))
  mark : ∀ us, AtMark us → reader us = .error .mismatch

/-- A step that is tracked from a live state, where `a` excludes that it ends at a mark; and that
stays stuck at a mark, where `b` excludes that it goes on. -/
structure StepTracks (w : Weaving) (a b : Bool)
    (step : (ts : List Token) → S ts → Except Failure (R ts)) : Prop where
  live : ∀ {ts us : List Token} (s : S ts) (s' : S us), Live w (view s) (view s') →
    Tracks w a (step ts s) (step us s')
  mark : ∀ {us : List Token} (s' : S us), AtMark (view s').rest → Stuck b (step us s')
  grows : ∀ {ts : List Token} (s : S ts) (q : R ts), step ts s = .ok q → (view q).Fits w →
    (view s).Fits w

variable {a b a' b' : Bool}

/-- A step after an outcome that is tracked. -/
theorem StepTracks.after {step : (ts : List Token) → S ts → Except Failure (R ts)}
    (h : StepTracks w a' b' step) {ts us : List Token} {o : Except Failure (S ts)}
    {o' : Except Failure (S us)} (ho : Tracks w a o o') :
    Tracks w (a' && (a || b')) (o >>= step ts) (o' >>= step us) := by
  -- a stuck reader stays stuck
  have hstuck : Stuck a o' → Stuck (a' && (a || b')) (o' >>= step us) := by
    rintro (rfl | ⟨rfl, s', rfl, hmark⟩)
    · exact .inl rfl
    · refine (h.mark s' hmark).weaken ?_
      rintro rfl
      simp
  cases o with
  | error e =>
    cases e with
    | fatal cause token => trivial
    | mismatch => exact hstuck ho
  | ok s =>
    rcases ho with ⟨s', rfl, hs⟩ | ⟨hfits, ho⟩
    · exact Tracks.weaken (h.live s s' hs) (by rintro rfl; rfl)
    · show Tracks w _ (step ts s) (o' >>= step us)
      cases hq : step ts s with
      | error e =>
        cases e with
        | fatal cause token => trivial
        | mismatch => exact hstuck ho
      | ok q => exact .inr ⟨fun hq' => hfits (h.grows s q hq hq'), hstuck ho⟩

/-- A step from a state that does not fit, while the second reader is at a mark. -/
theorem StepTracks.stuck {step : (ts : List Token) → S ts → Except Failure (R ts)}
    (h : StepTracks w a b step) {ts us : List Token} {s : S ts} {s' : S us}
    (hfits : ¬(view s).Fits w) (hmark : AtMark (view s').rest) :
    Tracks w b (step ts s) (step us s') := by
  cases hq : step ts s with
  | error e =>
    cases e with
    | fatal cause token => trivial
    | mismatch => exact h.mark s' hmark
  | ok q => exact .inr ⟨fun hall => hfits (h.grows s q hq hall), h.mark s' hmark⟩

/-- Two steps, one after the other. -/
theorem StepTracks.bind {first : (ts : List Token) → S ts → Except Failure (T ts)}
    {second : (ts : List Token) → T ts → Except Failure (R ts)} (h : StepTracks w a b first)
    (h' : StepTracks w a' b' second) :
    StepTracks w (a' && (a || b')) (b || b') fun ts s => first ts s >>= second ts where
  live s s' hs := h'.after (h.live s s' hs)
  mark s' hmark := by
    rcases h.mark s' hmark with hs | ⟨rfl, t, ht, htmark⟩
    · rw [hs]
      exact .inl rfl
    · rw [ht]
      exact (h'.mark t htmark).weaken (by simp)
  grows s q hq hfits := by
    obtain ⟨t, ht, hq⟩ := ok_of_bind hq
    exact h.grows s t ht (h'.grows t q hq hfits)

/-- A reader and a step after it. -/
theorem ReaderTracks.bind {reader : (ts : List Token) → Except Failure (S ts)}
    {step : (ts : List Token) → S ts → Except Failure (R ts)} (h : ReaderTracks w a reader)
    (h' : StepTracks w a' b' step) :
    ReaderTracks w (a' && (a || b')) fun ts => reader ts >>= step ts where
  tracks ts hsound := h'.after (h.tracks ts hsound)
  mark us hmark := by
    rw [h.mark us hmark]
    rfl

theorem StepTracks.fail :
    StepTracks w true true fun ts (_ : S ts) => (.error .mismatch : Except Failure (R ts)) where
  live _ _ _ := tracks_mismatch
  mark _ _ := .inl rfl
  grows _ _ hq := by cases hq

/-- A step that changes only the form of the result. -/
theorem StepTracks.pure {f : (ts : List Token) → S ts → R ts}
    (hlive : ∀ {ts us : List Token} (s : S ts) (s' : S us), Live w (view s) (view s') →
      Live w (view (f ts s)) (view (f us s')))
    (hrest : ∀ {ts : List Token} (s : S ts), (view (f ts s)).rest = (view s).rest)
    (hfits : ∀ {ts : List Token} (s : S ts), (view (f ts s)).Fits w → (view s).Fits w) :
    StepTracks w true false fun ts s => (Pure.pure (f ts s) : Except Failure (R ts)) where
  live s s' hs := .live (hlive s s' hs)
  mark s' hmark := .inr ⟨rfl, _, rfl, by rw [hrest]; exact hmark⟩
  grows s q hq hq' := by
    cases hq
    exact hfits s hq'

/-- A test of the tokens ahead that does not notice marks, and fails at one. -/
structure TestsAlike (w : Weaving) (test : List Token → Bool) : Prop where
  weave : ∀ ts, w.Sound ts → test (w.weave ts) = test ts
  mark : ∀ us, AtMark us → test us = false

/-- A step that depends on the tokens ahead. -/
theorem StepTracks.ite {test : List Token → Bool} (htest : TestsAlike w test)
    {yes no : (ts : List Token) → S ts → Except Failure (R ts)} {c : Bool}
    (hyes : StepTracks w a c yes) (hno : StepTracks w a' b no) :
    StepTracks w (a && a') b fun ts s => if test (view s).rest then yes ts s else no ts s where
  live s s' hs := by
    rw [hs.rest, htest.weave _ hs.sound]
    split
    · exact Tracks.weaken (hyes.live s s' hs) (by rintro rfl; rfl)
    · exact Tracks.weaken (hno.live s s' hs) (by rintro rfl; simp)
  mark s' hmark := by
    rw [htest.mark _ hmark]
    exact hno.mark s' hmark
  grows s q hq hfits := by
    split at hq
    · exact hyes.grows s q hq hfits
    · exact hno.grows s q hq hfits

end Steps

/-! ## Tests of the tokens ahead -/

theorem exists_of_atMark {us : List Token} (h : AtMark us) :
    ∃ m rest, us = m :: rest ∧ m.kind = .question := by
  cases us with
  | nil => cases h
  | cons m rest => exact ⟨m, rest, rfl, by simpa [AtMark, nextIs] using h⟩

theorem isWord_of_question {m : Token} (hm : m.kind = .question) (words : List String) :
    m.isWord words = false := by
  rw [Token.isWord, hm]
  rfl

theorem isKeyword_of_question {m : Token} (hm : m.kind = .question) (words : List String) :
    m.isKeyword words = false := by
  rw [Token.isKeyword, hm]
  rfl

theorem nextIs_of_atMark {us : List Token} (h : AtMark us) {kind : TokenKind}
    (hkind : kind ≠ .question) : nextIs kind us = false := by
  obtain ⟨m, rest, rfl, hm⟩ := exists_of_atMark h
  simpa [nextIs, hm] using Ne.symm hkind

theorem nextIn_of_atMark {us : List Token} (h : AtMark us) {kinds : List TokenKind}
    (hkinds : kinds.contains .question = false) : nextIn kinds us = false := by
  obtain ⟨m, rest, rfl, hm⟩ := exists_of_atMark h
  rw [nextIn, List.head?_cons, Option.any_some, hm, hkinds]

theorem nextKeyword_of_atMark {us : List Token} (h : AtMark us) (words : List String) :
    nextKeyword words us = false := by
  obtain ⟨m, rest, rfl, hm⟩ := exists_of_atMark h
  exact isKeyword_of_question hm words

theorem nextWord_of_atMark {us : List Token} (h : AtMark us) (words : List String) :
    nextWord words us = false := by
  obtain ⟨m, rest, rfl, hm⟩ := exists_of_atMark h
  exact isWord_of_question hm words

theorem testsAlike_nextIs {kind : TokenKind} (h : kind ≠ .question) : TestsAlike w (nextIs kind) :=
  ⟨fun ts _ => nextIs_weave kind ts, fun _ hmark => nextIs_of_atMark hmark h⟩

theorem testsAlike_nextIn {kinds : List TokenKind} (h : kinds.contains .question = false) :
    TestsAlike w (nextIn kinds) :=
  ⟨fun ts _ => nextIn_weave kinds ts, fun _ hmark => nextIn_of_atMark hmark h⟩

theorem testsAlike_nextKeyword (words : List String) : TestsAlike w (nextKeyword words) :=
  ⟨fun ts _ => nextKeyword_weave words ts, fun _ hmark => nextKeyword_of_atMark hmark words⟩

theorem testsAlike_nextWord (words : List String) : TestsAlike w (nextWord words) :=
  ⟨fun ts _ => nextWord_weave words ts, fun _ hmark => nextWord_of_atMark hmark words⟩

/-! ## Readers -/

section Readers

variable {ts us : List Token}

theorem TreeFollows.live {p : Parsed ts} {p' : Parsed us} (h : TreeFollows w p p') :
    Live w (view p) (view p') where
  rest := h.rest
  sound := h.sound
  children hfits := congrArg ([·]) (h.tree (hfits p.tree (List.mem_singleton_self _)))
  kind := rfl
  name := rfl

theorem readerTracks_type : ReaderTracks w true type where
  tracks ts hsound := (type_follows ts hsound).tracks fun _ _ _ h => .inl h.live
  mark _ hmark := type_of_question hmark

theorem TokenFollows.live {p : Parsed ts} {p' : Parsed us} (h : TokenFollows w p p')
    (hsound : w.Sound ts) (hunmarked : ∀ t, p.tree = .token t → w.marked t = false) :
    Live w (view p) (view p') := by
  obtain ⟨t, ht, ht', hcons, hrest⟩ := h
  refine ⟨?_, ?_, fun _ => ?_, rfl, rfl⟩
  · show p'.rest = w.weave p.rest
    rw [hrest, w.after_of_unmarked (hunmarked t ht), List.nil_append]
  · rw [hcons] at hsound
    exact hsound.tail
  · show [p'.tree] = [p.tree].map w.tree
    rw [ht, ht']
    simp

/-- A token, but for a mark after it. -/
theorem expectThat_tracks {f : Token → Bool} (hf : ∀ t, f (w.relabel t) = f t) (ts : List Token)
    (hsound : w.Sound ts) : Tracks w false (expectThat f ts) (expectThat f (w.weave ts)) := by
  refine (expectThat_follows hf ts).tracks fun p p' _ h => ?_
  obtain ⟨t, ht, ht', hcons, hrest⟩ := id h
  cases hmarked : w.marked t with
  | false =>
    refine .inl (h.live hsound fun s hs => ?_)
    rw [ht] at hs
    cases hs
    exact hmarked
  | true =>
    refine .inr ⟨fun hfits => ?_, rfl, ?_⟩
    · have hfits := hfits p.tree (List.mem_singleton_self _)
      rw [ht, fits_token, hmarked] at hfits
      cases hfits
    · show nextIs .question p'.rest = true
      rw [hrest, w.after_of_marked hmarked]
      simp [nextIs]

/-- A token that must come next. -/
theorem readerTracks_expectThat {f : Token → Bool} (hf : ∀ t, f (w.relabel t) = f t)
    (hmark : ∀ m : Token, m.kind = .question → f m = false) :
    ReaderTracks w false (expectThat f) where
  tracks := expectThat_tracks hf
  mark us h := by
    obtain ⟨m, rest, rfl, hm⟩ := exists_of_atMark h
    rw [expectThat, hmark m hm]
    rfl

/-- A token that must come next and ends no type. -/
theorem readerTracks_sure {f : Token → Bool} (hf : ∀ t, f (w.relabel t) = f t)
    (hmark : ∀ m : Token, m.kind = .question → f m = false)
    (hends : ∀ t, f t = true → t.endsType = false) : ReaderTracks w true (expectThat f) where
  tracks ts hsound := by
    refine (expectThat_follows hf ts).tracks fun p p' hp h => .inl (h.live hsound fun t ht => ?_)
    obtain ⟨s, hs, hfs, hcons⟩ := expectThat_ok hp
    rw [hs] at ht
    cases ht
    rw [hcons] at hsound
    exact hsound.unmarked (hends _ hfs)
  mark := (readerTracks_expectThat hf hmark).mark

theorem readerTracks_identifier : ReaderTracks w false (expect .identifier) :=
  readerTracks_expectThat (by simp) (by intro m hm; rw [hm]; rfl)

/-- A token of a kind that ends no type. -/
theorem readerTracks_expect (kind : TokenKind) (hkind : kind.endsNoType = true) :
    ReaderTracks w true (expect kind) := by
  refine readerTracks_sure (by simp) ?_ ?_
  · intro m hm
    rw [hm]
    refine beq_false_of_ne ?_
    rintro rfl
    cases hkind
  · intro t ht
    rw [← beq_iff_eq.mp ht] at hkind
    exact endsType_of_kind hkind

theorem readerTracks_keyword (words : List String)
    (hwords : ∀ word ∈ words, predefinedTypes.contains word = false) :
    ReaderTracks w true (expectKeyword words) :=
  readerTracks_sure (by simp) (fun _ hm => isKeyword_of_question hm words)
    fun _ ht => endsType_of_isKeyword ht hwords

theorem readerTracks_word (words : List String) : ReaderTracks w false (expectWord words) :=
  readerTracks_expectThat (by simp) fun _ hm => isWord_of_question hm words

theorem GroupCovers.live {g : Group ts} {g' : Group us} (h : GroupCovers w g g')
    (hsound : w.Sound ts) : Live w (view g) (view g') where
  rest := h.2
  sound := sound_rest hsound g.toRun
  children hfits := by
    have hunmarked := (fits_tokens g.taken).mp hfits
    show g'.taken.map Tree.token = (g.taken.map Tree.token).map w.tree
    rw [h.1, w.weave_of_unmarked hunmarked, map_tree_tokens]
  kind := rfl
  name := rfl

/-- A bracketed group, but for a mark after it. -/
theorem GroupFollows.live {g : Group ts} {g' : Group us} (h : GroupFollows w g g')
    (hsound : w.Sound ts) : Live w (view g) (view g')
      ∨ ¬(view g).Fits w ∧ AtMark (view g').rest := by
  have hsound' : w.Sound (g.taken ++ g.rest) := by
    rw [g.complete]
    exact hsound
  rcases pending_cases hsound' with hnil | ⟨m, u, us, hm, hquestion, -, -⟩
  · exact .inl (GroupCovers.live (h.covers hnil) hsound)
  · refine .inr ⟨fun hfits => ?_, ?_⟩
    · have hunmarked := (fits_tokens g.taken).mp hfits
      rw [pending] at hm
      cases hlast : g.taken.getLast? with
      | none => rw [hlast] at hm; cases hm
      | some t =>
        rw [hlast] at hm
        have : w.after t = [] := w.after_of_unmarked (hunmarked t (List.mem_of_getLast? hlast))
        rw [Option.map_some, Option.getD_some, this] at hm
        cases hm
    · show nextIs .question g'.rest = true
      rw [h.2, hm]
      simp [nextIs, hquestion]

theorem balanced_tracks (ts : List Token) (hsound : w.Sound ts) :
    Tracks w false (balanced ts) (balanced (w.weave ts)) :=
  (balanced_follows ts).tracks fun _ _ _ h =>
    (h.live hsound).imp id fun ⟨hfits, hmark⟩ => ⟨hfits, rfl, hmark⟩

end Readers

/-! ## Steps -/

section Adding

variable {ts us : List Token} {a b : Bool}

theorem Live.add {r : Reading ts} {r' : Reading us} (h : Live w (view r) (view r'))
    {p : Parsed r.rest} {p' : Parsed r'.rest} (hp : Live w (view p) (view p')) :
    Live w (view (r.add p)) (view (r'.add p')) where
  rest := hp.rest
  sound := hp.sound
  children hfits := by
    show r'.children ++ [p'.tree] = (r.children ++ [p.tree]).map w.tree
    have hr : r'.children = r.children.map w.tree :=
      h.children fun c hc => hfits c (List.mem_append_left _ hc)
    have hp : [p'.tree] = [p.tree].map w.tree :=
      hp.children fun c hc => hfits c (List.mem_append_right _ hc)
    rw [hr, hp, List.map_append]
  kind := rfl
  name := rfl

/-- What a reader reads next is tracked together with what was read. -/
theorem Tracks.add {r : Reading ts} {r' : Reading us} (h : Live w (view r) (view r'))
    {o : Except Failure (Parsed r.rest)} {o' : Except Failure (Parsed r'.rest)}
    (ho : Tracks w a o o') : Tracks w a (o.map r.add) (o'.map r'.add) := by
  exact ho.map (fun _ _ hp => h.add hp) (fun _ hmark => hmark)
    fun _ hfits c hc => hfits c (List.mem_append_right _ hc)

theorem fits_of_add {r : Reading ts} {p : Parsed r.rest} (h : (view (r.add p)).Fits w) :
    (view r).Fits w := fun c hc => h c (List.mem_append_left _ hc)

variable {reader : (ts : List Token) → Except Failure (Parsed ts)}

theorem Tracks.next {r : Begun ts} {r' : Begun us} (hr : Live w (view r) (view r'))
    (h : Tracks w a (reader r.rest) (reader (w.weave r.rest))) :
    Tracks w a (r.next reader) (r'.next reader) := by
  have hrest : r'.rest = w.weave r.rest := hr.rest
  have hr : Live w (view r.toReading) (view r'.toReading) := hr
  rw [← hrest] at h
  exact h.add hr

theorem StepTracks.next (h : ReaderTracks w a reader) :
    StepTracks w a true fun ts (r : Begun ts) => r.next reader where
  live r _ hr := .next hr (h.tracks r.rest hr.sound)
  mark r' hmark := .inl (by rw [Begun.next, h.mark r'.rest hmark]; rfl)
  grows r q hq hfits := by
    obtain ⟨p, -, rfl⟩ := Begun.next_ok hq
    exact fits_of_add hfits

/-- What a reader reads next, as the first or one more child. -/
theorem StepTracks.add (h : ReaderTracks w a reader) :
    StepTracks w a true fun ts (r : Reading ts) => (reader r.rest).map r.add where
  live r r' hr := by
    have hreader := h.tracks r.rest hr.sound
    have hrest : r'.rest = w.weave r.rest := hr.rest
    rw [← hrest] at hreader
    exact hreader.add hr
  mark r' hmark := .inl (by rw [h.mark r'.rest hmark]; rfl)
  grows r q hq hfits := by
    obtain ⟨p, -, rfl⟩ := ok_of_map hq
    exact fits_of_add hfits

/-- A part that may be left out. -/
theorem StepTracks.nextIf {test : List Token → Bool} (htest : TestsAlike w test)
    (h : ∀ ts, w.Sound ts → test ts = true → Tracks w a (reader ts) (reader (w.weave ts))) :
    StepTracks w a false fun ts (r : Begun ts) => r.nextIf test reader where
  live r r' hr := by
    have hrest : r'.rest = w.weave r.rest := hr.rest
    have htests : test r'.rest = test r.rest := by rw [hrest, htest.weave r.rest hr.sound]
    rw [Begun.nextIf, Begun.nextIf, htests]
    split
    · next hr' => exact .next hr (h r.rest hr.sound hr')
    · exact .live hr
  mark r' hmark := by
    rw [Begun.nextIf, htest.mark r'.rest hmark]
    exact .inr ⟨rfl, r', rfl, hmark⟩
  grows r q hq hfits := by
    rw [Begun.nextIf] at hq
    split at hq
    · obtain ⟨p, -, rfl⟩ := Begun.next_ok hq
      exact fits_of_add hfits
    · cases hq
      exact hfits

theorem Live.extendRun {r : Begun ts} {r' : Begun us} (h : Live w (view r) (view r'))
    {s : Run r.rest} {s' : Run r'.rest} (hs : RunCovers w s s') :
    Live w (view (r.extend (.ofRun s))) (view (r'.extend (.ofRun s'))) where
  rest := hs.2
  sound := sound_rest h.sound s
  children hfits := by
    show r'.children ++ s'.taken.map Tree.token = (r.children ++ s.taken.map Tree.token).map w.tree
    have hr : r'.children = r.children.map w.tree :=
      h.children fun c hc => hfits c (List.mem_append_left _ hc)
    have hunmarked := (fits_tokens s.taken).mp fun c hc => hfits c (List.mem_append_right _ hc)
    rw [hr, hs.1, w.weave_of_unmarked hunmarked, List.map_append, map_tree_tokens]
  kind := rfl
  name := rfl

theorem fits_of_extend {r : Begun ts} {s : Reading r.rest} (h : (view (r.extend s)).Fits w) :
    (view r).Fits w := fun c hc => h c (List.mem_append_left _ hc)

theorem Live.optional {r : Begun ts} {r' : Begun us} (h : Live w (view r) (view r'))
    {f : Token → Bool} (hf : ∀ t, f (w.relabel t) = f t)
    (hends : ∀ t, f t = true → t.endsType = false) :
    Live w (view (r.optional f)) (view (r'.optional f)) := by
  have hsound : w.Sound r.rest := h.sound
  have hopt := optional_covers hf hends hsound
  have hrest : r'.rest = w.weave r.rest := h.rest
  rw [← hrest] at hopt
  exact h.extendRun hopt

theorem atMark_optional {us : List Token} {r' : Begun us} (h : AtMark (view r').rest)
    {f : Token → Bool} (hmark : ∀ m : Token, m.kind = .question → f m = false) :
    AtMark (view (r'.optional f)).rest := by
  have hrest : (Run.optional f r'.rest).rest = r'.rest := by
    cases hr : r'.rest with
    | nil => rfl
    | cons m us =>
      have hm : m.kind = .question := by
        have h : nextIs .question r'.rest = true := h
        simpa [hr, nextIs] using h
      rw [Run.optional, hmark m hm]
      rfl
  show nextIs .question (Run.optional f r'.rest).rest = true
  rw [hrest]
  exact h

/-- A token that may come next and ends no type, before more steps. -/
theorem StepTracks.optional {R : List Token → Type} [∀ ts, Viewed (R ts)] {f : Token → Bool}
    (hf : ∀ t, f (w.relabel t) = f t) (hmark : ∀ m : Token, m.kind = .question → f m = false)
    (hends : ∀ t, f t = true → t.endsType = false)
    {step : (ts : List Token) → Begun ts → Except Failure (R ts)} (h : StepTracks w a b step) :
    StepTracks w a b fun ts (r : Begun ts) => step ts (r.optional f) where
  live _ _ hr := h.live _ _ (hr.optional hf hends)
  mark _ hr' := h.mark _ (atMark_optional hr' hmark)
  grows _ q hq hfits := fits_of_extend (h.grows _ q hq hfits)

theorem Live.finish {r : Begun ts} {r' : Begun us} (h : Live w (view r) (view r'))
    {kind : NodeKind} (hkind : kind.isType = false) :
    Live w (view (r.finish kind)) (view (r'.finish kind)) where
  rest := h.rest
  sound := h.sound
  children hfits := by
    show [Tree.node kind r'.children] = [Tree.node kind r.children].map w.tree
    have hall := (fits_node hkind r.children).mp (hfits _ (List.mem_singleton_self _))
    have hr : r'.children = r.children.map w.tree := h.children hall
    rw [hr, List.map_singleton, tree_node hkind]
  kind := rfl
  name := rfl

/-- A finished node. -/
theorem StepTracks.finish (kind : NodeKind) (hkind : kind.isType = false) :
    StepTracks w true false fun ts (r : Begun ts) =>
      (Pure.pure (r.finish kind) : Except Failure (Parsed ts)) :=
  .pure (fun _ _ h => h.finish hkind) (fun _ => rfl) fun r h =>
    (fits_node hkind r.children).mp (h _ (List.mem_singleton_self _))

/-- A finished shape. -/
theorem StepTracks.shape (kind : NodeKind) :
    StepTracks w true false fun ts (r : Begun ts) =>
      (Pure.pure ⟨kind, r⟩ : Except Failure (Shape ts)) :=
  .pure (fun _ _ h => ⟨h.rest, h.sound, h.children, rfl, rfl⟩) (fun _ => rfl) fun _ h => h

theorem Live.ofGroup {g : Group ts} {g' : Group us} (h : Live w (view g) (view g'))
    {kind : NodeKind} (hkind : kind.isType = false) :
    Live w (view (Parsed.ofGroup kind g)) (view (Parsed.ofGroup kind g')) where
  rest := h.rest
  sound := h.sound
  children hfits := by
    show [Tree.node kind (g'.taken.map Tree.token)]
      = [Tree.node kind (g.taken.map Tree.token)].map w.tree
    have hall := (fits_node hkind _).mp (hfits _ (List.mem_singleton_self _))
    have hg : g'.taken.map Tree.token = (g.taken.map Tree.token).map w.tree := h.children hall
    rw [hg, List.map_singleton, tree_node hkind]
  kind := rfl
  name := rfl

/-- A group as a node. -/
theorem Tracks.ofGroup {o : Except Failure (Group ts)} {o' : Except Failure (Group us)}
    (h : Tracks w a o o') {kind : NodeKind} (hkind : kind.isType = false) :
    Tracks w a (o.map (Parsed.ofGroup kind)) (o'.map (Parsed.ofGroup kind)) :=
  h.map (fun _ _ hg => hg.ofGroup hkind) (fun _ hmark => hmark)
    fun _ hfits => (fits_node hkind _).mp (hfits _ (List.mem_singleton_self _))

end Adding

/-! ## More steps -/

theorem map_map {ε α β γ : Type} (x : Except ε α) (f : α → β) (g : β → γ) :
    (x.map f).map g = x.map fun a => g (f a) := by cases x <;> rfl

/-- A reader that fails at a mark where what was read does not fit. -/
theorem Tracks.stuck {α β : Type} [Viewed α] [Viewed β] {strict : Bool} {o : Except Failure α}
    {o' : Except Failure β} (ho' : o' = .error .mismatch)
    (hfits : ∀ a, o = .ok a → ¬(view a).Fits w) : Tracks w strict o o' := by
  cases o with
  | error e =>
    cases e with
    | fatal cause token => trivial
    | mismatch => exact .inl ho'
  | ok a => exact .inr ⟨hfits a rfl, .inl ho'⟩

/-- Where the first outcome fails, both go on alike. -/
theorem Follows.tracksError {α β γ δ : Type} [Viewed γ] [Viewed δ] {live : α → β → Prop}
    {strict : Bool} {o : Except Failure α} {o' : Except Failure β} (h : Follows live o o')
    {e : Failure} (ho : o = .error e) {x : Except Failure γ} {x' : Except Failure δ}
    (hx : x = .error e) (hx' : o' = .error .mismatch → x' = .error .mismatch) :
    Tracks w strict x x' := by
  subst hx
  cases e with
  | fatal cause token => trivial
  | mismatch => exact .inl (hx' (h.mismatch ho))

theorem Stuck.mismatch {α : Type} [Viewed α] {o : Except Failure α} (h : Stuck true o) :
    o = .error .mismatch := h.resolve_right fun h => by cases h.1

theorem TestsAlike.agree {test : List Token → Bool} (h : TestsAlike w test) {ts us : List Token}
    {r : Reading ts} {r' : Reading us} (hr : Live w (view r) (view r')) :
    test r'.rest = test r.rest := by
  have hrest : r'.rest = w.weave r.rest := hr.rest
  rw [hrest, h.weave r.rest hr.sound]

theorem TestsAlike.agree_begun {test : List Token → Bool} (h : TestsAlike w test)
    {ts us : List Token} {r : Begun ts} {r' : Begun us} (hr : Live w (view r) (view r')) :
    test r'.rest = test r.rest := by
  have hr : Live w (view r.toReading) (view r'.toReading) := hr
  exact h.agree hr

/-- A part is read, and then more. -/
theorem Tracks.round {R : List Token → Type} [∀ ts, Viewed (R ts)] {a b : Bool}
    {reader : (ts : List Token) → Except Failure (Parsed ts)} {ts us : List Token} {r : Reading ts}
    {r' : Reading us} (hr : Live w (view r) (view r'))
    (hreader : Tracks w a (reader r.rest) (reader (w.weave r.rest)))
    {more : Parsed r.rest → Except Failure (R ts)} {more' : Parsed r'.rest → Except Failure (R us)}
    (hlive : ∀ p p', Live w (view (r.add p)) (view (r'.add p')) → Tracks w b (more p) (more' p'))
    (hmark : ∀ p' : Parsed r'.rest, a = false → AtMark p'.rest → Stuck b (more' p'))
    (hgrows : ∀ p q, more p = .ok q → (view q).Fits w → (view (r.add p)).Fits w) :
    Tracks w b (reader r.rest >>= more) (reader r'.rest >>= more') := by
  have hrest : r'.rest = w.weave r.rest := hr.rest
  rw [← hrest] at hreader
  have hstuck : Stuck a (reader r'.rest) → Stuck b (reader r'.rest >>= more') := by
    rintro (h | ⟨ha, p', h, hp'⟩)
    · rw [h]
      exact .inl rfl
    · rw [h]
      exact hmark p' ha hp'
  cases hp : reader r.rest with
  | error e =>
    rw [hp] at hreader
    cases e with
    | fatal cause token => trivial
    | mismatch => exact hstuck hreader
  | ok p =>
    rw [hp] at hreader
    rcases hreader with ⟨p', hp', hlive'⟩ | ⟨hfits, hstuck'⟩
    · rw [hp']
      exact hlive p p' (hr.add hlive')
    · show Tracks w b (more p) _
      cases hq : more p with
      | error e =>
        cases e with
        | fatal cause token => trivial
        | mismatch => exact hstuck hstuck'
      | ok q =>
        refine .inr ⟨fun hall => hfits fun c hc => ?_, hstuck hstuck'⟩
        exact hgrows p q hq hall c (List.mem_append_right _ hc)

theorem atMark_after {t : Token} (h : w.marked t = true) (us : List Token) :
    AtMark (w.after t ++ us) := by
  rw [w.after_of_marked h]
  simp [AtMark, nextIs]

theorem fits_finish {ts : List Token} {r : Begun ts} {kind : NodeKind} (hkind : kind.isType = false)
    (h : (view (r.finish kind)).Fits w) : (view r).Fits w :=
  (fits_node hkind r.children).mp (h _ (List.mem_singleton_self _))

theorem Begun.Adds.grows {P : Tree → Prop} {ts : List Token} {r s : Begun ts} (h : r.Adds P s)
    (hfits : (view s).Fits w) : (view r).Fits w := by
  obtain ⟨cs, hcs, -⟩ := h
  intro c hc
  refine hfits c ?_
  show c ∈ s.children
  rw [hcs]
  exact List.mem_append_left _ hc

/-- A token of a kind that ends no type comes next for both readers or for none. -/
theorem Live.expect (kind : TokenKind) (hkind : kind.endsNoType = true) {ts us : List Token}
    {r : Begun ts} {r' : Begun us} (hr : Live w (view r) (view r')) :
    (∃ p p', expect kind r.rest = .ok p ∧ expect kind r'.rest = .ok p'
        ∧ Live w (view (r.add p)) (view (r'.add p')))
      ∨ expect kind r.rest = .error .mismatch ∧ expect kind r'.rest = .error .mismatch := by
  have hrest : r'.rest = w.weave r.rest := hr.rest
  have hsound : w.Sound r.rest := hr.sound
  have hr : Live w (view r.toReading) (view r'.toReading) := hr
  have hexpect := expect_follows (w := w) kind r.rest
  rw [← hrest] at hexpect
  cases hp : Grammar.expect kind r.rest with
  | error e =>
    cases expect_error hp
    exact .inr ⟨rfl, hexpect.mismatch hp⟩
  | ok p =>
    obtain ⟨p', hp', htoken⟩ := hexpect.ok hp
    refine .inl ⟨p, p', rfl, hp', hr.add (htoken.live hsound fun t ht => ?_)⟩
    have hends := ends_of_expect hp hkind t ht
    obtain ⟨s, hs, -, hcons, -⟩ := htoken
    rw [hs] at ht
    cases ht
    rw [hcons] at hsound
    exact hsound.unmarked hends

/-- What a reader reads next as a child, and more steps. -/
theorem StepTracks.addBind {R : List Token → Type} [∀ ts, Viewed (R ts)] {a a' b' : Bool}
    {reader : (ts : List Token) → Except Failure (Parsed ts)} (h : ReaderTracks w a reader)
    {step : (ts : List Token) → Begun ts → Except Failure (R ts)} (h' : StepTracks w a' b' step) :
    StepTracks w (a' && (a || b')) true fun ts (r : Reading ts) =>
      reader r.rest >>= fun p => step ts (r.add p) := by
  have hbind := (StepTracks.add h).bind h'
  have heq : (fun ts (r : Reading ts) => reader r.rest >>= fun p => step ts (r.add p))
      = fun ts r => (reader r.rest).map r.add >>= step ts := by
    funext ts r
    cases reader r.rest <;> rfl
  rw [heq]
  exact hbind

/-- The first tree that was read. -/
theorem StepTracks.ofParsed {R : List Token → Type} [∀ ts, Viewed (R ts)] {a b : Bool}
    {step : (ts : List Token) → Begun ts → Except Failure (R ts)} (h : StepTracks w a b step) :
    StepTracks w a b fun ts (p : Parsed ts) => step ts (Begun.ofParsed p) where
  live _ _ hp := h.live _ _ hp
  mark _ hmark := h.mark _ hmark
  grows _ q hq hfits := h.grows _ q hq hfits

/-! ## Groups and runs -/

section Groups

variable {ts us : List Token}

theorem Live.consToken (t : Token) {g : Group ts} {g' : Group us}
    (h : Live w (view g) (view g')) :
    Live w (view (Group.cons t g.toRun)) (view (Group.cons (w.relabel t) g'.toRun)) where
  rest := h.rest
  sound := h.sound
  children hfits := by
    have hg : g'.taken.map Tree.token = (g.taken.map Tree.token).map w.tree :=
      h.children fun c hc => hfits c (List.mem_cons_of_mem _ hc)
    show Tree.token (w.relabel t) :: g'.taken.map Tree.token
      = (Tree.token t :: g.taken.map Tree.token).map w.tree
    rw [hg, List.map_cons, tree_token]
  kind := rfl
  name := rfl

theorem Live.appendGroup {g : Group ts} {g' : Group us} (h : Live w (view g) (view g'))
    {more : Group g.rest} {more' : Group g'.rest} (hmore : Live w (view more) (view more')) :
    Live w (view (g.append more.toRun)) (view (g'.append more'.toRun)) where
  rest := hmore.rest
  sound := hmore.sound
  children hfits := by
    have hfits : ∀ c ∈ (g.taken ++ more.taken).map Tree.token, w.Fits c := hfits
    rw [List.map_append] at hfits
    have hg : g'.taken.map Tree.token = (g.taken.map Tree.token).map w.tree :=
      h.children fun c hc => hfits c (List.mem_append_left _ hc)
    have hmore : more'.taken.map Tree.token = (more.taken.map Tree.token).map w.tree :=
      hmore.children fun c hc => hfits c (List.mem_append_right _ hc)
    show (g'.taken ++ more'.taken).map Tree.token = ((g.taken ++ more.taken).map Tree.token).map w.tree
    rw [List.map_append, List.map_append, hg, hmore, List.map_append]
  kind := rfl
  name := rfl

theorem fits_of_appendGroup {g : Group ts} {more : Group g.rest}
    (h : (view (g.append more.toRun)).Fits w) : (view g).Fits w ∧ (view more).Fits w := by
  have h : ∀ c ∈ (g.taken ++ more.taken).map Tree.token, w.Fits c := h
  rw [List.map_append] at h
  exact ⟨fun c hc => h c (List.mem_append_left _ hc), fun c hc => h c (List.mem_append_right _ hc)⟩

theorem fits_of_consToken {t : Token} {g : Group ts}
    (h : (view (Group.cons t g.toRun)).Fits w) : w.marked t = false ∧ (view g).Fits w :=
  ⟨(fits_token t).mp (h _ List.mem_cons_self), fun c hc => h c (List.mem_cons_of_mem _ hc)⟩

end Groups

theorem Live.extendGroup {ts us : List Token} {r : Begun ts} {r' : Begun us}
    (h : Live w (view r) (view r')) {g : Group r.rest} {g' : Group r'.rest}
    (hg : Live w (view g) (view g')) :
    Live w (view (r.extend (.ofRun g.toRun))) (view (r'.extend (.ofRun g'.toRun))) where
  rest := hg.rest
  sound := hg.sound
  children hfits := by
    show r'.children ++ g'.taken.map Tree.token = (r.children ++ g.taken.map Tree.token).map w.tree
    have hr : r'.children = r.children.map w.tree :=
      h.children fun c hc => hfits c (List.mem_append_left _ hc)
    have hg : g'.taken.map Tree.token = (g.taken.map Tree.token).map w.tree :=
      hg.children fun c hc => hfits c (List.mem_append_right _ hc)
    rw [hr, hg, List.map_append]
  kind := rfl
  name := rfl

/-- A bracketed group, as bare tokens. -/
theorem StepTracks.group : StepTracks w false true fun ts (r : Begun ts) =>
    (balanced r.rest).map fun g => r.extend (.ofRun g.toRun) where
  live r r' hr := by
    have hgroup := balanced_tracks r.rest hr.sound
    have hrest : r'.rest = w.weave r.rest := hr.rest
    rw [← hrest] at hgroup
    exact hgroup.map (fun _ _ hg => hr.extendGroup hg) (fun _ h => h)
      fun _ h c hc => h c (List.mem_append_right _ hc)
  mark r' hmark := by
    have hgroup : balanced r'.rest = .error .mismatch := balanced_mark hmark
    rw [hgroup]
    exact .inl rfl
  grows r q hq hfits := by
    obtain ⟨g, -, rfl⟩ := ok_of_map hq
    exact fits_of_extend hfits

theorem Live.addRun {ts us : List Token} {r : Reading ts} {r' : Reading us}
    (h : Live w (view r) (view r')) {kind : NodeKind} (hkind : kind.isType = false)
    {s : Run r.rest} {s' : Run r'.rest} (hs : RunCovers w s s') :
    Live w (view (r.addRun kind s)) (view (r'.addRun kind s')) where
  rest := hs.2
  sound := sound_rest h.sound s
  children hfits := by
    show r'.children ++ [Tree.node kind (s'.taken.map Tree.token)]
      = (r.children ++ [Tree.node kind (s.taken.map Tree.token)]).map w.tree
    have hr : r'.children = r.children.map w.tree :=
      h.children fun c hc => hfits c (List.mem_append_left _ hc)
    have hnode := hfits _ (List.mem_append_right _ (List.mem_singleton_self _))
    have hunmarked := (fits_tokens s.taken).mp ((fits_node hkind _).mp hnode)
    rw [hr, hs.1, w.weave_of_unmarked hunmarked, List.map_append, List.map_singleton,
      tree_node hkind, map_tree_tokens]
  kind := rfl
  name := rfl

theorem fits_of_addRun {ts : List Token} {r : Reading ts} {kind : NodeKind}
    (hkind : kind.isType = false) {s : Run r.rest} (h : (view (r.addRun kind s)).Fits w) :
    (view r).Fits w ∧ ∀ t ∈ s.taken, w.marked t = false := by
  refine ⟨fun c hc => h c (List.mem_append_left _ hc), ?_⟩
  have hnode := h _ (List.mem_append_right _ (List.mem_singleton_self _))
  exact (fits_tokens s.taken).mp ((fits_node hkind _).mp hnode)

/-- Reads a bracketed group as one node. -/
def bracketed (kind : NodeKind) (ts : List Token) : Except Failure (Parsed ts) :=
  (balanced ts).map (.ofGroup kind)

theorem bracketed_tracks {kind : NodeKind} (hkind : kind.isType = false) {ts : List Token}
    (hsound : w.Sound ts) : Tracks w false (bracketed kind ts) (bracketed kind (w.weave ts)) :=
  (balanced_tracks ts hsound).ofGroup hkind

/-- A group in braces has no mark after it. -/
theorem bracketed_brace_tracks {kind : NodeKind} (hkind : kind.isType = false) {ts : List Token}
    (hsound : w.Sound ts) (h : nextIs .lbrace ts = true) :
    Tracks w true (bracketed kind ts) (bracketed kind (w.weave ts)) := by
  cases ts with
  | nil => cases h
  | cons t ts =>
    have ht : t.kind = .lbrace := by simpa [nextIs] using h
    have htracks : Tracks w true (balanced (t :: ts)) (balanced (w.weave (t :: ts))) :=
      (balanced_brace_covers ht hsound).tracks fun _ _ _ h => .inl (h.live hsound)
    exact htracks.ofGroup hkind

end NullableMarker.Grammar
