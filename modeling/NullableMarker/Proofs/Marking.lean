import NullableMarker.Proofs.Sites

/-!
# What marking does to the tokens

Marking keeps the tokens of a tree and their order. After the last token of each type that is marked
comes a question mark, which takes over the trailing trivia of that token.

* `expand` — tokens with a mark after some of them
* `Tree.Orderly.marksOnly` — the tokens of a marked tree
-/

namespace NullableMarker

/-- The token with a mark right after it, which takes over the trailing trivia. -/
def Token.withMark (t : Token) : List Token :=
  [{ t with trailing := [] }, Tree.questionMark t.trailing]

/-- Tokens, each told whether a mark follows it, with those marks. -/
def expand (flagged : List (Token × Bool)) : List Token :=
  flagged.flatMap fun f => if f.2 then f.1.withMark else [f.1]

/-- The tokens that a mark follows. -/
def flaggedTokens (flagged : List (Token × Bool)) : List Token :=
  (flagged.filter (·.2)).map (·.1)

/-- Tokens without a mark. -/
def unflagged (ts : List Token) : List (Token × Bool) := ts.map (·, false)

@[simp] theorem expand_nil : expand [] = [] := rfl

@[simp] theorem expand_append (as bs : List (Token × Bool)) :
    expand (as ++ bs) = expand as ++ expand bs := by simp [expand]

@[simp] theorem flaggedTokens_nil : flaggedTokens [] = [] := rfl

@[simp] theorem flaggedTokens_append (as bs : List (Token × Bool)) :
    flaggedTokens (as ++ bs) = flaggedTokens as ++ flaggedTokens bs := by simp [flaggedTokens]

@[simp] theorem map_fst_unflagged (ts : List Token) : (unflagged ts).map (·.1) = ts := by
  simp [unflagged, Function.comp_def]

@[simp] theorem expand_unflagged (ts : List Token) : expand (unflagged ts) = ts := by
  induction ts with
  | nil => rfl
  | cons t ts ih => simpa [expand, unflagged] using ih

@[simp] theorem flaggedTokens_unflagged (ts : List Token) : flaggedTokens (unflagged ts) = [] := by
  simp [flaggedTokens, unflagged]

@[simp] theorem expand_flagged (t : Token) (fs : List (Token × Bool)) :
    expand ((t, true) :: fs) = t.withMark ++ expand fs := rfl

@[simp] theorem flaggedTokens_flagged (t : Token) (fs : List (Token × Bool)) :
    flaggedTokens ((t, true) :: fs) = t :: flaggedTokens fs := rfl

/-- Marks come between the end of a type and an identifier. -/
def SoundFlags : List (Token × Bool) → Prop
  | [] => True
  | f :: fs =>
    (f.2 = true → f.1.endsType = true ∧ fs.head?.any (·.1.kind == .identifier) = true)
      ∧ SoundFlags fs

theorem SoundFlags.append {as bs : List (Token × Bool)} (ha : SoundFlags as) (hb : SoundFlags bs) :
    SoundFlags (as ++ bs) := by
  induction as with
  | nil => exact hb
  | cons f as ih =>
    refine ⟨?_, ih ha.2⟩
    intro hf
    obtain ⟨hends, hident⟩ := ha.1 hf
    refine ⟨hends, ?_⟩
    cases as with
    | nil => cases hident
    | cons g as => exact hident

theorem soundFlags_unflagged (ts : List Token) : SoundFlags (unflagged ts) := by
  induction ts with
  | nil => trivial
  | cons t ts ih => exact ⟨fun h => absurd h (by simp), ih⟩

theorem SoundFlags.endsType {fs : List (Token × Bool)} (h : SoundFlags fs) :
    ∀ t ∈ flaggedTokens fs, t.endsType = true := by
  induction fs with
  | nil => simp
  | cons f fs ih =>
    obtain ⟨t, flag⟩ := f
    cases flag with
    | false => exact ih h.2
    | true =>
      intro u hu
      rcases List.mem_cons.mp hu with rfl | hu
      · exact (h.1 rfl).1
      · exact ih h.2 u hu

namespace Tree

/-! ## Marks on types -/

mutual

/-- Other trailing trivia changes the last token only. -/
theorem tokens_withTrailing (trivia : List Trivia) : (t : Tree) → {init : List Token} →
    {last : Token} → t.tokens = init ++ [last] →
    (t.withTrailing trivia).tokens = init ++ [{ last with trailing := trivia }]
  | token t, init, last, h => by
    have hinit : init = [] ∧ t = last := by
      cases init with
      | nil => simpa using h
      | cons a init => simp at h
    obtain ⟨rfl, rfl⟩ := hinit
    simp [withTrailing]
  | node k cs, init, last, h => by
    rw [withTrailing, tokens_node]
    exact tokensAll_withTrailingOf trivia cs (by simpa using h)

theorem tokensAll_withTrailingOf (trivia : List Trivia) : (ts : List Tree) → {init : List Token} →
    {last : Token} → tokensAll ts = init ++ [last] →
    tokensAll (withTrailingOf trivia ts) = init ++ [{ last with trailing := trivia }]
  | [], init, last, h => by simp at h
  | t :: ts, init, last, h => by
    rw [withTrailingOf, lastTokenOf?_eq]
    rw [tokensAll_cons] at h
    split
    · next hsome =>
      obtain ⟨u, hu⟩ := Option.isSome_iff_exists.mp hsome
      obtain ⟨before, hbefore⟩ := List.getLast?_eq_some_iff.mp hu
      rw [hbefore, ← List.append_assoc] at h
      obtain ⟨rfl, hlast⟩ := List.append_inj' h rfl
      cases hlast
      rw [tokensAll_cons, tokensAll_withTrailingOf trivia ts hbefore, List.append_assoc]
    · next hnone =>
      have hempty : tokensAll ts = [] := by
        rw [Option.not_isSome_iff_eq_none, List.getLast?_eq_none_iff] at hnone
        exact hnone
      rw [hempty, List.append_nil] at h
      rw [tokensAll_cons, hempty, List.append_nil]
      exact tokens_withTrailing trivia t h

end

/-- A nullable type has the tokens of the type, with a mark after the last. -/
theorem tokens_makeNullable {t : Tree} {init : List Token} {last : Token}
    (h : t.tokens = init ++ [last]) : t.makeNullable.tokens = init ++ last.withMark := by
  have htrailing : t.trailing = last.trailing := by
    rw [trailing, lastToken?_eq, h]
    simp
  rw [makeNullable, tokens_node, tokensAll_cons, tokens_withTrailing [] t h, htrailing]
  simp [Token.withMark]

/-! ## Bare trees are left alone -/

mutual

theorem Bare.mark (v : Verdicts) : (t : Tree) → t.Bare → t.mark v = t
  | token _, _ => by rw [Tree.mark]
  | node k cs, h => by
    obtain ⟨hk, hcs⟩ := (bare_node k cs).mp h
    rw [Tree.mark, isSite_of_isDeclared hk, markAll_of_bare v cs hcs]
    rfl

theorem markAll_of_bare (v : Verdicts) : (ts : List Tree) → (∀ t ∈ ts, t.Bare) → markAll v ts = ts
  | [], _ => by rw [markAll]
  | t :: ts, h => by
    rw [markAll, Bare.mark v t (h t (by simp)),
      markAll_of_bare v ts fun u hu => h u (by simp [hu])]

end

/-! ## Declarations with a type -/

section Typed

variable {cs pre post : List Tree} {type : Tree}

theorem Typed.type?_eq (h : Typed cs pre type post) (k : NodeKind) :
    (node k cs).type? = some type := by
  have hpre : pre.find? (·.isNode NodeKind.isType) = none := by
    rw [List.find?_eq_none]
    intro c hc
    rw [(h.pre_plain c hc).2]
    simp
  rw [type?, child?, children, h.split, List.find?_append, hpre, List.find?_cons,
    h.type_isType.isType]
  rfl

/-- Only the type of a declaration is replaced. -/
theorem Typed.withType_eq (h : Typed cs pre type post) (k : NodeKind) (new : Tree) :
    (node k cs).withType new = node k (pre ++ new :: post) := by
  have hsame : ∀ {ds : List Tree}, (∀ c ∈ ds, c.Plain) →
      ds.map (fun c => if c = type then new else c) = ds := by
    intro ds hds
    refine (List.map_congr_left (g := id) fun c hc => if_neg ?_).trans (List.map_id ds)
    rintro rfl
    have := (hds c hc).2
    rw [h.type_isType.isType] at this
    cases this
  rw [withType, h.type?_eq k]
  show node k (cs.map fun c => if c = type then new else c) = _
  rw [h.split, List.map_append, List.map_cons, hsame h.pre_plain, hsame h.post_plain, if_pos rfl]

/-- The last token of the type. -/
theorem IsType.exists_last (h : type.IsType) :
    ∃ init last, type.tokens = init ++ [last] ∧ last.endsType = true := by
  cases hlast : type.tokens.getLast? with
  | none =>
    have := h.ends
    rw [hlast] at this
    cases this
  | some last =>
    obtain ⟨init, hinit⟩ := List.getLast?_eq_some_iff.mp hlast
    refine ⟨init, last, hinit, ?_⟩
    have := h.ends
    rw [hlast] at this
    exact this

end Typed

/-! ## Marked trees -/

/-- The last token of the declared type. -/
def typeEnd? (t : Tree) : Option Token := t.type?.bind (·.lastToken?)

/-- The declarations whose types get a mark. -/
def marked (v : Verdicts) (sites : List Tree) : List Tree :=
  sites.filter fun n => v.isOptional n.offset? && n.needsMark

/-- The tokens that a tree has after marking, given by the tokens that a mark follows. -/
structure MarkedAs (v : Verdicts) (before after : List Token) (sites : List Tree)
    (flagged : List (Token × Bool)) : Prop where
  tokens : flagged.map (·.1) = before
  expanded : after = expand flagged
  ends : (marked v sites).map typeEnd? = (flaggedTokens flagged).map some
  sound : SoundFlags flagged

theorem MarkedAs.append {v : Verdicts} {before before' after after' : List Token}
    {sites sites' : List Tree} {fs gs : List (Token × Bool)} (h : MarkedAs v before after sites fs)
    (h' : MarkedAs v before' after' sites' gs) :
    MarkedAs v (before ++ before') (after ++ after') (sites ++ sites') (fs ++ gs) := by
  refine ⟨?_, ?_, ?_, h.sound.append h'.sound⟩
  · rw [List.map_append, h.tokens, h'.tokens]
  · rw [expand_append, h.expanded, h'.expanded]
  · rw [marked, List.filter_append, List.map_append, ← marked, ← marked, h.ends, h'.ends,
      flaggedTokens_append, List.map_append]

theorem MarkedAs.unmarked (v : Verdicts) (ts : List Token) : MarkedAs v ts ts [] (unflagged ts) :=
  ⟨by simp, by simp, by simp [marked], soundFlags_unflagged ts⟩

mutual

/-- The tokens that are marked come last in the types of declarations. -/
def MarksAtTypes (isMarked : Token → Bool) : Tree → Prop
  | token t => isMarked t = false
  | node kind children =>
    if kind.isSite then
      (∀ t ∈ tokensAll children, isMarked t = false)
        ∨ ∃ pre type post, Typed children pre type post ∧ (∀ t ∈ tokensAll pre, isMarked t = false)
          ∧ (∀ t ∈ type.tokens.dropLast, isMarked t = false)
          ∧ ∀ t ∈ tokensAll post, isMarked t = false
    else if kind.isType then ∀ t ∈ tokensAll children, isMarked t = false
    else MarksAtTypesAll isMarked children

/-- So do those of a list of trees. -/
def MarksAtTypesAll (isMarked : Token → Bool) : List Tree → Prop
  | [] => True
  | t :: ts => t.MarksAtTypes isMarked ∧ MarksAtTypesAll isMarked ts

end

section MarksAtTypes

variable {isMarked : Token → Bool}

theorem marksAtTypesAll_iff (ts : List Tree) :
    MarksAtTypesAll isMarked ts ↔ ∀ t ∈ ts, t.MarksAtTypes isMarked := by
  induction ts with
  | nil => simp [MarksAtTypesAll]
  | cons t ts ih => simp [MarksAtTypesAll, ih]

theorem marksAtTypes_site {k : NodeKind} (hk : k.isSite = true) (cs : List Tree) :
    (node k cs).MarksAtTypes isMarked ↔ (∀ t ∈ tokensAll cs, isMarked t = false)
      ∨ ∃ pre type post, Typed cs pre type post ∧ (∀ t ∈ tokensAll pre, isMarked t = false)
        ∧ (∀ t ∈ type.tokens.dropLast, isMarked t = false)
        ∧ ∀ t ∈ tokensAll post, isMarked t = false := by
  rw [MarksAtTypes, if_pos hk]

theorem isSite_of_isType {k : NodeKind} (h : k.isType = true) : k.isSite = false := by
  cases k <;> first | rfl | cases h

theorem marksAtTypes_type {k : NodeKind} (hk : k.isType = true) (cs : List Tree) :
    (node k cs).MarksAtTypes isMarked ↔ ∀ t ∈ tokensAll cs, isMarked t = false := by
  rw [MarksAtTypes, isSite_of_isType hk, hk]
  rfl

theorem marksAtTypes_node {k : NodeKind} (hsite : k.isSite = false) (htype : k.isType = false)
    (cs : List Tree) :
    (node k cs).MarksAtTypes isMarked ↔ ∀ c ∈ cs, c.MarksAtTypes isMarked := by
  rw [MarksAtTypes, hsite, htype, ← marksAtTypesAll_iff]
  rfl

mutual

theorem marksAtTypes_of_unmarked : (t : Tree) → (∀ s ∈ t.tokens, isMarked s = false) →
    t.MarksAtTypes isMarked
  | token t, h => by
    rw [MarksAtTypes]
    exact h t (by simp)
  | node k cs, h => by
    rw [tokens_node] at h
    unfold MarksAtTypes
    split
    · exact .inl h
    split
    · exact h
    · exact marksAtTypesAll_of_unmarked cs h

theorem marksAtTypesAll_of_unmarked : (ts : List Tree) →
    (∀ s ∈ tokensAll ts, isMarked s = false) → MarksAtTypesAll isMarked ts
  | [], _ => trivial
  | t :: ts, h => by
    rw [tokensAll_cons] at h
    exact ⟨marksAtTypes_of_unmarked t fun s hs => h s (List.mem_append_left _ hs),
      marksAtTypesAll_of_unmarked ts fun s hs => h s (List.mem_append_right _ hs)⟩

end

end MarksAtTypes

/-- Tokens that are told apart as flagged. -/
def Flags (isMarked : Token → Bool) (flagged : List (Token × Bool)) : Prop :=
  ∀ f ∈ flagged, isMarked f.1 = f.2

theorem Flags.unflagged {isMarked : Token → Bool} {ts : List Token}
    (h : Flags isMarked (unflagged ts)) : ∀ t ∈ ts, isMarked t = false :=
  fun t ht => h (t, false) (List.mem_map.mpr ⟨t, ht, rfl⟩)

theorem flags_append {isMarked : Token → Bool} {fs gs : List (Token × Bool)} :
    Flags isMarked (fs ++ gs) ↔ Flags isMarked fs ∧ Flags isMarked gs := List.forall_mem_append

/-- The tree keeps its tokens, with marks after the ends of the types of some declarations. -/
def Marks (v : Verdicts) (t : Tree) : Prop :=
  ∃ flagged, MarkedAs v t.tokens (t.mark v).tokens t.sites flagged

/-- It does, and no other token is marked. -/
def MarksOnly (v : Verdicts) (t : Tree) : Prop :=
  ∃ flagged, MarkedAs v t.tokens (t.mark v).tokens t.sites flagged
    ∧ ∀ isMarked, Flags isMarked flagged → t.MarksAtTypes isMarked

theorem marksOnly_of_bare (v : Verdicts) {t : Tree} (h : t.Bare) : MarksOnly v t := by
  rw [MarksOnly, Bare.mark v t h, h.sites]
  exact ⟨_, .unmarked v t.tokens, fun _ hflags => marksAtTypes_of_unmarked t hflags.unflagged⟩

theorem marksOnlyAll {v : Verdicts} {ts : List Tree} (h : ∀ t ∈ ts, MarksOnly v t) :
    ∃ flagged, MarkedAs v (tokensAll ts) (tokensAll (markAll v ts)) (sitesAll ts) flagged
      ∧ ∀ isMarked, Flags isMarked flagged → ∀ t ∈ ts, t.MarksAtTypes isMarked := by
  induction ts with
  | nil =>
    rw [markAll]
    exact ⟨_, .unmarked v [], fun _ _ t ht => by cases ht⟩
  | cons t ts ih =>
    obtain ⟨fs, hfs, ht⟩ := h t (by simp)
    obtain ⟨gs, hgs, hts⟩ := ih fun u hu => h u (by simp [hu])
    rw [markAll, tokensAll_cons, tokensAll_cons, sitesAll_cons]
    refine ⟨fs ++ gs, hfs.append hgs, fun isMarked hflags => ?_⟩
    obtain ⟨hfst, hsnd⟩ := flags_append.mp hflags
    intro u hu
    rcases List.mem_cons.mp hu with rfl | hu
    · exact ht isMarked hfst
    · exact hts isMarked hsnd u hu

/-- A declaration with a type gets at most one mark, after the type. -/
theorem marksOnly_of_typed (v : Verdicts) {k : NodeKind} (hk : k.isSite = true)
    {cs pre post : List Tree} {type : Tree} (h : Typed cs pre type post) :
    MarksOnly v (node k cs) := by
  have hsites : (node k cs).sites = [node k cs] := by
    rw [sites_node, hk, sitesAll_of_bare h.bare]
    rfl
  have hmark : (node k cs).mark v = if v.isOptional (node k cs).offset? && (node k cs).needsMark
      then node k (pre ++ type.makeNullable :: post) else node k cs := by
    rw [mark, hk, markAll_of_bare v cs h.bare, needsMark, h.type?_eq k, Bool.true_and,
      Option.any_some]
    cases v.isOptional (node k cs).offset? with
    | false => rfl
    | true =>
      rw [if_pos rfl, markType, h.type?_eq k]
      dsimp only
      rw [h.withType_eq k]
      cases type.isNullable <;> rfl
  rw [MarksOnly, hmark, hsites]
  cases hneeds : v.isOptional (node k cs).offset? && (node k cs).needsMark with
  | false =>
    refine ⟨unflagged (node k cs).tokens, ⟨by simp, by simp, ?_, soundFlags_unflagged _⟩,
      fun _ hflags => marksAtTypes_of_unmarked _ hflags.unflagged⟩
    simp [marked, hneeds]
  | true =>
    obtain ⟨init, last, htokens, hends⟩ := h.type_isType.exists_last
    refine ⟨unflagged (tokensAll pre ++ init) ++ (last, true) :: unflagged (tokensAll post),
      ⟨?_, ?_, ?_, ?_⟩, ?_⟩
    · rw [tokens_node, h.split]
      simp [htokens]
    · simp [tokens_makeNullable htokens]
    · rw [marked, List.filter_cons, hneeds]
      simp [typeEnd?, h.type?_eq k, lastToken?_eq, htokens]
    · refine (soundFlags_unflagged _).append ⟨?_, soundFlags_unflagged _⟩
      intro _
      refine ⟨hends, ?_⟩
      have hnamed := h.named
      cases hpost : tokensAll post with
      | nil => rw [hpost] at hnamed; cases hnamed
      | cons t ts => rw [hpost] at hnamed; exact hnamed
    · intro isMarked hflags
      obtain ⟨hbefore, hafter⟩ := flags_append.mp hflags
      have hbefore := hbefore.unflagged
      have hafter : Flags isMarked (unflagged (tokensAll post)) :=
        fun f hf => hafter f (List.mem_cons_of_mem _ hf)
      refine (marksAtTypes_site hk cs).mpr (.inr ⟨pre, type, post, h, ?_, ?_, hafter.unflagged⟩)
      · exact fun t ht => hbefore t (List.mem_append_left _ ht)
      · rw [htokens, List.dropLast_concat]
        exact fun t ht => hbefore t (List.mem_append_right _ ht)

theorem marksOnly_of_item (v : Verdicts) {c : Tree} (h : ParameterItem c) : MarksOnly v c := by
  rcases h with ⟨t, rfl⟩ | ⟨ds, rfl, ⟨pre, type, post, h⟩ | ⟨h, -⟩⟩
  · exact marksOnly_of_bare v (bare_token t)
  · exact marksOnly_of_typed v rfl h
  · -- a parameter without a type stays as it is
    have hnone : (node .parameter ds).type? = none := by
      rw [type?, child?, children, List.find?_eq_none]
      intro c hc
      rw [(h c hc).2]
      simp
    have hbare : ∀ c ∈ ds, c.Bare := fun c hc => (h c hc).1
    have hmark : (node .parameter ds).mark v = node .parameter ds := by
      rw [mark, markAll_of_bare v ds hbare, markType, hnone]
      split <;> rfl
    rw [MarksOnly, hmark, sites_node, sitesAll_of_bare hbare]
    refine ⟨unflagged (tokensAll ds), ⟨by simp, by simp, ?_, soundFlags_unflagged _⟩,
      fun _ hflags => marksAtTypes_of_unmarked _ hflags.unflagged⟩
    simp [marked, needsMark, hnone, NodeKind.isSite]

theorem marksOnly_of_children (v : Verdicts) {k : NodeKind} (hsite : k.isSite = false)
    (htype : k.isType = false) {cs : List Tree} (h : ∀ c ∈ cs, MarksOnly v c) :
    MarksOnly v (node k cs) := by
  rw [MarksOnly, mark, hsite, sites_node, hsite]
  obtain ⟨fs, hfs, hcs⟩ := marksOnlyAll h
  exact ⟨fs, hfs, fun isMarked hflags => (marksAtTypes_node hsite htype cs).mpr (hcs isMarked hflags)⟩

theorem Orderly.marksOnly (v : Verdicts) {t : Tree} (h : t.Orderly) : MarksOnly v t := by
  induction h with
  | bare h => exact marksOnly_of_bare v h
  | site hk h => exact marksOnly_of_typed v (by rcases hk with rfl | rfl <;> rfl) h
  | plain hk h ih =>
    exact marksOnly_of_children v (isSite_of_isDeclared (isDeclared_of_isOrdinary hk))
      (isType_of_isOrdinary hk) ih
  | @owner k pre list post hk hpre hlist hpost ih =>
    refine marksOnly_of_children v (isSite_of_isDeclared (isDeclared_of_isOrdinary hk))
      (isType_of_isOrdinary hk) ?_
    intro c hc
    rw [List.mem_append, List.mem_cons] at hc
    rcases hc with hc | rfl | hc
    · exact marksOnly_of_bare v (hpre c hc)
    · obtain ⟨items, rfl, hitems⟩ := hlist
      exact marksOnly_of_children v rfl rfl fun c hc => marksOnly_of_item v (hitems c hc)
    · exact ih c hc

theorem Orderly.marks (v : Verdicts) {t : Tree} (h : t.Orderly) : Marks v t := by
  obtain ⟨flagged, hflagged, -⟩ := h.marksOnly v
  exact ⟨flagged, hflagged⟩

end Tree

end NullableMarker
