import NullableMarker.Proofs.RereadMembers
import NullableMarker.Proofs.UnitForms

/-!
# Reading declarations again

A member whose marks come at the ends of its types is read from woven tokens as the same member with
the marks in it. A member that has no known shape has no marks in it, and is skipped again.

* `Rereads` — what fits is read again
* `preamble_rereads` — attribute lists and modifiers
* `member_rereads` — members
-/

namespace NullableMarker.Grammar

open Weaving

variable {w : Weaving}

/-! ## Readers that never only mismatch -/

theorem closeAll_error {opener : Token} {expected : List TokenKind} {ts : List Token} {e : Failure}
    (h : closeAll opener expected ts = .error e) : e ≠ .mismatch := by
  fun_induction closeAll opener expected ts with
  | case1 => cases h
  | case2 => cases h; simp
  | case3 e es t ts c hclose ih => exact ih (error_of_map h)
  | case4 e es t ts hclose hcloser heq ih => exact ih (error_of_map h)
  | case5 => cases h; simp
  | case6 e es t ts hclose hcloser ih => exact ih (error_of_map h)

theorem balanced_error {t : Token} {ts : List Token} (ht : (closer? t.kind).isSome = true)
    {e : Failure} (h : balanced (t :: ts) = .error e) : e ≠ .mismatch := by
  rw [balanced] at h
  cases hc : closer? t.kind with
  | none => rw [hc] at ht; cases ht
  | some c =>
    rw [hc] at h
    exact closeAll_error (error_of_map h)

theorem statementPart_error {ts : List Token} {e : Failure} (h : statementPart ts = .error e) :
    e ≠ .mismatch := by
  unfold statementPart at h
  split at h
  · cases h; simp
  · split at h
    · cases h
    split at h
    · cases h; simp
    split at h
    · cases h; simp
    split at h
    · next hbrace => exact balanced_error (by rw [beq_iff_eq.mp hbrace]; rfl) (error_of_map h)
    split at h
    · next hopen => exact balanced_error hopen (error_of_map h)
    · cases h

theorem statement_error {ts : List Token} {e : Failure} (h : statement ts = .error e) :
    e ≠ .mismatch := by
  fun_induction statement ts with
  | case1 ts e' he =>
    cases h
    exact statementPart_error he
  | case2 => cases h
  | case3 ts part hpart hstop ih => exact ih (error_of_map h)

theorem skipped_error {ts : List Token} {e : Failure} (h : skipped ts = .error e) :
    e ≠ .mismatch := statement_error (error_of_map h)

theorem orSkipped_error {ts : List Token} {attempt : Except Failure (Parsed ts)} {e : Failure}
    (h : orSkipped attempt = .error e) : e ≠ .mismatch := by
  unfold orSkipped at h
  split at h
  · exact skipped_error h
  · next hne =>
    rintro rfl
    exact hne h

theorem attributeListsAfter_error {ts : List Token} {r : Reading ts} {e : Failure}
    (h : attributeListsAfter r = .error e) : e ≠ .mismatch := by
  fun_induction attributeListsAfter r with
  | case1 r hnext e' he =>
    cases h
    cases hrest : r.rest with
    | nil => rw [hrest] at hnext; cases hnext
    | cons t rest =>
      rw [hrest] at hnext he
      have ht : t.kind = .lbracket := by simpa [nextIs] using hnext
      exact balanced_error (by rw [ht]; rfl) he
  | case2 r hnext g hg ih => exact ih h
  | case3 => cases h

theorem preamble_error {p : Token → List Token → Bool} {ts : List Token} {e : Failure}
    (h : preamble p ts = .error e) : e ≠ .mismatch := attributeListsAfter_error (error_of_map h)

/-! ## Preambles of members -/

theorem isModifier_weave {t : Token} {ts : List Token} (hsound : w.Sound (t :: ts))
    (h : w.marked t = true → isModifier t ts = false) :
    isModifier (w.relabel t) (w.after t ++ w.weave ts) = isModifier t ts := by
  cases hmarked : w.marked t with
  | false =>
    rw [w.after_of_unmarked hmarked, List.nil_append, isModifier, isModifier]
    simp [nextWord_weave, nextIn_weave]
  | true =>
    have hnot := h hmarked
    have href : t.isKeyword ["ref"] = false := by
      rw [← Bool.not_eq_true]
      intro href
      rw [hsound.unmarked (endsType_of_isKeyword href (by decide))] at hmarked
      cases hmarked
    have hnext : nextIn [.identifier, .keyword] ts = true := by
      obtain ⟨u, us, rfl, hu⟩ := hsound.next hmarked
      rw [nextIn, List.head?_cons, Option.any_some, hu]
      rfl
    rw [hnot]
    rw [isModifier, href, hnext, Bool.false_and, Bool.or_false, Bool.and_true] at hnot
    rw [isModifier, isKeyword_relabel, isKeyword_relabel, kind_relabel, value_relabel, href,
      nextIn_of_atMark (atMark_after hmarked _) rfl, Bool.false_and, Bool.or_false, Bool.and_false,
      Bool.or_false]
    exact (Bool.or_eq_false_iff.mp hnot).1

theorem takeWhile_isModifier {ts : List Token} (hsound : w.Sound ts)
    (hunmarked : ∀ t ∈ (Run.takeWhile isModifier ts).taken, w.marked t = false) :
    RunCovers w (Run.takeWhile isModifier ts) (Run.takeWhile isModifier (w.weave ts)) := by
  induction ts with
  | nil => exact ⟨rfl, rfl⟩
  | cons t ts ih =>
    rw [Run.takeWhile] at hunmarked
    cases hmodifier : isModifier t ts with
    | false =>
      rw [weave_cons, Run.takeWhile, Run.takeWhile, isModifier_weave hsound fun _ => hmodifier,
        hmodifier]
      exact ⟨rfl, rfl⟩
    | true =>
      rw [hmodifier, if_pos rfl] at hunmarked
      have ht : w.marked t = false := hunmarked t List.mem_cons_self
      rw [weave_cons, Run.takeWhile, Run.takeWhile, isModifier_weave hsound (by simp [ht]), hmodifier,
        w.after_of_unmarked ht]
      obtain ⟨htaken, hrest⟩ := ih hsound.tail fun u hu => hunmarked u (List.mem_cons_of_mem _ hu)
      refine ⟨?_, hrest⟩
      show w.relabel t :: _ = w.weave (t :: _)
      rw [weave_cons, w.after_of_unmarked ht]
      exact congrArg (w.relabel t :: ·) htaken

/-- A preamble that the marks fit is read again. -/
theorem preamble_rereads {ts : List Token} (hsound : w.Sound ts) {r : Reading ts}
    (h : preamble isModifier ts = .ok r) (hfits : (view r).Fits w) :
    ∃ r', preamble isModifier (w.weave ts) = .ok r' ∧ Live w (view r) (view r') := by
  obtain ⟨lists, hlists, rfl⟩ := ok_of_map h
  have hstart : Live w (view (Reading.start ts)) (view (Reading.start (w.weave ts))) :=
    ⟨rfl, hsound, fun _ => rfl, rfl, rfl⟩
  have htracks := attributeListsAfter_tracks hstart
  rw [hlists] at htracks
  obtain ⟨hfits, hunmarked⟩ := fits_of_addRun rfl hfits
  rcases htracks with ⟨lists', hlists', hlive⟩ | ⟨hnot, -⟩
  · have hrest : lists'.rest = w.weave lists.rest := hlive.rest
    have hsound' : w.Sound lists.rest := hlive.sound
    have hrun := takeWhile_isModifier hsound' hunmarked
    rw [← hrest] at hrun
    refine ⟨_, ?_, hlive.addRun (show NodeKind.modifiers.isType = false from rfl) hrun⟩
    rw [preamble, hlists']
    rfl
  · exact absurd hfits hnot

/-! ## Preambles of statements -/

theorem statement_taken {t : Token} {ts : List Token} (g : Group (t :: ts)) : t ∈ g.taken := by
  have hne := balanced_taken_ne_nil g
  have hcomplete := g.complete
  cases htaken : g.taken with
  | nil => exact absurd htaken hne
  | cons u us =>
    rw [htaken] at hcomplete
    rw [(List.cons.inj hcomplete).1]
    exact List.mem_cons_self

/-- A word is taken with what follows it. -/
theorem statement_word {t : Token} (ht : t.kind = .identifier ∨ t.kind = .keyword) {ts : List Token}
    {g : Group (t :: ts)} (h : statement (t :: ts) = .ok g) :
    (ts.isEmpty || nextIs .rbrace ts) = true
      ∨ ∃ more, statement ts = .ok more ∧ g.taken = t :: more.taken := by
  have hpart : statementPart (t :: ts) = .ok ⟨.single t ts, false⟩ := by
    rcases ht with ht | ht <;> rw [statementPart, ht] <;> rfl
  rw [statement, hpart] at h
  dsimp only at h
  split at h
  · next hstop =>
    left
    simpa [Group.single] using hstop
  · obtain ⟨more, hmore, rfl⟩ := ok_of_map h
    exact .inr ⟨more, hmore, rfl⟩

theorem isModifier_word {t : Token} {ts : List Token} (h : isModifier t ts = true) :
    t.kind = .identifier ∨ t.kind = .keyword := by
  simp only [isModifier, Token.isKeyword, Bool.or_eq_true, Bool.and_eq_true, beq_iff_eq] at h
  rcases h with (h | h) | h
  · exact .inr h.1
  · exact .inr h.1.1
  · exact .inl h.1.1

/-- Neither the end nor a closing brace is a modifier. -/
theorem takeWhile_of_stop {ts : List Token} (h : (ts.isEmpty || nextIs .rbrace ts) = true) :
    Run.takeWhile isModifier ts = Run.none ts := by
  cases ts with
  | nil => rfl
  | cons t ts =>
    have ht : t.kind = .rbrace := by simpa [nextIs] using h
    have hmodifier : isModifier t ts = false := by
      rw [← Bool.not_eq_true]
      intro hmodifier
      rcases isModifier_word hmodifier with h | h <;> rw [ht] at h <;> cases h
    rw [Run.takeWhile, hmodifier]
    rfl

/-- The modifiers ahead and the token after them are taken as part of a statement. -/
theorem statement_modifiers {ts : List Token} {g : Group ts} (h : statement ts = .ok g) :
    (∀ t ∈ (Run.takeWhile isModifier ts).taken, t ∈ g.taken)
      ∧ ∀ t rest, (Run.takeWhile isModifier ts).rest = t :: rest → t ∈ g.taken ∨ t.kind = .rbrace := by
  induction ts with
  | nil =>
    exact ⟨fun t ht => (by cases ht), fun t rest hcons => (by cases hcons)⟩
  | cons t ts ih =>
    rw [Run.takeWhile]
    cases hmodifier : isModifier t ts with
    | false =>
      refine ⟨fun t ht => (by cases ht), fun u rest hcons => ?_⟩
      cases hcons
      exact .inl (statement_taken g)
    | true =>
      rw [if_pos rfl]
      rcases statement_word (isModifier_word hmodifier) h with hstop | ⟨more, hmore, htaken⟩
      · rw [takeWhile_of_stop hstop]
        refine ⟨fun u hu => ?_, fun u rest hcons => ?_⟩
        · rw [List.mem_singleton.mp hu]
          exact statement_taken g
        · have hcons : ts = u :: rest := hcons
          rw [hcons] at hstop
          exact .inr (by simpa [nextIs] using hstop)
      · obtain ⟨hall, hfirst⟩ := ih hmore
        refine ⟨fun u hu => ?_, fun u rest hcons => ?_⟩
        · rw [htaken]
          rcases List.mem_cons.mp hu with rfl | hu
          · exact List.mem_cons_self
          · exact List.mem_cons_of_mem _ (hall u hu)
        · rw [htaken]
          exact (hfirst u rest hcons).imp (List.mem_cons_of_mem _) id

theorem statementPart_bracket {ts : List Token} (h : nextIs .lbracket ts = true) :
    statementPart ts = (balanced ts).map (⟨·, false⟩) := by
  cases ts with
  | nil => cases h
  | cons t ts =>
    have ht : t.kind = .lbracket := by simpa [nextIs] using h
    rw [statementPart, ht]
    rfl

theorem attributeListsAfter_of_stop {ts : List Token} {r : Reading ts}
    (h : (r.rest.isEmpty || nextIs .rbrace r.rest) = true) : attributeListsAfter r = .ok r := by
  have hnext : nextIs .lbracket r.rest = false := by
    cases hrest : r.rest with
    | nil => rfl
    | cons t rest =>
      rw [hrest] at h
      have ht : t.kind = .rbrace := by simpa [nextIs] using h
      simp [nextIs, ht]
  rw [attributeListsAfter, hnext]
  rfl

/-- The attribute lists ahead are taken as part of a statement. -/
theorem statement_attributeLists {ts : List Token} {r s : Reading ts}
    (h : attributeListsAfter r = .ok s) {g : Group r.rest} (hg : statement r.rest = .ok g) :
    ∃ cs, s.children = r.children ++ cs ∧ (∀ t ∈ Tree.tokensAll cs, t ∈ g.taken)
      ∧ ((s.rest.isEmpty || nextIs .rbrace s.rest) = true
        ∨ ∃ more, statement s.rest = .ok more ∧ ∀ t ∈ more.taken, t ∈ g.taken) := by
  fun_induction attributeListsAfter r with
  | case1 => cases h
  | case2 r hnext list hlist ih =>
    rw [statement, statementPart_bracket hnext, hlist] at hg
    dsimp only [Except.map] at hg
    split at hg
    · -- the statement ends with the list, and no other list follows
      next hstop =>
      cases hg
      have hstop : (list.rest.isEmpty || nextIs .rbrace list.rest) = true := by simpa using hstop
      rw [attributeListsAfter_of_stop hstop] at h
      cases h
      exact ⟨[_], rfl, by simp, .inl hstop⟩
    · obtain ⟨more, hmore, rfl⟩ := ok_of_map hg
      obtain ⟨cs, hcs, hall, hrest⟩ := ih h hmore
      have hlist : ∀ t ∈ list.taken, t ∈ (list.append more.toRun).taken :=
        fun t ht => List.mem_append_left _ ht
      have hmore : ∀ t ∈ more.taken, t ∈ (list.append more.toRun).taken :=
        fun t ht => List.mem_append_right _ ht
      refine ⟨_ :: cs, by rw [hcs]; exact List.append_assoc _ _ _, ?_, ?_⟩
      · intro t ht
        rw [Tree.tokensAll_cons, Parsed.tree_ofGroup, Tree.tokens_node, Tree.tokensAll_map_token] at ht
        rcases List.mem_append.mp ht with ht | ht
        · exact hlist t ht
        · exact hmore t (hall t ht)
      · refine hrest.imp id ?_
        rintro ⟨last, hlast, hsub⟩
        exact ⟨last, hlast, fun t ht => hmore t (hsub t ht)⟩
  | case3 r hnext =>
    cases h
    exact ⟨[], by simp, by simp, .inr ⟨g, hg, fun _ h => h⟩⟩

/-- A preamble and the token after it are taken as part of a statement. -/
theorem statement_preamble {ts : List Token} {r : Reading ts} (h : preamble isModifier ts = .ok r)
    {g : Group ts} (hg : statement ts = .ok g) :
    (∀ t ∈ Tree.tokensAll r.children, t ∈ g.taken)
      ∧ ∀ t rest, r.rest = t :: rest → t ∈ g.taken ∨ t.kind = .rbrace := by
  obtain ⟨lists, hlists, rfl⟩ := ok_of_map h
  obtain ⟨cs, hcs, hall, hrest⟩ := statement_attributeLists hlists hg
  have hcs : lists.children = cs := hcs
  have hchildren : Tree.tokensAll (lists.addRun .modifiers (.takeWhile isModifier lists.rest)).children
      = Tree.tokensAll lists.children ++ (Run.takeWhile isModifier lists.rest).taken := by
    show Tree.tokensAll (lists.children ++ [Tree.node _ _]) = _
    simp
  rw [hchildren, hcs]
  show (∀ t ∈ _, t ∈ g.taken)
    ∧ ∀ t rest, (Run.takeWhile isModifier lists.rest).rest = t :: rest → t ∈ g.taken ∨ t.kind = .rbrace
  -- either the statement ends with the attribute lists, or it goes on over the modifiers
  rcases hrest with hstop | ⟨more, hmore, hsub⟩
  · rw [takeWhile_of_stop hstop]
    refine ⟨fun t ht => hall t (by simpa [Run.none] using ht), fun t rest hcons => ?_⟩
    have hcons : lists.rest = t :: rest := hcons
    rw [hcons] at hstop
    exact .inr (by simpa [nextIs] using hstop)
  · obtain ⟨htaken, hfirst⟩ := statement_modifiers hmore
    refine ⟨fun t ht => ?_, fun t rest hcons => (hfirst t rest hcons).imp (hsub t) id⟩
    rcases List.mem_append.mp ht with ht | ht
    · exact hall t ht
    · exact hsub t (htaken t ht)

/-! ## Members -/

/-- What the marks fit is read again, and where nothing is read nothing is read again. -/
def Rereads {α β : Type} [Viewed α] [Viewed β] (w : Weaving) (o : Except Failure α)
    (o' : Except Failure β) : Prop :=
  match o with
  | .error (.fatal _ _) => True
  | .error .mismatch => o' = .error .mismatch
  | .ok a => (view a).Fits w → ∃ b, o' = .ok b ∧ Live w (view a) (view b)

section Outcomes

variable {α β : Type} [Viewed α] [Viewed β]

theorem Tracks.rereads {o : Except Failure α} {o' : Except Failure β} (h : Tracks w true o o') :
    Rereads w o o' := by
  cases o with
  | error e =>
    cases e with
    | fatal cause token => trivial
    | mismatch => exact Stuck.mismatch h
  | ok a =>
    intro hfits
    rcases h with h | ⟨hnot, -⟩
    · exact h
    · exact absurd hfits hnot

theorem rereads_fatal {o : Except Failure α} {o' : Except Failure β} {e : Failure}
    (ho : o = .error e) (he : e ≠ .mismatch) : Rereads w o o' := by
  subst ho
  cases e with
  | fatal cause token => trivial
  | mismatch => exact absurd rfl he

/-- A step after what is read again. It may not fail for lack of a token, since then it is not known
whether the marks fit what came before it. -/
theorem Rereads.bind {γ δ : Type} [Viewed γ] [Viewed δ] {o : Except Failure α}
    {o' : Except Failure β} (h : Rereads w o o') {f : α → Except Failure γ}
    {f' : β → Except Failure δ} (hne : ∀ a e, o = .ok a → f a = .error e → e ≠ .mismatch)
    (hgrows : ∀ a c, f a = .ok c → (view c).Fits w → (view a).Fits w)
    (hmore : ∀ a b, Live w (view a) (view b) → Rereads w (f a) (f' b)) :
    Rereads w (o >>= f) (o' >>= f') := by
  cases o with
  | error e =>
    cases e with
    | fatal cause token => trivial
    | mismatch =>
      rw [show o' = .error .mismatch from h]
      rfl
  | ok a =>
    cases hc : f a with
    | error e => exact rereads_fatal hc (hne a e rfl hc)
    | ok c =>
      rw [show (Except.ok a >>= f) = .ok c from hc]
      intro hfits
      obtain ⟨b, rfl, hlive⟩ := h (hgrows a c hc hfits)
      have hread := hmore a b hlive
      rw [hc] at hread
      exact hread hfits

end Outcomes

theorem skipped_tracks (ts : List Token) (hsound : w.Sound ts) :
    Tracks w true (skipped ts) (skipped (w.weave ts)) := by
  have htracks : Tracks w true (statement ts) (statement (w.weave ts)) :=
    (statement_follows ts hsound).tracks fun _ _ _ h => .inl (h.live hsound)
  exact htracks.ofGroup rfl

theorem member_error {typeName : Option String} {ts : List Token} {e : Failure}
    (h : member typeName ts = .error e) : e ≠ .mismatch := by
  rw [member] at h
  exact orSkipped_error h

theorem members_error {typeName : String} {opening : Option Token} {ts : List Token} {r : Begun ts}
    {e : Failure} (h : members typeName opening r = .error e) : e ≠ .mismatch := by
  induction hn : r.rest.length using Nat.strongRecOn generalizing r with
  | ind n ih =>
    subst hn
    rw [members] at h
    split at h
    · cases h
    split at h
    · cases h
      simp
    split at h
    · next e' he =>
      cases h
      exact member_error he
    · next p hp => exact ih _ p.progress h rfl

theorem members_grows {typeName : String} {opening : Option Token} {ts : List Token}
    {r q : Begun ts} (h : members typeName opening r = .ok q) (hfits : (view q).Fits w) :
    (view r).Fits w := (members_adds h).grows hfits

theorem startsTypeDeclaration_weave {ts : List Token} (hsound : w.Sound ts)
    (h : startsTypeDeclaration ts = true → ∀ t rest, ts = t :: rest → w.marked t = false) :
    startsTypeDeclaration (w.weave ts) = startsTypeDeclaration ts := by
  cases ts with
  | nil => rfl
  | cons t ts =>
    cases hmarked : w.marked t with
    | false =>
      rw [startsTypeDeclaration, startsTypeDeclaration, nextKeyword_weave, nextWord_weave, weave_cons,
        w.after_of_unmarked hmarked, List.nil_append, List.tail_cons, List.tail_cons, nextIs_weave,
        nextKeyword_weave]
    | true =>
      have hnot : startsTypeDeclaration (t :: ts) = false := by
        rw [← Bool.not_eq_true]
        intro hstarts
        rw [h hstarts t ts rfl] at hmarked
        cases hmarked
      have hnext := (hsound.1 hmarked).2
      rw [hnot]
      rw [startsTypeDeclaration, List.tail_cons, hnext, Bool.true_or, Bool.and_true,
        Bool.or_eq_false_iff] at hnot
      rw [startsTypeDeclaration, nextKeyword_weave, nextWord_weave, hnot.1, hnot.2]
      rfl

/-- The first token of a type declaration has no mark if the declaration fits. -/
theorem typeHead_grows {t : Token} {ts : List Token} {head : TypeHead (t :: ts)}
    (h : typeHead (t :: ts) = .ok head) (hfits : (view head).Fits w) : w.marked t = false := by
  rw [typeHead] at h
  obtain ⟨name, -, h⟩ := ok_of_bind h
  have hstart := fits_of_add ((stepTracks_headAfter _ _).grows _ head h hfits)
  split at hstart
  · exact (fits_token t).mp (hstart _ List.mem_cons_self)
  · exact (fits_token t).mp (hstart _ List.mem_cons_self)

/-- Where the head is not read, or is read up to a mark, no declaration is read. -/
theorem shape_of_stuck {typeName : Option String} {us : List Token}
    (hstarts : startsTypeDeclaration us = true) (h : Stuck false (typeHead us)) :
    shape typeName us = .error .mismatch := by
  rw [shape, if_pos hstarts]
  rcases h with h | ⟨-, head, h, hmark⟩
  · rw [h]
  · have hmark : AtMark head.read.rest := hmark
    have hbrace : expectThat (·.kind == .lbrace) head.read.rest = .error .mismatch :=
      expect_of_next (by simp) hmark
    rw [h]
    dsimp only
    rw [expect_of_next (by simp) hmark, hbrace]

/-- A member from its preamble and its shape. -/
theorem Live.member {ts us : List Token} {r : Reading ts} {r' : Reading us}
    (hr : Live w (view r) (view r')) {s : Shape r.rest} {s' : Shape r'.rest}
    (hs : Live w (view s) (view s')) (hkind : s.kind.isType = false) :
    Live w (view ((r.extendBegun s.read).finish s.kind))
      (view ((r'.extendBegun s'.read).finish s'.kind)) := by
  have hsame : s'.kind = s.kind := Option.some.inj hs.kind
  rw [hsame]
  have hread : Live w (view (r.extendBegun s.read)) (view (r'.extendBegun s'.read)) := by
    refine ⟨hs.rest, hs.sound, fun hfits => ?_, rfl, rfl⟩
    show r'.children ++ s'.read.children = (r.children ++ s.read.children).map w.tree
    have hr : r'.children = r.children.map w.tree :=
      hr.children fun c hc => hfits c (List.mem_append_left _ hc)
    have hs : s'.read.children = s.read.children.map w.tree :=
      hs.children fun c hc => hfits c (List.mem_append_right _ hc)
    rw [hr, hs, List.map_append]
  exact hread.finish hkind

/-- Reads the body of a type declaration. -/
def declarationAfter {ts : List Token} (head : TypeHead ts) : Except Failure (Shape ts) :=
  match expect .semicolon head.read.rest with
  | .ok last => .ok ⟨head.kind, head.read.add last⟩
  | .error _ =>
    match expect .lbrace head.read.rest with
    | .error e => .error e
    | .ok opening =>
      members head.name opening.tree.firstToken? (head.read.add opening) >>= fun r =>
        .ok ⟨head.kind, r.optional (·.kind == .semicolon)⟩

theorem shape_eq {typeName : Option String} {ts : List Token}
    (h : startsTypeDeclaration ts = true) :
    shape typeName ts = typeHead ts >>= declarationAfter := by
  rw [shape, if_pos h]
  cases typeHead ts with
  | error e => rfl
  | ok head =>
    show _ = declarationAfter head
    rw [declarationAfter]
    dsimp only
    cases expect .semicolon head.read.rest with
    | ok last => rfl
    | error e =>
      show (match expect .lbrace head.read.rest with | .error e => _ | .ok opening => _) = _
      cases expect .lbrace head.read.rest with
      | error e => rfl
      | ok opening =>
        dsimp only
        cases members head.name opening.tree.firstToken? (head.read.add opening) <;> rfl

theorem declarationAfter_grows {ts : List Token} {head : TypeHead ts} {s : Shape ts}
    (h : declarationAfter head = .ok s) (hfits : (view s).Fits w) : (view head).Fits w := by
  rw [declarationAfter] at h
  split at h
  · cases h
    exact fits_of_add hfits
  split at h
  · cases h
  · obtain ⟨r, hr, h⟩ := ok_of_bind h
    cases h
    exact fits_of_add (members_grows hr (fits_of_extend hfits))

theorem members_eq (typeName : String) (opening : Option Token) {ts : List Token} (r : Begun ts) :
    members typeName opening r =
      match expect .rbrace r.rest with
      | .ok last => .ok (r.add last)
      | .error _ =>
        if r.rest.isEmpty then .error (.fatal (.endInType typeName) opening)
        else member (some typeName) r.rest >>= fun p => members typeName opening (r.add p) := by
  rw [members.eq_def]
  cases member (some typeName) r.rest <;> rfl

theorem declaration_of_preamble {typeName : Option String} {ts : List Token} {r : Reading ts}
    (hr : preamble isModifier ts = .ok r) : declaration typeName ts
      = (shape typeName r.rest).map fun s => (r.extendBegun s.read).finish s.kind := by
  rw [declaration, hr]
  dsimp only
  cases shape typeName r.rest <;> rfl

mutual

/-- A member that the marks fit is read again. -/
theorem member_rereads (typeName : Option String) (ts : List Token) (hsound : w.Sound ts) :
    Rereads w (member typeName ts) (member typeName (w.weave ts)) := by
  cases hr : preamble isModifier ts with
  | error e =>
    have hne := preamble_error hr
    refine rereads_fatal (e := e) ?_ hne
    rw [member, declaration, hr]
    cases e with
    | fatal cause token => rfl
    | mismatch => exact absurd rfl hne
  | ok r =>
    have hle := r.length_le
    have hsoundrest : w.Sound r.rest := by
      rw [← r.complete] at hsound
      exact hsound.of_append
    cases hs : shape typeName r.rest with
    | error e =>
      cases e with
      | fatal cause token =>
        rw [member, declaration_of_preamble hr, hs]
        trivial
      | mismatch =>
        have hskipped : member typeName ts = skipped ts := by
          rw [member, declaration_of_preamble hr, hs]
          rfl
        cases hg : statement ts with
        | error e => exact rereads_fatal (by rw [hskipped, skipped, hg]; rfl) (statement_error hg)
        | ok g =>
          have hok : skipped ts = .ok (.ofGroup .skipped g) := by rw [skipped, hg]; rfl
          have htracks := (skipped_tracks ts hsound).rereads
          rw [hskipped, hok]
          rw [hok] at htracks
          intro hfits
          -- the marks are not in what is skipped, so nothing changes up to the mismatch
          have hunmarked : ∀ t ∈ g.taken, w.marked t = false :=
            (fits_tokens g.taken).mp ((fits_node rfl _).mp (hfits _ (List.mem_singleton_self _)))
          obtain ⟨hall, hfirst⟩ := statement_preamble hr hg
          obtain ⟨r', hr', hlive⟩ := preamble_rereads hsound hr ((fitsAll_iff _).mp
            (fitsAll_of_unmarked _ fun t ht => hunmarked t (hall t ht)))
          have hshape := shape_rereads typeName r.rest hsoundrest fun _ t rest hcons => by
            rcases hfirst t rest hcons with ht | ht
            · exact hunmarked t ht
            · rw [hcons] at hsoundrest
              exact hsoundrest.unmarked (endsType_of_kind (by simp [ht]))
          have hrest : r'.rest = w.weave r.rest := hlive.rest
          rw [hs, ← hrest] at hshape
          have hshape : shape typeName r'.rest = .error .mismatch := hshape
          rw [member, declaration_of_preamble hr', hshape]
          exact htracks hfits
    | ok s =>
      have hok : member typeName ts = .ok ((r.extendBegun s.read).finish s.kind) := by
        rw [member, declaration_of_preamble hr, hs]
        rfl
      rw [hok]
      intro hfits
      have hkind := (shape_orderly hs).isType
      have hfits : ∀ c ∈ r.children ++ s.read.children, w.Fits c := fits_finish hkind hfits
      obtain ⟨r', hr', hlive⟩ := preamble_rereads hsound hr
        fun c hc => hfits c (List.mem_append_left _ hc)
      have hshape := shape_rereads typeName r.rest hsoundrest fun hmismatch => by
        rw [hs] at hmismatch
        cases hmismatch
      have hrest : r'.rest = w.weave r.rest := hlive.rest
      rw [hs, ← hrest] at hshape
      obtain ⟨s', hs', hlive'⟩ := hshape fun c hc => hfits c (List.mem_append_right _ hc)
      refine ⟨(r'.extendBegun s'.read).finish s'.kind, ?_, ?_⟩
      · rw [member, declaration_of_preamble hr', hs']
        rfl
      · exact hlive.member hlive' hkind
termination_by (ts.length, 3)
decreasing_by all_goals (simp only [Prod.lex_def]; omega)

/-- What follows the modifiers of a member is read again. -/
theorem shape_rereads (typeName : Option String) : (ts : List Token) → w.Sound ts →
    (shape typeName ts = .error .mismatch → ∀ t rest, ts = t :: rest → w.marked t = false) →
    Rereads w (shape typeName ts) (shape typeName (w.weave ts))
  | [], hsound, _ => by
    have hplain := (plainShape_tracks typeName [] hsound).rereads
    rw [weave_nil, shape]
    exact hplain
  | t :: ts, hsound, hfirst => by
    cases hstarts : startsTypeDeclaration (t :: ts) with
    | false =>
      have hstarts' : startsTypeDeclaration (w.weave (t :: ts)) = false := by
        rw [startsTypeDeclaration_weave hsound (by rw [hstarts]; intro h; cases h), hstarts]
      rw [shape, shape, hstarts, hstarts']
      exact (plainShape_tracks typeName (t :: ts) hsound).rereads
    | true =>
      -- without a mark after the first token the woven tokens start a declaration too
      have hstarts' : w.marked t = false → startsTypeDeclaration (w.weave (t :: ts)) = true := by
        intro hunmarked
        rw [startsTypeDeclaration_weave hsound fun _ u rest hcons => by cases hcons; exact hunmarked,
          hstarts]
      cases hhead : typeHead (t :: ts) with
      | error e =>
        have herror : shape typeName (t :: ts) = .error e := by rw [shape_eq hstarts, hhead]; rfl
        rw [herror]
        cases e with
        | fatal cause token => trivial
        | mismatch =>
          have hunmarked := hfirst herror t ts rfl
          have htracks := typeHead_tracks hsound hunmarked
          rw [hhead] at htracks
          exact shape_of_stuck (hstarts' hunmarked) htracks
      | ok head =>
        have hshape : shape typeName (t :: ts) = declarationAfter head := by
          rw [shape_eq hstarts, hhead]
          rfl
        have hlt := head.read.progress
        have hlive : w.marked t = false →
            (∃ head', typeHead (w.weave (t :: ts)) = .ok head' ∧ Live w (view head) (view head'))
              ∨ ¬(view head).Fits w ∧ Stuck false (typeHead (w.weave (t :: ts))) := by
          intro hunmarked
          have htracks := typeHead_tracks hsound hunmarked
          rw [hhead] at htracks
          exact htracks
        cases hs : declarationAfter head with
        | error e =>
          rw [hs] at hshape
          rw [hshape]
          cases e with
          | fatal cause token => trivial
          | mismatch =>
            have hunmarked := hfirst hshape t ts rfl
            rcases hlive hunmarked with ⟨head', hhead', hl⟩ | ⟨-, hstuck⟩
            · have hafter := declarationAfter_rereads hl
              rw [hs] at hafter
              rw [shape_eq (hstarts' hunmarked), hhead']
              exact hafter
            · exact shape_of_stuck (hstarts' hunmarked) hstuck
        | ok s =>
          rw [hshape, hs]
          intro hfits
          have hfits' := declarationAfter_grows hs hfits
          have hunmarked := typeHead_grows hhead hfits'
          rcases hlive hunmarked with ⟨head', hhead', hl⟩ | ⟨hnot, -⟩
          · have hafter := declarationAfter_rereads hl
            rw [hs] at hafter
            rw [shape_eq (hstarts' hunmarked), hhead']
            exact hafter hfits
          · exact absurd hfits' hnot
termination_by ts => (ts.length, 2)
decreasing_by all_goals exact Prod.Lex.left _ _ hlt

/-- The body of a type declaration is read again. -/
theorem declarationAfter_rereads {ts us : List Token} {head : TypeHead ts} {head' : TypeHead us}
    (h : Live w (view head) (view head')) :
    Rereads w (declarationAfter head) (declarationAfter head') := by
  have hread : Live w (view head.read) (view head'.read) :=
    ⟨h.rest, h.sound, h.children, rfl, rfl⟩
  have hkind : head'.kind = head.kind := Option.some.inj h.kind
  have hname : head'.name = head.name := h.name
  rw [declarationAfter, declarationAfter, hkind, hname]
  rcases Live.expect .semicolon rfl hread with ⟨last, last', hl, hl', hlive⟩ | ⟨hl, hl'⟩
  · rw [hl, hl']
    exact fun _ => ⟨_, rfl, hlive.rest, hlive.sound, hlive.children, rfl, rfl⟩
  rw [hl, hl']
  dsimp only
  rcases Live.expect .lbrace rfl hread with ⟨opening, opening', ho, ho', hlive⟩ | ⟨ho, ho'⟩
  · rw [ho, ho']
    dsimp only
    have hlt := opening.progress
    refine (members_rereads head.name opening.tree.firstToken? opening'.tree.firstToken? hlive).bind
      (fun _ _ _ h => by cases h) ?_ ?_
    · rintro r _ ⟨⟩ hfits
      exact fits_of_extend hfits
    · intro r r' hlive' _
      have hoptional := hlive'.optional (f := (·.kind == .semicolon)) (by simp)
        fun t ht => endsType_of_kind (by simp [beq_iff_eq.mp ht])
      exact ⟨_, rfl, hoptional.rest, hoptional.sound, hoptional.children, rfl, rfl⟩
  · rw [ho, ho']
    rfl
termination_by (head.read.rest.length, 5)
decreasing_by exact Prod.Lex.left _ _ hlt

/-- The members of a type are read again. -/
theorem members_rereads {ts us : List Token} (typeName : String) (opening opening' : Option Token)
    {r : Begun ts} {r' : Begun us} (hr : Live w (view r) (view r')) :
    Rereads w (members typeName opening r) (members typeName opening' r') := by
  rw [members_eq typeName opening r, members_eq typeName opening' r']
  rcases Live.expect .rbrace rfl hr with ⟨last, last', hl, hl', hlive⟩ | ⟨hl, hl'⟩
  · rw [hl, hl']
    exact fun _ => ⟨_, rfl, hlive⟩
  rw [hl, hl']
  dsimp only
  have hrest : r'.rest = w.weave r.rest := hr.rest
  have hempty : r'.rest.isEmpty = r.rest.isEmpty := by rw [hrest, isEmpty_weave]
  rw [hempty]
  split
  · trivial
  have hmember := member_rereads (some typeName) r.rest hr.sound
  rw [← hrest] at hmember
  refine hmember.bind (fun p e _ h => members_error h) ?_ ?_
  · intro p q hq hfits c hc
    exact members_grows hq hfits c (List.mem_append_right _ hc)
  · intro p p' hlive
    have hlt := p.progress
    exact members_rereads typeName opening opening'
      (Live.add (show Live w (view r.toReading) (view r'.toReading) from hr) hlive)
termination_by (r.rest.length, 4)
decreasing_by
  · exact Prod.Lex.right _ (by decide)
  · exact Prod.Lex.left _ _ hlt

end

end NullableMarker.Grammar
