import NullableMarker.Proofs.RereadGroups
import NullableMarker.Proofs.TypePhrases

/-!
# Reading types again

Types are read from woven tokens as they are read from the tokens themselves. A mark that ends a type
is read as part of the type.

* `typeMarks_follows` — the marks after a type
* `type_follows` — types
-/

namespace NullableMarker.Grammar

open Weaving

variable {w : Weaving}

/-! ## Types -/

/-- The trees among others that are tokens. -/
def bareTokens (cs : List Tree) : List Token := (Tree.node .name cs).childTokens

@[simp] theorem bareTokens_nil : bareTokens [] = [] := rfl

@[simp] theorem bareTokens_append (as bs : List Tree) :
    bareTokens (as ++ bs) = bareTokens as ++ bareTokens bs := by
  simp [bareTokens, Tree.childTokens, Tree.children]

@[simp] theorem bareTokens_token (t : Token) (cs : List Tree) :
    bareTokens (.token t :: cs) = t :: bareTokens cs := rfl

@[simp] theorem bareTokens_node (kind : NodeKind) (ds cs : List Tree) :
    bareTokens (.node kind ds :: cs) = bareTokens cs := rfl

@[simp] theorem bareTokens_map (ts : List Token) : bareTokens (ts.map .token) = ts := by
  induction ts with
  | nil => rfl
  | cons t ts ih => rw [List.map_cons, bareTokens_token, ih]

/-- The trees among others that are tokens are replaced as tokens are. -/
def TokensFollow (w : Weaving) (cs cs' : List Tree) : Prop :=
  bareTokens cs' = (bareTokens cs).map w.relabel

/-- A tree that is read up to a mark that may follow it. -/
structure OpenFollows (w : Weaving) {ts us : List Token} (p : Parsed ts) (p' : Parsed us) : Prop where
  rest : p'.rest = w.pending p.tree.tokens ++ w.weave p.rest
  tree : (∀ t ∈ p.tree.tokens.dropLast, w.marked t = false) → p'.tree = w.relabelTree p.tree
  token : TokensFollow w [p.tree] [p'.tree]

/-- A tree that is read with its marks. -/
structure TreeFollows (w : Weaving) {ts us : List Token} (p : Parsed ts) (p' : Parsed us) : Prop where
  rest : p'.rest = w.weave p.rest
  sound : w.Sound p.rest
  tree : w.Fits p.tree → p'.tree = w.tree p.tree
  token : TokensFollow w [p.tree] [p'.tree]

theorem sound_parsed {ts : List Token} (h : w.Sound ts) (p : Parsed ts) :
    w.Sound (p.tree.tokens ++ p.rest) := by
  rw [p.complete]
  exact h

theorem tokens_ne_nil {ts : List Token} (p : Parsed ts) : p.tree.tokens ≠ [] := by
  intro h
  have hlen := congrArg List.length p.complete
  have := p.progress
  rw [h, List.nil_append] at hlen
  omega

/-- A token that is read up to a mark that may follow it. -/
def TokenFollows (w : Weaving) {ts us : List Token} (p : Parsed ts) (p' : Parsed us) : Prop :=
  ∃ t, p.tree = .token t ∧ p'.tree = .token (w.relabel t) ∧ ts = t :: p.rest
    ∧ p'.rest = w.after t ++ w.weave p.rest

theorem expectThat_follows {f : Token → Bool} (hf : ∀ t, f (w.relabel t) = f t) (ts : List Token) :
    Follows (TokenFollows w) (expectThat f ts) (expectThat f (w.weave ts)) := by
  cases ts with
  | nil => rfl
  | cons t ts =>
    rw [weave_cons, expectThat, expectThat, hf]
    split
    · exact ⟨_, rfl, t, rfl, rfl, rfl, rfl⟩
    · rfl

theorem expect_follows (kind : TokenKind) (ts : List Token) :
    Follows (TokenFollows w) (expect kind ts) (expect kind (w.weave ts)) :=
  expectThat_follows (by simp) ts

/-- After a type that is marked no more marks come. -/
theorem typeMarks_of_identifier {ts : List Token} {p : Parsed ts} {u : Token} {us : List Token}
    (hrest : p.rest = u :: us) (hu : u.kind = .identifier) : typeMarks p = .ok p := by
  have hquestion : expect .question p.rest = .error .mismatch := by
    rw [hrest, expect, expectThat, hu]
    rfl
  have harray : startsArrayMark p.rest = false := by
    rw [hrest, startsArrayMark, nextIs, List.head?_cons, Option.any_some, hu]
    rfl
  have hpointer : expectThat (fun t => t.kind == .operator && t.value == "*") p.rest
      = .error .mismatch := by
    rw [hrest, expectThat, hu]
    rfl
  rw [typeMarks, hquestion]
  dsimp only
  rw [harray, hpointer]
  rfl

theorem startsArrayMark_weave {ts : List Token} (hsound : w.Sound ts) :
    startsArrayMark (w.weave ts) = startsArrayMark ts := by
  cases ts with
  | nil => rfl
  | cons t ts =>
    rw [startsArrayMark, startsArrayMark, nextIs_weave]
    cases hbracket : nextIs .lbracket (t :: ts) with
    | false => rfl
    | true =>
      have hkind : t.kind = .lbracket := by simpa [nextIs] using hbracket
      have hunmarked := hsound.unmarked (endsType_of_kind (by simp [hkind]))
      rw [weave_cons, w.after_of_unmarked hunmarked, List.nil_append, List.tail_cons, List.tail_cons,
        nextIn_weave]

theorem not_identifier_of_startsArrayMark {ts : List Token} (h : startsArrayMark ts = true) :
    nextIs .identifier ts = false := by
  cases ts with
  | nil => rfl
  | cons t ts =>
    rw [startsArrayMark, Bool.and_eq_true] at h
    have ht : t.kind = .lbracket := by simpa [nextIs] using h.1
    rw [nextIs, List.head?_cons, Option.any_some, ht]
    rfl

theorem not_identifier_of_expectThat {f : Token → Bool} {ts : List Token} {p : Parsed ts}
    (h : expectThat f ts = .ok p) (hf : ∀ t : Token, t.kind = .identifier → f t = false) :
    nextIs .identifier ts = false := by
  obtain ⟨t, -, ht, hcons⟩ := expectThat_ok h
  rw [nextIs, hcons, List.head?_cons, Option.any_some]
  refine beq_false_of_ne fun hidentifier => ?_
  rw [hf t hidentifier] at ht
  cases ht

theorem expect_error {f : Token → Bool} {ts : List Token} {e : Failure}
    (h : expectThat f ts = .error e) : e = .mismatch := by
  unfold expectThat at h
  split at h
  · cases h
    rfl
  · split at h
    · cases h
    · cases h
      rfl

/-- A type that a mark may follow directly. -/
def IsCore (t : Tree) : Prop := ∃ kind cs, t = .node kind cs ∧ kind.isType = true ∧ kind ≠ .refType

/-- Tokens after a tree, together with it. -/
theorem OpenFollows.add {ts us : List Token} {p p₂ : Parsed ts} {p' p₂' : Parsed us}
    (h : OpenFollows w p p') (kind : NodeKind) {taken : List Token} (hne : taken ≠ [])
    (htree : p₂.tree = .node kind (p.tree :: taken.map .token))
    (htree' : p₂'.tree = .node kind (p'.tree :: (w.weaveOpen taken).map .token))
    (hrest' : p₂'.rest = w.pending taken ++ w.weave p₂.rest) : OpenFollows w p₂ p₂' := by
  have htokens : p₂.tree.tokens = p.tree.tokens ++ taken := by
    rw [htree]
    simp
  refine ⟨by rw [htokens, w.pending_append _ hne, hrest'], ?_, by rw [htree, htree']; rfl⟩
  rw [htokens, List.dropLast_append_of_ne_nil hne]
  intro hunmarked
  have hp : p'.tree = w.relabelTree p.tree := h.tree fun t ht =>
    hunmarked t (List.mem_append_left _ (List.dropLast_subset _ ht))
  have htaken : w.weaveOpen taken = taken.map w.relabel :=
    w.weaveOpen_of_unmarked fun t ht => hunmarked t (List.mem_append_right _ ht)
  rw [htree, htree', hp, htaken, relabelTree_node, List.map_cons, map_relabelTree_tokens]

/-- One token after a tree, together with it. -/
theorem OpenFollows.addToken {ts us : List Token} {p : Parsed ts} {p' : Parsed us}
    (h : OpenFollows w p p') (kind : NodeKind) {mark : Parsed p.rest} {mark' : Parsed p'.rest}
    (hmark : TokenFollows w mark mark') :
    OpenFollows w (((Begun.ofParsed p).add mark).finish kind)
      (((Begun.ofParsed p').add mark').finish kind) := by
  obtain ⟨t, htree, htree', -, hrest⟩ := hmark
  refine h.add kind (List.cons_ne_nil t []) ?_ ?_ hrest
  · show Tree.node _ [p.tree, mark.tree] = _
    rw [htree]
    rfl
  · show Tree.node _ [p'.tree, mark'.tree] = _
    rw [htree']
    rfl

/-- A mark that was woven in comes before an identifier. -/
theorem OpenFollows.rest_of_not_identifier {ts us : List Token} {p : Parsed ts} {p' : Parsed us}
    (h : OpenFollows w p p') (hsound : w.Sound ts) (hnot : nextIs .identifier p.rest = false) :
    p'.rest = w.weave p.rest := by
  rcases pending_cases (sound_parsed hsound p) with hnil | ⟨m, u, us, -, -, hrest, hu⟩
  · rw [h.rest, hnil, List.nil_append]
  · rw [hrest, nextIs, List.head?_cons, Option.any_some, hu] at hnot
    cases hnot

/-- A core that the marks fit has none inside. -/
theorem OpenFollows.tree_of_fits {ts us : List Token} {p : Parsed ts} {p' : Parsed us}
    (h : OpenFollows w p p') (hcore : IsCore p.tree) (hfits : w.Fits p.tree) :
    p'.tree = w.relabelTree p.tree := by
  obtain ⟨kind, cs, htree, hkind, -⟩ := hcore
  refine h.tree ?_
  rw [htree] at hfits ⊢
  rw [Tree.tokens_node]
  exact (fits_type hkind cs).mp hfits

/-- A mark that was woven in stands above its core. -/
theorem IsCore.tree_eq {t : Tree} (h : IsCore t) : w.tree t =
    match w.pending t.tokens with
    | m :: _ => .node .nullableType [w.relabelTree t, .token m]
    | [] => w.relabelTree t := by
  obtain ⟨kind, cs, rfl, hkind, href⟩ := h
  rw [tree_type hkind, Tree.tokens_node]
  cases w.pending (Tree.tokensAll cs) with
  | nil => rfl
  | cons m ms =>
    show markType m (w.relabelTree (.node kind cs)) = _
    rw [relabelTree_node, markType, if_neg (by simpa using href)]

/-- Where no mark comes next, both readers look for brackets and pointers. -/
theorem typeMarks_weave {ts us : List Token} (hsound : w.Sound ts) {p : Parsed ts} {p' : Parsed us}
    (hrest : p'.rest = w.weave p.rest) {e : Failure} (he : expect .question p.rest = .error e) :
    typeMarks p' =
      if startsArrayMark p.rest then
        balanced p'.rest >>= fun g =>
          typeMarks (((Begun.ofParsed p').extend (.ofRun g.toRun)).finish .arrayType)
      else
        match expectThat (fun t => t.kind == .operator && t.value == "*") p'.rest with
        | .ok mark => typeMarks (((Begun.ofParsed p').add mark).finish .pointerType)
        | .error _ => .ok p' := by
  have hquestion := expect_follows (w := w) .question p.rest
  have harray := startsArrayMark_weave (sound_parsed hsound p).of_append
  rw [← hrest] at hquestion harray
  cases expect_error he
  rw [typeMarks.eq_def p', hquestion.mismatch he, ← harray]
  cases balanced p'.rest <;> rfl

/-- A mark before an identifier is the last one. -/
theorem typeMarks_of_mark {us : List Token} {p : Parsed us} {m u : Token} {rest : List Token}
    (hrest : p.rest = m :: u :: rest) (hm : m.kind = .question) (hu : u.kind = .identifier) :
    ∃ q, typeMarks p = .ok q ∧ q.tree = .node .nullableType [p.tree, .token m]
      ∧ q.rest = u :: rest := by
  have hmark : ∃ mark, expect .question p.rest = .ok mark ∧ mark.tree = .token m
      ∧ mark.rest = u :: rest := by
    rw [hrest, expect, expectThat, if_pos (by simp [hm])]
    exact ⟨_, rfl, rfl, rfl⟩
  obtain ⟨mark, hmark, hmarktree, hmarkrest⟩ := hmark
  refine ⟨((Begun.ofParsed p).add mark).finish .nullableType, ?_, ?_, hmarkrest⟩
  · rw [typeMarks.eq_def p, hmark]
    exact typeMarks_of_identifier hmarkrest hu
  · show Tree.node _ [p.tree, mark.tree] = _
    rw [hmarktree]

/-- The marks after a type; a mark that was woven in is read with them. -/
theorem typeMarks_follows {ts us : List Token} (hsound : w.Sound ts) {p : Parsed ts}
    {p' : Parsed us} (h : OpenFollows w p p') (hcore : IsCore p.tree) :
    Follows (TreeFollows w) (typeMarks p) (typeMarks p') := by
  fun_induction typeMarks p generalizing p' with
  | case1 p mark hmark ih =>
    have hrest' := h.rest_of_not_identifier hsound
      (not_identifier_of_expectThat hmark (by simp +contextual))
    have hfollows := expect_follows (w := w) .question p.rest
    rw [← hrest'] at hfollows
    obtain ⟨mark', hmark', htoken⟩ := hfollows.ok hmark
    rw [typeMarks.eq_def p', hmark']
    exact ih (h.addToken .nullableType htoken) ⟨_, _, rfl, rfl, by simp⟩
  | case2 p e he hstarts e' he' =>
    have hrest' := h.rest_of_not_identifier hsound (not_identifier_of_startsArrayMark hstarts)
    have hgroup := balanced_follows (w := w) p.rest
    rw [← hrest'] at hgroup
    rw [typeMarks_weave hsound hrest' he, if_pos hstarts]
    cases e' with
    | fatal cause token => trivial
    | mismatch =>
      rw [hgroup.mismatch he']
      rfl
  | case3 p e he hstarts g hg ih =>
    have hrest' := h.rest_of_not_identifier hsound (not_identifier_of_startsArrayMark hstarts)
    have hgroup := balanced_follows (w := w) p.rest
    rw [← hrest'] at hgroup
    obtain ⟨g', hg', htaken, hgrest⟩ := hgroup.ok hg
    rw [typeMarks_weave hsound hrest' he, if_pos hstarts, hg']
    refine ih (h.add .arrayType (balanced_taken_ne_nil g) rfl ?_ hgrest) ⟨_, _, rfl, rfl, by simp⟩
    show Tree.node _ (p'.tree :: g'.taken.map .token) = _
    rw [htaken]
  | case4 p e he hstarts mark hmark ih =>
    have hrest' := h.rest_of_not_identifier hsound
      (not_identifier_of_expectThat hmark (by simp +contextual))
    have hpointer := expectThat_follows (w := w)
      (f := fun t => t.kind == .operator && t.value == "*") (by simp) p.rest
    rw [← hrest'] at hpointer
    obtain ⟨mark', hmark', htoken⟩ := hpointer.ok hmark
    rw [typeMarks_weave hsound hrest' he, if_neg hstarts, hmark']
    exact ih (h.addToken .pointerType htoken) ⟨_, _, rfl, rfl, by simp⟩
  | case5 p e he hstarts e' he' =>
    have hsoundrest : w.Sound p.rest := (sound_parsed hsound p).of_append
    rcases pending_cases (sound_parsed hsound p) with hnil | ⟨m, u, us, hm, hquestion, hrest, hu⟩
    · have hrest' : p'.rest = w.weave p.rest := by rw [h.rest, hnil, List.nil_append]
      have hpointer := expectThat_follows (w := w)
        (f := fun t => t.kind == .operator && t.value == "*") (by simp) p.rest
      rw [← hrest'] at hpointer
      cases expect_error he'
      rw [typeMarks_weave hsound hrest' he, if_neg hstarts, hpointer.mismatch he']
      refine ⟨p', rfl, hrest', hsoundrest, fun hfits => ?_, h.token⟩
      rw [h.tree_of_fits hcore hfits, hcore.tree_eq, hnil]
    · -- the mark that was woven in
      have hrest' : p'.rest = m :: w.weave (u :: us) := by rw [h.rest, hm, hrest]; rfl
      obtain ⟨q, hq, htree, hqrest⟩ := typeMarks_of_mark hrest' hquestion (by rw [kind_relabel, hu])
      refine ⟨q, hq, ?_, hsoundrest, fun hfits => ?_, ?_⟩
      · rw [hqrest, hrest]
        rfl
      · rw [htree, h.tree_of_fits hcore hfits, hcore.tree_eq, hm]
      · obtain ⟨kind, cs, hp, -⟩ := hcore
        rw [htree, hp]
        rfl

/-! ### States of type readers -/

/-- A reading that is followed, with no mark after the last token read. -/
structure RawFollows (w : Weaving) {ts us : List Token} (r : Reading ts) (r' : Reading us) : Prop where
  rest : r'.rest = w.weave r.rest
  children : (∀ t ∈ Tree.tokensAll r.children, w.marked t = false) →
    r'.children = r.children.map w.relabelTree
  tokens : TokensFollow w r.children r'.children

/-- A reading that is followed up to a mark that may come next. -/
structure OpenReads (w : Weaving) {ts us : List Token} (r : Reading ts) (r' : Reading us) : Prop where
  rest : r'.rest = w.pending (Tree.tokensAll r.children) ++ w.weave r.rest
  children : (∀ t ∈ (Tree.tokensAll r.children).dropLast, w.marked t = false) →
    r'.children = r.children.map w.relabelTree
  tokens : TokensFollow w r.children r'.children

/-- A tree that is read, with no mark after its last token. -/
structure RawTree (w : Weaving) {ts us : List Token} (p : Parsed ts) (p' : Parsed us) : Prop where
  rest : p'.rest = w.weave p.rest
  tree : (∀ t ∈ p.tree.tokens, w.marked t = false) → p'.tree = w.relabelTree p.tree
  token : TokensFollow w [p.tree] [p'.tree]

section States

variable {ts us : List Token}

theorem sound_reading (h : w.Sound ts) (r : Reading ts) :
    w.Sound (Tree.tokensAll r.children ++ r.rest) := by
  rw [r.complete]
  exact h

theorem TokensFollow.append {as as' bs bs' : List Tree} (h : TokensFollow w as as')
    (h' : TokensFollow w bs bs') : TokensFollow w (as ++ bs) (as' ++ bs') := by
  rw [TokensFollow, bareTokens_append, bareTokens_append, h, h', List.map_append]

theorem rawFollows_start (ts : List Token) :
    RawFollows w (Reading.start ts) (Reading.start (w.weave ts)) := ⟨rfl, fun _ => rfl, rfl⟩

theorem rawFollows_token (t : Token) (ts : List Token) :
    RawFollows w (Begun.token t ts).toReading (Begun.token (w.relabel t) (w.weave ts)).toReading :=
  ⟨rfl, fun _ => rfl, rfl⟩

theorem rawFollows_ofParsed {p : Parsed ts} {p' : Parsed us} (h : RawTree w p p') :
    RawFollows w (Begun.ofParsed p).toReading (Begun.ofParsed p').toReading := by
  refine ⟨h.rest, ?_, h.token⟩
  show (∀ t ∈ Tree.tokensAll [p.tree], w.marked t = false) → [p'.tree] = [p.tree].map w.relabelTree
  intro hunmarked
  rw [h.tree fun t ht => hunmarked t (by simp [ht])]
  rfl

theorem TokenFollows.open {p : Parsed ts} {p' : Parsed us} (h : TokenFollows w p p') :
    OpenFollows w p p' := by
  obtain ⟨t, ht, ht', -, hrest⟩ := h
  refine ⟨by rw [ht, Tree.tokens_token, pending_singleton, hrest], fun _ => ?_, by rw [ht, ht']; rfl⟩
  rw [ht, ht', relabelTree_token]

theorem TreeFollows.raw {p : Parsed ts} {p' : Parsed us} (h : TreeFollows w p p') :
    RawTree w p p' := by
  refine ⟨h.rest, fun hunmarked => ?_, h.token⟩
  rw [h.tree (fits_of_unmarked _ hunmarked), tree_of_unmarked _ hunmarked]

theorem RawFollows.add {r : Reading ts} {r' : Reading us} (h : RawFollows w r r')
    {p : Parsed r.rest} {p' : Parsed r'.rest} (hp : OpenFollows w p p') :
    OpenReads w (r.add p).toReading (r'.add p').toReading := by
  have htokens : Tree.tokensAll (r.children ++ [p.tree])
      = Tree.tokensAll r.children ++ p.tree.tokens := by simp
  refine ⟨?_, ?_, h.tokens.append hp.token⟩
  · show p'.rest = w.pending (Tree.tokensAll (r.children ++ [p.tree])) ++ w.weave p.rest
    rw [htokens, w.pending_append _ (tokens_ne_nil p), hp.rest]
  · show (∀ t ∈ (Tree.tokensAll (r.children ++ [p.tree])).dropLast, w.marked t = false) →
      r'.children ++ [p'.tree] = (r.children ++ [p.tree]).map w.relabelTree
    rw [htokens, List.dropLast_append_of_ne_nil (tokens_ne_nil p)]
    intro hunmarked
    rw [h.children fun t ht => hunmarked t (List.mem_append_left _ ht),
      hp.tree fun t ht => hunmarked t (List.mem_append_right _ ht)]
    simp

theorem RawFollows.addRaw {r : Reading ts} {r' : Reading us} (h : RawFollows w r r')
    {p : Parsed r.rest} {p' : Parsed r'.rest} (hp : RawTree w p p') :
    RawFollows w (r.add p).toReading (r'.add p').toReading := by
  refine ⟨hp.rest, ?_, h.tokens.append hp.token⟩
  show (∀ t ∈ Tree.tokensAll (r.children ++ [p.tree]), w.marked t = false) →
    r'.children ++ [p'.tree] = (r.children ++ [p.tree]).map w.relabelTree
  intro hunmarked
  rw [h.children fun t ht => hunmarked t (by simp [ht]),
    hp.tree fun t ht => hunmarked t (by simp [ht])]
  simp

theorem OpenReads.raw {r : Reading ts} {r' : Reading us} (h : OpenReads w r r')
    (hnil : w.pending (Tree.tokensAll r.children) = []) : RawFollows w r r' := by
  refine ⟨by rw [h.rest, hnil, List.nil_append], fun hunmarked => ?_, h.tokens⟩
  exact h.children fun t ht => hunmarked t (List.dropLast_subset _ ht)

/-- After what was read no mark comes, or one before an identifier. -/
theorem OpenReads.cases {r : Reading ts} {r' : Reading us} (h : OpenReads w r r')
    (hsound : w.Sound ts) : RawFollows w r r'
      ∨ nextIs .identifier r.rest = true ∧ nextIs .question r'.rest = true := by
  rcases pending_cases (sound_reading hsound r) with hnil | ⟨m, u, us, hm, hkind, hrest, hu⟩
  · exact .inl (h.raw hnil)
  · refine .inr ⟨?_, ?_⟩
    · simp [hrest, nextIs, hu]
    · simp [h.rest, hm, nextIs, hkind]

theorem OpenReads.finish {r : Begun ts} {r' : Begun us}
    (h : OpenReads w r.toReading r'.toReading) (kind : NodeKind) :
    OpenFollows w (r.finish kind) (r'.finish kind) := by
  refine ⟨?_, ?_, rfl⟩
  · show r'.rest = w.pending (Tree.node kind r.children).tokens ++ w.weave r.rest
    rw [Tree.tokens_node, h.rest]
  · show (∀ t ∈ (Tree.node kind r.children).tokens.dropLast, _) →
      Tree.node kind r'.children = w.relabelTree (.node kind r.children)
    rw [Tree.tokens_node]
    intro hunmarked
    rw [relabelTree_node, h.children hunmarked]

theorem RawFollows.finish {r : Begun ts} {r' : Begun us}
    (h : RawFollows w r.toReading r'.toReading) (kind : NodeKind) :
    RawTree w (r.finish kind) (r'.finish kind) := by
  refine ⟨h.rest, ?_, rfl⟩
  show (∀ t ∈ (Tree.node kind r.children).tokens, _) →
    Tree.node kind r'.children = w.relabelTree (.node kind r.children)
  rw [Tree.tokens_node]
  intro hunmarked
  rw [relabelTree_node, h.children hunmarked]

/-- A token that ends no type has no mark after it. -/
theorem RawFollows.addToken {r : Reading ts} {r' : Reading us} (h : RawFollows w r r')
    (hsound : w.Sound ts) {p : Parsed r.rest} {p' : Parsed r'.rest} (hp : TokenFollows w p p')
    (hends : ∀ t, p.tree = .token t → t.endsType = false) :
    RawFollows w (r.add p).toReading (r'.add p').toReading := by
  refine (h.add hp.open).raw ?_
  obtain ⟨t, ht, -, hcons, -⟩ := hp
  have hsoundrest : w.Sound r.rest := (sound_reading hsound r).of_append
  rw [hcons] at hsoundrest
  show w.pending (Tree.tokensAll (r.children ++ [p.tree])) = []
  rw [ht]
  simp [hsoundrest.unmarked (hends t ht)]

/-- Tokens with their marks, after what was read. -/
theorem RawFollows.extendRun {r : Begun ts} {r' : Begun us}
    (h : RawFollows w r.toReading r'.toReading) {s : Run r.rest} {s' : Run r'.rest}
    (hs : RunCovers w s s') (hunmarked : ∀ t ∈ s.taken, w.marked t = false) :
    RawFollows w (r.extend (.ofRun s)).toReading (r'.extend (.ofRun s')).toReading := by
  have htaken : s'.taken = s.taken.map w.relabel := by rw [hs.1, w.weave_of_unmarked hunmarked]
  refine ⟨hs.2, ?_, h.tokens.append ?_⟩
  · show (∀ t ∈ Tree.tokensAll (r.children ++ s.taken.map Tree.token), w.marked t = false) →
      r'.children ++ s'.taken.map Tree.token
        = (r.children ++ s.taken.map Tree.token).map w.relabelTree
    intro hall
    rw [h.children fun t ht => hall t (by simp [ht]), htaken, List.map_append,
      map_relabelTree_tokens]
  · rw [TokensFollow, Reading.children_ofRun, Reading.children_ofRun, htaken, bareTokens_map,
      bareTokens_map]

theorem RawFollows.optional {r : Begun ts} {r' : Begun us}
    (h : RawFollows w r.toReading r'.toReading) {f : Token → Bool}
    (hopt : RunCovers w (Run.optional f r.rest) (Run.optional f (w.weave r.rest)))
    (hunmarked : ∀ t ∈ (Run.optional f r.rest).taken, w.marked t = false) :
    RawFollows w (r.optional f).toReading (r'.optional f).toReading := by
  rw [← h.rest] at hopt
  exact h.extendRun hopt hunmarked

theorem mem_optional {f : Token → Bool} {ts : List Token} {t : Token}
    (h : t ∈ (Run.optional f ts).taken) : f t = true ∧ ∃ rest, ts = t :: rest := by
  cases ts with
  | nil => cases h
  | cons u us =>
    rw [Run.optional] at h
    split at h
    · next hu =>
      rw [List.mem_singleton.mp h]
      exact ⟨hu, us, rfl⟩
    · cases h

theorem optional_unmarked {f : Token → Bool} (hends : ∀ t, f t = true → t.endsType = false)
    {ts : List Token} (hsound : w.Sound ts) :
    ∀ t ∈ (Run.optional f ts).taken, w.marked t = false := by
  intro t ht
  obtain ⟨hf, rest, rfl⟩ := mem_optional ht
  exact hsound.unmarked (hends t hf)

/-- A token that may follow is taken, but for a mark after it. -/
theorem optional_cases {f : Token → Bool} (hf : ∀ t, f (w.relabel t) = f t) {ts : List Token}
    (hsound : w.Sound ts) :
    (RunCovers w (Run.optional f ts) (Run.optional f (w.weave ts))
        ∧ ∀ t ∈ (Run.optional f ts).taken, w.marked t = false)
      ∨ nextIs .identifier (Run.optional f ts).rest = true
        ∧ nextIs .question (Run.optional f (w.weave ts)).rest = true := by
  cases ts with
  | nil => exact .inl ⟨⟨rfl, rfl⟩, by simp [Run.optional, Run.none]⟩
  | cons t ts =>
    rw [weave_cons, Run.optional, Run.optional, hf]
    split
    · cases hmarked : w.marked t with
      | false =>
        refine .inl ⟨⟨?_, ?_⟩, by simpa [Run.cons, Run.none] using hmarked⟩
        · show [w.relabel t] = w.weave [t]
          simp [hmarked]
        · show w.after t ++ w.weave ts = w.weave ts
          simp [hmarked]
      | true =>
        refine .inr ⟨(hsound.1 hmarked).2, ?_⟩
        show nextIs .question (w.after t ++ w.weave ts) = true
        simp [w.after_of_marked hmarked, nextIs]
    · exact .inl ⟨⟨rfl, rfl⟩, by simp [Run.none]⟩

theorem expect_of_next {kind other : TokenKind} (hne : kind ≠ other) {us : List Token}
    (h : nextIs other us = true) : expect kind us = .error .mismatch := by
  cases us with
  | nil => cases h
  | cons u us =>
    have hu : u.kind = other := by simpa [nextIs] using h
    rw [expect, expectThat, hu, if_neg (by simpa using Ne.symm hne)]

/-- A token of a kind that ends no type. -/
theorem ends_of_expect {kind : TokenKind} {ts : List Token} {p : Parsed ts}
    (h : expect kind ts = .ok p) (hkind : kind.endsNoType = true) :
    ∀ t, p.tree = .token t → t.endsType = false := by
  intro t ht
  obtain ⟨s, hs, hskind, -⟩ := expectThat_ok h
  rw [hs] at ht
  cases ht
  rw [← beq_iff_eq.mp hskind] at hkind
  exact endsType_of_kind hkind

theorem aliasQualifier_raw (ts : List Token) (hsound : w.Sound ts) :
    RawFollows w (aliasQualifier ts) (aliasQualifier (w.weave ts)) := by
  cases ts with
  | nil => exact rawFollows_start []
  | cons t ts =>
    cases hmarked : w.marked t with
    | true =>
      obtain ⟨u, us, rfl, hu⟩ := hsound.next hmarked
      rw [weave_cons, w.after_of_marked hmarked, aliasQualifier, hu, if_neg (by simp),
        List.singleton_append, aliasQualifier, kind_mark, if_neg (by simp)]
      refine ⟨?_, fun _ => rfl, rfl⟩
      show _ = w.relabel t :: (w.after t ++ w.weave (u :: us))
      rw [w.after_of_marked hmarked]
      rfl
    | false =>
      rw [weave_cons, w.after_of_unmarked hmarked, List.nil_append]
      cases ts with
      | nil =>
        refine ⟨?_, fun _ => rfl, rfl⟩
        show _ = w.relabel t :: (w.after t ++ w.weave [])
        rw [w.after_of_unmarked hmarked]
        rfl
      | cons u us =>
        rw [weave_cons, aliasQualifier, aliasQualifier, kind_relabel, kind_relabel]
        split
        · next h =>
          have hu : w.marked u = false := by
            rw [Bool.and_eq_true, beq_iff_eq, beq_iff_eq] at h
            exact hsound.tail.unmarked (endsType_of_kind (by simp [h.2]))
          refine ⟨?_, fun _ => rfl, rfl⟩
          show w.after u ++ w.weave us = w.weave us
          simp [hu]
        · refine ⟨?_, fun _ => rfl, rfl⟩
          show _ = w.relabel t :: (w.after t ++ w.weave (u :: us))
          rw [w.after_of_unmarked hmarked]
          rfl

theorem segmentDot_of_not_dot {ts : List Token} (h : nextIs .dot ts = false) :
    segmentDot ts = .error .mismatch := by
  unfold segmentDot
  split
  · cases ts with
    | nil => rfl
    | cons t ts =>
      have ht : (t.kind == .dot) = false := by simpa [nextIs] using h
      rw [expect, expectThat, ht]
      rfl
  · rfl

theorem segmentDot_of_next {other : TokenKind} (hne : other ≠ .dot) {us : List Token}
    (h : nextIs other us = true) : segmentDot us = .error .mismatch := by
  refine segmentDot_of_not_dot ?_
  cases us with
  | nil => rfl
  | cons u us =>
    have hu : u.kind = other := by simpa [nextIs] using h
    simpa [nextIs, hu] using hne

theorem segmentDot_ok {ts : List Token} {p : Parsed ts} (h : segmentDot ts = .ok p) :
    expect .dot ts = .ok p := by
  unfold segmentDot at h
  split at h
  · exact h
  · cases h

theorem segmentDot_error {ts : List Token} {e : Failure} (h : segmentDot ts = .error e) :
    e = .mismatch := by
  unfold segmentDot at h
  split at h
  · exact expect_error h
  · cases h
    rfl

theorem typeArgumentList_of_next {other : TokenKind} (hne : other ≠ .lessThan) {us : List Token}
    (h : nextIs other us = true) : typeArgumentList us = .error .mismatch := by
  rw [typeArgumentList, expect_of_next hne.symm h]

theorem segmentDot_follows (ts : List Token) (hsound : w.Sound ts) :
    Follows (TokenFollows w) (segmentDot ts) (segmentDot (w.weave ts)) := by
  cases hnext : nextIs .dot ts with
  | false =>
    rw [segmentDot_of_not_dot hnext, segmentDot_of_not_dot (by rw [nextIs_weave, hnext])]
    rfl
  | true =>
    have hdot := expect_follows (w := w) .dot ts
    cases ts with
    | nil => cases hnext
    | cons t ts =>
      have hkind : t.kind = .dot := by simpa [nextIs] using hnext
      have hunmarked := hsound.unmarked (endsType_of_kind (by simp [hkind]))
      rw [weave_cons, w.after_of_unmarked hunmarked] at hdot ⊢
      rw [segmentDot, segmentDot, List.nil_append, List.tail_cons, List.tail_cons, nextIs_weave]
      split
      · exact hdot
      · rfl

end States

/-- A type, up to a mark that may follow it. -/
structure CoreFollows (w : Weaving) {ts us : List Token} (p : Parsed ts) (p' : Parsed us) : Prop
    extends OpenFollows w p p' where
  core : IsCore p.tree
  childTokens : p'.tree.childTokens = p.tree.childTokens.map w.relabel

theorem tree_isType {t : Tree} (h : t.IsType) :
    w.tree t = ((w.pending t.tokens).head?.map (markType · (w.relabelTree t))).getD
      (w.relabelTree t) := by
  cases t with
  | token s => cases h.isType
  | node kind cs => rw [tree_type (by simpa using h.isType), Tree.tokens_node]

theorem fits_isType {t : Tree} (h : t.IsType) :
    w.Fits t ↔ ∀ s ∈ t.tokens.dropLast, w.marked s = false := by
  cases t with
  | token s => cases h.isType
  | node kind cs => rw [fits_type (by simpa using h.isType), Tree.tokens_node]

theorem markLast_concat (m : Token) (ts : List Tree) (t : Tree) :
    markLast m (ts ++ [t]) = ts ++ [markType m t] := by
  induction ts with
  | nil => simp [markLast]
  | cons u ts ih => simp [markLast, ih]

/-- A mark after `ref` and a type belongs to the type. -/
theorem treeFollows_ref {ts us : List Token} {r : Begun ts} {r' : Begun us}
    (h : RawFollows w r.toReading r'.toReading) {p : Parsed r.rest} {p' : Parsed r'.rest}
    (hp : TreeFollows w p p') (htype : p.tree.IsType) :
    TreeFollows w ((r.add p).finish .refType) ((r'.add p').finish .refType) := by
  refine ⟨hp.rest, hp.sound, ?_, rfl⟩
  show w.Fits (.node .refType (r.children ++ [p.tree])) →
    Tree.node .refType (r'.children ++ [p'.tree]) = w.tree (.node .refType (r.children ++ [p.tree]))
  have htokens : Tree.tokensAll (r.children ++ [p.tree])
      = Tree.tokensAll r.children ++ p.tree.tokens := by simp
  rw [fits_type rfl, tree_type rfl, htokens, List.dropLast_append_of_ne_nil (tokens_ne_nil p),
    w.pending_append _ (tokens_ne_nil p), relabelTree_node, List.map_append]
  intro hunmarked
  have hp' := hp.tree ((fits_isType htype).mpr fun t ht =>
    hunmarked t (List.mem_append_right _ ht))
  rw [h.children fun t ht => hunmarked t (List.mem_append_left _ ht), hp', tree_isType htype]
  cases (w.pending p.tree.tokens).head? with
  | none => rfl
  | some m =>
    show _ = markType m (.node .refType (r.children.map w.relabelTree ++ [w.relabelTree p.tree]))
    rw [markType, markLast_concat]
    rfl

mutual

/-- A type is read with the mark that was woven in after it. -/
theorem type_follows : (ts : List Token) → w.Sound ts →
    Follows (TreeFollows w) (type ts) (type (w.weave ts))
  | [], _ => by
    rw [weave_nil, type]
    rfl
  | t :: rest, hsound => by
    have halias := aliasQualifier_raw (t :: rest) hsound
    have hle := (aliasQualifier (t :: rest)).length_le
    rw [weave_cons] at halias ⊢
    rw [type, type, isKeyword_relabel, isKeyword_relabel, kind_relabel]
    split
    · next href =>
      have hunmarked := hsound.unmarked (endsType_of_isKeyword href (by decide))
      have hopt := optional_covers (w := w) (f := (·.isKeyword ["readonly"])) (by simp)
        (fun u hu => endsType_of_isKeyword hu (by decide)) hsound.tail
      rw [w.after_of_unmarked hunmarked, List.nil_append]
      have hr := (rawFollows_token t rest).optional hopt
        (optional_unmarked (fun u hu => endsType_of_isKeyword hu (by decide)) hsound.tail)
      have hlt := ((Begun.token t rest).optional (·.isKeyword ["readonly"])).progress
      have htype := type_follows ((Begun.token t rest).optional (·.isKeyword ["readonly"])).rest
        (sound_reading hsound _).of_append
      rw [← hr.rest] at htype
      dsimp only
      cases hp : type ((Begun.token t rest).optional (·.isKeyword ["readonly"])).rest with
      | error e => exact htype.error hp rfl fun h => by rw [h]
      | ok p =>
        obtain ⟨p', hp', htree⟩ := htype.ok hp
        rw [hp']
        exact ⟨_, rfl, treeFollows_ref hr htree (type_isType hp)⟩
    split
    · next hparen =>
      have hunmarked := hsound.unmarked (endsType_of_kind (by simp [beq_iff_eq.mp hparen]))
      rw [w.after_of_unmarked hunmarked, List.nil_append]
      have hlt := (Begun.token t rest).progress
      have htuple := tupleElements_follows hsound (rawFollows_token t rest) 0
      cases hp : tupleElements (Begun.token t rest) 0 with
      | error e => exact htuple.error hp rfl fun h => by rw [h]
      | ok p =>
        obtain ⟨p', hp', hcore⟩ := htuple.ok hp
        rw [hp']
        exact typeMarks_follows hsound hcore.toOpenFollows hcore.core
    split
    · refine typeMarks_follows hsound ⟨?_, fun _ => ?_, rfl⟩ ⟨_, _, rfl, rfl, by simp⟩
      · show _ = w.pending (Tree.node _ [.token t]).tokens ++ w.weave rest
        simp [Begun.token, Begun.finish]
      · show Tree.node _ [.token (w.relabel t)] = w.relabelTree (.node _ [.token t])
        simp
    split
    · have hname := nameSegments_follows hsound halias none
      cases hp : nameSegments (aliasQualifier (t :: rest)) none with
      | error e => exact hname.error hp rfl fun h => by rw [h]
      | ok p =>
        obtain ⟨p', hp', hcore⟩ := hname.ok hp
        rw [hp']
        exact typeMarks_follows hsound hcore.toOpenFollows hcore.core
    · rfl
termination_by ts => (ts.length, 1)
decreasing_by all_goals (simp only [Prod.lex_def]; omega)

/-- The elements of a tuple. -/
theorem tupleElements_follows {ts us : List Token} {r : Begun ts} {r' : Begun us}
    (hsound : w.Sound ts) (h : RawFollows w r.toReading r'.toReading) (count : Nat) :
    Follows (CoreFollows w) (tupleElements r count) (tupleElements r' count) := by
  have htype := type_follows r.rest (sound_reading hsound r.toReading).of_append
  rw [← h.rest] at htype
  rw [tupleElements.eq_def r, tupleElements.eq_def r']
  cases hp : type r.rest with
  | error e => exact htype.error hp rfl fun h => by rw [h]
  | ok p =>
    obtain ⟨p', hp', htree⟩ := htype.ok hp
    rw [hp']
    dsimp only
    -- a mark after the name of an element is no end of it
    have hmore : RawFollows w
        (r.add (((Begun.ofParsed p).optional (·.kind == .identifier)).finish .tupleElement)).toReading
        (r'.add (((Begun.ofParsed p').optional (·.kind == .identifier)).finish
          .tupleElement)).toReading
        ∨ nextIs .identifier (((Begun.ofParsed p).optional (·.kind == .identifier)).finish
            .tupleElement).rest = true
          ∧ nextIs .question (((Begun.ofParsed p').optional (·.kind == .identifier)).finish
            .tupleElement).rest = true := by
      rcases optional_cases (w := w) (f := (·.kind == .identifier)) (by simp) htree.sound with
        ⟨hopt, hunmarked⟩ | hstuck
      · exact .inl (h.addRaw
          (((rawFollows_ofParsed htree.raw).optional hopt hunmarked).finish .tupleElement))
      · rw [← htree.rest] at hstuck
        exact .inr hstuck
    have hlt := (((Begun.ofParsed p).optional (·.kind == .identifier)).finish .tupleElement).progress
    generalize ((Begun.ofParsed p).optional (·.kind == .identifier)).finish .tupleElement = element
      at hmore hlt ⊢
    generalize ((Begun.ofParsed p').optional (·.kind == .identifier)).finish .tupleElement = element'
      at hmore ⊢
    rcases hmore with hmore | ⟨hident, hquestion⟩
    · have hcomma := expect_follows (w := w) .comma (r.add element).rest
      have hparen := expect_follows (w := w) .rparen (r.add element).rest
      rw [← hmore.rest] at hcomma hparen
      cases hc : expect .comma (r.add element).rest with
      | ok comma =>
        obtain ⟨comma', hc', htoken⟩ := hcomma.ok hc
        rw [hc']
        have hlt' := comma.progress
        exact tupleElements_follows hsound (hmore.addToken hsound htoken (ends_of_expect hc (by simp)))
          (count + 1)
      | error e =>
        cases expect_error hc
        rw [hcomma.mismatch hc]
        dsimp only
        cases hc' : expect .rparen (r.add element).rest with
        | error e => exact hparen.error hc' rfl fun h => by rw [h]
        | ok closing =>
          obtain ⟨closing', hclosing', htoken⟩ := hparen.ok hc'
          rw [hclosing']
          dsimp only
          split
          · rfl
          · exact ⟨_, rfl, (hmore.add htoken.open).finish .tupleType, ⟨_, _, rfl, rfl, by simp⟩,
              (hmore.add htoken.open).tokens⟩
    · have hident : nextIs .identifier (r.add element).rest = true := hident
      have hquestion : nextIs .question (r'.add element').rest = true := hquestion
      rw [expect_of_next (by simp) hident, expect_of_next (by simp) hquestion]
      dsimp only
      rw [expect_of_next (by simp) hident, expect_of_next (by simp) hquestion]
      rfl
termination_by (r.rest.length, 2)
decreasing_by
  · exact Prod.Lex.right _ (by decide)
  · exact Prod.Lex.left _ _ (Nat.lt_trans comma.progress hlt)

/-- The segments of a name. -/
theorem nameSegments_follows {ts us : List Token} {r : Reading ts} {r' : Reading us}
    (hsound : w.Sound ts) (h : RawFollows w r r') (limit : Option Nat) :
    Follows (CoreFollows w) (nameSegments r limit) (nameSegments r' limit) := by
  have hident := expect_follows (w := w) .identifier r.rest
  rw [← h.rest] at hident
  rw [nameSegments.eq_def r, nameSegments.eq_def r']
  cases hp : expect .identifier r.rest with
  | error e => exact hident.error hp rfl fun h => by rw [h]
  | ok p =>
    obtain ⟨p', hp', htoken⟩ := hident.ok hp
    have hlt := p.progress
    have hopen := h.add htoken.open
    rw [hp']
    dsimp only
    rcases hopen.cases hsound with hraw | ⟨hnext, hquestion⟩
    · have hargs := typeArgumentList_follows p.rest
        (sound_reading hsound (r.add p).toReading).of_append
      have hrest' : p'.rest = w.weave p.rest := hraw.rest
      rw [← hrest'] at hargs
      cases hq : typeArgumentList p.rest with
      | error e =>
        cases e with
        | fatal cause token => trivial
        | mismatch =>
          rw [hargs.mismatch hq]
          exact nameTail_follows hsound hopen limit
      | ok args =>
        obtain ⟨args', hargs', hfollows⟩ := hargs.ok hq
        have hlt' := args.progress
        rw [hargs']
        exact nameTail_follows hsound (hraw.add hfollows) limit
    · -- no type arguments start with an identifier or a mark
      have hnext : nextIs .identifier p.rest = true := hnext
      have hquestion : nextIs .question p'.rest = true := hquestion
      rw [typeArgumentList_of_next (by simp) hnext, typeArgumentList_of_next (by simp) hquestion]
      exact nameTail_follows hsound hopen limit
termination_by (r.rest.length, 0)
decreasing_by
  · exact Prod.Lex.left _ _ hlt
  · exact Prod.Lex.left _ _ hlt
  · exact Prod.Lex.left _ _ (Nat.lt_trans hlt' hlt)
  · exact Prod.Lex.left _ _ hlt

/-- The segments of a name after a first one. -/
theorem nameTail_follows {ts us : List Token} {named : Begun ts} {named' : Begun us}
    (hsound : w.Sound ts) (h : OpenReads w named.toReading named'.toReading) (limit : Option Nat) :
    Follows (CoreFollows w) (nameTail named limit) (nameTail named' limit) := by
  have hdone : CoreFollows w (named.finish .name) (named'.finish .name) :=
    ⟨h.finish .name, ⟨_, _, rfl, rfl, by simp⟩, h.tokens⟩
  rw [nameTail.eq_def named, nameTail.eq_def named']
  split
  · exact ⟨_, rfl, hdone⟩
  rcases h.cases hsound with hraw | ⟨hnext, hquestion⟩
  · have hdot := segmentDot_follows named.rest
      (sound_reading hsound named.toReading).of_append
    rw [← hraw.rest] at hdot
    cases hd : segmentDot named.rest with
    | error e =>
      cases segmentDot_error hd
      rw [hdot.mismatch hd]
      exact ⟨_, rfl, hdone⟩
    | ok dot =>
      obtain ⟨dot', hd', htoken⟩ := hdot.ok hd
      have hlt := dot.progress
      rw [hd']
      exact nameSegments_follows hsound
        (hraw.addToken hsound htoken (ends_of_expect (segmentDot_ok hd) (by simp)))
        (limit.map (· - 1))
  · rw [segmentDot_of_next (by simp) hnext, segmentDot_of_next (by simp) hquestion]
    exact ⟨_, rfl, hdone⟩
termination_by (named.rest.length, 0)
decreasing_by exact Prod.Lex.left _ _ hlt

/-- Type arguments, with the brackets around them. -/
theorem typeArgumentList_follows : (ts : List Token) → w.Sound ts →
    Follows (OpenFollows w) (typeArgumentList ts) (typeArgumentList (w.weave ts)) := by
  intro ts hsound
  have hopening := expect_follows (w := w) .lessThan ts
  rw [typeArgumentList.eq_def ts, typeArgumentList.eq_def (w.weave ts)]
  cases hp : expect .lessThan ts with
  | error e => exact hopening.error hp rfl fun h => by rw [h]
  | ok opening =>
    obtain ⟨opening', hp', htoken⟩ := hopening.ok hp
    have hlt := opening.progress
    rw [hp']
    exact typeArguments_follows hsound
      ((rawFollows_start ts).addToken hsound htoken (ends_of_expect hp (by simp)))
termination_by ts => (ts.length, 0)
decreasing_by exact Prod.Lex.left _ _ hlt

/-- Type arguments and the closing bracket. -/
theorem typeArguments_follows {ts us : List Token} {r : Begun ts} {r' : Begun us}
    (hsound : w.Sound ts) (h : RawFollows w r.toReading r'.toReading) :
    Follows (OpenFollows w) (typeArguments r) (typeArguments r') := by
  have htype := type_follows r.rest (sound_reading hsound r.toReading).of_append
  rw [← h.rest] at htype
  rw [typeArguments.eq_def r, typeArguments.eq_def r']
  cases hp : type r.rest with
  | error e => exact htype.error hp rfl fun h => by rw [h]
  | ok p =>
    obtain ⟨p', hp', htree⟩ := htype.ok hp
    have hlt := p.progress
    have hmore := h.addRaw htree.raw
    have hcomma := expect_follows (w := w) .comma p.rest
    have hclosing := expect_follows (w := w) .greaterThan p.rest
    rw [← htree.rest] at hcomma hclosing
    rw [hp']
    dsimp only
    cases hc : expect .comma p.rest with
    | ok comma =>
      obtain ⟨comma', hc', htoken⟩ := hcomma.ok hc
      have hlt' := comma.progress
      rw [hc']
      exact typeArguments_follows hsound (hmore.addToken hsound htoken (ends_of_expect hc (by simp)))
    | error e =>
      cases expect_error hc
      rw [hcomma.mismatch hc]
      dsimp only
      cases hg : expect .greaterThan p.rest with
      | error e => exact hclosing.error hg rfl fun h => by rw [h]
      | ok closing =>
        obtain ⟨closing', hclosing', htoken⟩ := hclosing.ok hg
        rw [hclosing']
        exact ⟨_, rfl, (hmore.add htoken.open).finish .typeArgumentList⟩
termination_by (r.rest.length, 2)
decreasing_by
  · exact Prod.Lex.right _ (by decide)
  · exact Prod.Lex.left _ _ (Nat.lt_trans hlt' hlt)

end

theorem name_follows {ts : List Token} (hsound : w.Sound ts) :
    Follows (CoreFollows w) (name ts) (name (w.weave ts)) :=
  nameSegments_follows hsound (aliasQualifier_raw ts hsound) none

theorem nameUpTo_follows {ts : List Token} (hsound : w.Sound ts) (count : Nat) :
    Follows (CoreFollows w) (nameUpTo count ts) (nameUpTo count (w.weave ts)) :=
  nameSegments_follows hsound (aliasQualifier_raw ts hsound) (some count)

theorem CoreFollows.segmentCount {ts us : List Token} {p : Parsed ts} {p' : Parsed us}
    (h : CoreFollows w p p') : segmentCount p'.tree = segmentCount p.tree := by
  have hfilter : (fun t : Token => t.kind == .identifier) ∘ w.relabel
      = fun t => t.kind == .identifier := by
    funext t
    simp
  rw [Grammar.segmentCount, Grammar.segmentCount, h.childTokens, List.filter_map, hfilter]
  simp

/-! ## Where a mark comes first -/

theorem type_of_question {us : List Token} (h : nextIs .question us = true) :
    type us = .error .mismatch := by
  cases us with
  | nil => cases h
  | cons m us =>
    have hm : m.kind = .question := by simpa [nextIs] using h
    rw [type, Token.isKeyword, Token.isKeyword, hm]
    rfl

theorem aliasQualifier_of_question {us : List Token} (h : nextIs .question us = true) :
    aliasQualifier us = .start us := by
  cases us with
  | nil => cases h
  | cons m us =>
    have hm : m.kind = .question := by simpa [nextIs] using h
    cases us with
    | nil => rfl
    | cons u us =>
      rw [aliasQualifier, hm]
      rfl

theorem name_of_question {us : List Token} (h : nextIs .question us = true) :
    name us = .error .mismatch := by
  have hident : expect .identifier (Reading.start us).rest = .error .mismatch :=
    expect_of_next (by simp) h
  rw [name, aliasQualifier_of_question h, nameSegments, hident]

end NullableMarker.Grammar
