import NullableMarker.Proofs.ExactOutput

/-!
# Edits of outer trivia

The trivia before the first token of a tree and after its last token can be changed. Such an edit
goes past nodes without a token, and it changes one token where it stands: the nodes, their numbers
of children and all other tokens stay, and so does the text between the outer trivia.

* `Tree.Spot` — a tree with a spot for one token
* `Tree.exists_leading_spot`, `Tree.exists_trailing_spot` — the spots that the edits fill again
* `Tree.fullText_eq` — the text of a tree and the trivia around it
* `Tree.outer_trivia_edits` — what the edits change, and what they keep
-/

namespace NullableMarker

namespace Tree

/-! ## Spots -/

/-- A tree with a spot for one token. -/
inductive Spot where
  | here
  | inside (kind : NodeKind) (left : List Tree) (inner : Spot) (right : List Tree)
  deriving Inhabited

namespace Spot

/-- The tree with a token in the spot. -/
def fill (t : Token) : Spot → Tree
  | here => token t
  | inside kind left inner right => node kind (left ++ inner.fill t :: right)

/-- The tokens before the spot. -/
def before : Spot → List Token
  | here => []
  | inside _ left inner _ => tokensAll left ++ inner.before

/-- The tokens after the spot. -/
def after : Spot → List Token
  | here => []
  | inside _ _ inner right => inner.after ++ tokensAll right

theorem tokens_fill (s : Spot) (t : Token) : (s.fill t).tokens = s.before ++ t :: s.after := by
  induction s with
  | here => simp [fill, before, after]
  | inside kind left inner right ih => simp [fill, before, after, ih]

end Spot

/-- The kinds of the nodes of a tree with their numbers of children, in the order of `Tree.nodes`. -/
def branching (t : Tree) : List (Option NodeKind × Nat) :=
  t.nodes.map fun n => (n.kind?, n.children.length)

/-- Whatever token fills the spot, the nodes are of the same kinds and have as many children. -/
theorem Spot.branching_fill (s : Spot) (t u : Token) : (s.fill t).branching = (s.fill u).branching := by
  induction s with
  | here => simp [fill, branching]
  | inside kind left inner right ih =>
    unfold branching at ih ⊢
    simp only [fill, nodes_node, nodesAll_append, nodesAll_cons, List.map_cons, List.map_append, ih]
    simp [children, kind?]

/-! ## The spots of the outer tokens -/

mutual

/-- Other leading trivia changes a token with no token before it, and nothing else. -/
theorem exists_leading_spot : (t : Tree) → t.tokens ≠ [] → ∃ (s : Spot) (first : Token),
    s.before = [] ∧ t = s.fill first
      ∧ ∀ trivia, t.withLeading trivia = s.fill { first with leading := trivia }
  | token t, _ => ⟨.here, t, rfl, rfl, fun _ => by rw [withLeading, Spot.fill]⟩
  | node kind children, h => by
    rw [tokens_node] at h
    obtain ⟨left, s, first, right, hleft, hs, rfl, hedit⟩ := exists_leading_spot_of children h
    refine ⟨.inside kind left s right, first, ?_, rfl, fun trivia => ?_⟩
    · rw [Spot.before, hleft, hs, List.nil_append]
    · rw [withLeading, hedit, Spot.fill]

theorem exists_leading_spot_of : (ts : List Tree) → tokensAll ts ≠ [] →
    ∃ (left : List Tree) (s : Spot) (first : Token) (right : List Tree),
      tokensAll left = [] ∧ s.before = [] ∧ ts = left ++ s.fill first :: right
        ∧ ∀ trivia, withLeadingOf trivia ts
          = left ++ s.fill { first with leading := trivia } :: right
  | [], h => absurd tokensAll_nil h
  | t :: ts, h => by
    by_cases ht : t.tokens = []
    · -- a tree without a token is passed over
      rw [tokensAll_cons, ht, List.nil_append] at h
      obtain ⟨left, s, first, right, hleft, hs, rfl, hedit⟩ := exists_leading_spot_of ts h
      refine ⟨t :: left, s, first, right, ?_, hs, rfl, fun trivia => ?_⟩
      · rw [tokensAll_cons, ht, hleft, List.nil_append]
      · rw [withLeadingOf, firstToken?_eq, ht, if_neg (by simp), hedit, List.cons_append]
    · obtain ⟨s, first, hs, rfl, hedit⟩ := exists_leading_spot t ht
      refine ⟨[], s, first, ts, tokensAll_nil, hs, rfl, fun trivia => ?_⟩
      rw [withLeadingOf, firstToken?_eq, if_pos (List.isSome_head?.mpr ht), hedit, List.nil_append]

end

mutual

/-- Other trailing trivia changes a token with no token after it, and nothing else. -/
theorem exists_trailing_spot : (t : Tree) → t.tokens ≠ [] → ∃ (s : Spot) (last : Token),
    s.after = [] ∧ t = s.fill last
      ∧ ∀ trivia, t.withTrailing trivia = s.fill { last with trailing := trivia }
  | token t, _ => ⟨.here, t, rfl, rfl, fun _ => by rw [withTrailing, Spot.fill]⟩
  | node kind children, h => by
    rw [tokens_node] at h
    obtain ⟨left, s, last, right, hs, hright, rfl, hedit⟩ := exists_trailing_spot_of children h
    refine ⟨.inside kind left s right, last, ?_, rfl, fun trivia => ?_⟩
    · rw [Spot.after, hs, hright, List.nil_append]
    · rw [withTrailing, hedit, Spot.fill]

theorem exists_trailing_spot_of : (ts : List Tree) → tokensAll ts ≠ [] →
    ∃ (left : List Tree) (s : Spot) (last : Token) (right : List Tree),
      s.after = [] ∧ tokensAll right = [] ∧ ts = left ++ s.fill last :: right
        ∧ ∀ trivia, withTrailingOf trivia ts
          = left ++ s.fill { last with trailing := trivia } :: right
  | [], h => absurd tokensAll_nil h
  | t :: ts, h => by
    by_cases hts : tokensAll ts = []
    · -- no token comes after those of the first tree
      rw [tokensAll_cons, hts, List.append_nil] at h
      obtain ⟨s, last, hs, rfl, hedit⟩ := exists_trailing_spot t h
      refine ⟨[], s, last, ts, hs, hts, rfl, fun trivia => ?_⟩
      rw [withTrailingOf, lastTokenOf?_eq, hts, if_neg (by simp), hedit, List.nil_append]
    · obtain ⟨left, s, last, right, hs, hright, rfl, hedit⟩ := exists_trailing_spot_of ts hts
      refine ⟨t :: left, s, last, right, hs, hright, rfl, fun trivia => ?_⟩
      rw [withTrailingOf, lastTokenOf?_eq, if_pos (List.getLast?_isSome.mpr hts), hedit,
        List.cons_append]

end

/-! ## Texts -/

/-- The inner texts of tokens leave out the trivia after the last. -/
theorem join_innerTexts (init : List Token) (last : Token) :
    String.join (innerTexts (init ++ [last]))
      = Token.fullTextOf init ++ (Trivia.textOf last.leading ++ last.value) := by
  induction init with
  | nil => simp [innerTexts]
  | cons t init ih =>
    rw [List.cons_append, innerTexts, String.join_cons, ih, Token.fullTextOf_cons,
      String.append_assoc]
    exact List.append_ne_nil_of_right_ne_nil init (List.cons_ne_nil last [])

variable {t : Tree} {first last : Token} {inner : List Token}

theorem text_of_single (h : t.tokens = [first]) : t.text = first.value := by
  rw [text, h]

theorem text_of_ends (h : t.tokens = first :: (inner ++ [last])) :
    t.text = first.value ++ Trivia.textOf first.trailing
      ++ (Token.fullTextOf inner ++ (Trivia.textOf last.leading ++ last.value)) := by
  obtain ⟨u, us, hcons⟩ : ∃ u us, inner ++ [last] = u :: us :=
    List.exists_cons_of_ne_nil (List.append_ne_nil_of_right_ne_nil inner (List.cons_ne_nil last []))
  rw [text, h, hcons]
  dsimp only
  rw [← hcons, String.join_cons, String.join_cons, join_innerTexts, String.append_assoc]

/-- A list that is not empty has one element, or a first and a last one. -/
theorem single_or_ends {ts : List Token} (h : ts ≠ []) :
    (∃ t, ts = [t]) ∨ ∃ first inner last, ts = first :: (inner ++ [last]) := by
  obtain ⟨first, rest, rfl⟩ := List.exists_cons_of_ne_nil h
  rcases List.eq_nil_or_concat rest with rfl | ⟨inner, last, rfl⟩
  · exact .inl ⟨first, rfl⟩
  · exact .inr ⟨first, inner, last, by rw [List.concat_eq_append]⟩

/-- The text of a tree stands between its outer trivia. -/
theorem fullText_eq (h : t.tokens ≠ []) :
    t.fullText = Trivia.textOf t.leading ++ t.text ++ Trivia.textOf t.trailing := by
  rcases single_or_ends h with ⟨first, hsingle⟩ | ⟨first, inner, last, hends⟩
  · rw [text_of_single hsingle, fullText, leading, trailing, firstToken?_eq, lastToken?_eq, hsingle]
    simp [Token.fullText]
  · rw [text_of_ends hends, fullText, leading, trailing, firstToken?_eq, lastToken?_eq, hends]
    simp [Token.fullText, List.getLast?_cons, String.append_assoc]

/-- The trivia before the first token is not part of the text. -/
theorem text_withLeading (h : t.tokens ≠ []) (trivia : List Trivia) :
    (t.withLeading trivia).text = t.text := by
  rcases single_or_ends h with ⟨first, hsingle⟩ | ⟨first, inner, last, hends⟩
  · rw [text_of_single hsingle, text_of_single (tokens_withLeading trivia t hsingle)]
  · rw [text_of_ends hends, text_of_ends (tokens_withLeading trivia t hends)]

/-- Nor is the trivia after the last token. -/
theorem text_withTrailing (h : t.tokens ≠ []) (trivia : List Trivia) :
    (t.withTrailing trivia).text = t.text := by
  rcases single_or_ends h with ⟨last, hsingle⟩ | ⟨first, inner, last, hends⟩
  · have hedit : (t.withTrailing trivia).tokens = [] ++ [{ last with trailing := trivia }] :=
      tokens_withTrailing trivia t hsingle
    rw [text_of_single hsingle, text_of_single hedit]
  · have hedit : (t.withTrailing trivia).tokens
        = (first :: inner) ++ [{ last with trailing := trivia }] := tokens_withTrailing trivia t hends
    rw [text_of_ends hends, text_of_ends hedit]

/-! ## Edits -/

theorem branching_withLeading (h : t.tokens ≠ []) (trivia : List Trivia) :
    (t.withLeading trivia).branching = t.branching := by
  obtain ⟨s, first, -, rfl, hedit⟩ := exists_leading_spot t h
  rw [hedit]
  exact s.branching_fill _ _

theorem branching_withTrailing (h : t.tokens ≠ []) (trivia : List Trivia) :
    (t.withTrailing trivia).branching = t.branching := by
  obtain ⟨s, last, -, rfl, hedit⟩ := exists_trailing_spot t h
  rw [hedit]
  exact s.branching_fill _ _

theorem trailing_of_tokens {init : List Token} (h : t.tokens = init ++ [last]) :
    t.trailing = last.trailing := by
  rw [trailing, lastToken?_eq, h, List.getLast?_concat]
  rfl

/-- The mark comes after the text, and before the trivia that followed it. -/
theorem fullText_makeNullable {init : List Token} (h : t.tokens = init ++ [last]) :
    t.makeNullable.fullText
      = Trivia.textOf t.leading ++ t.text ++ "?" ++ Trivia.textOf t.trailing := by
  have hne : t.tokens ≠ [] := by simp [h]
  have hbefore : Trivia.textOf t.leading ++ t.text
      = Token.fullTextOf init ++ (Trivia.textOf last.leading ++ last.value) := by
    have hfull := fullText_eq hne
    rw [trailing_of_tokens h, fullText, h] at hfull
    rw [← String.append_left_inj (Trivia.textOf last.trailing), ← hfull]
    simp [Token.fullText, String.append_assoc]
  rw [fullText, tokens_makeNullable h, hbefore, trailing_of_tokens h]
  simp [Token.withMark, Token.fullText, questionMark, String.append_assoc]

/-- In a tree with a token, other leading trivia changes the first token where it stands and other
trailing trivia the last, whatever nodes without a token are passed over. The kinds of the nodes,
their numbers of children, all other tokens and the text stay. The full text is the text between the
outer trivia. A nullable mark comes right after the text and takes all the trivia that followed it. -/
theorem outer_trivia_edits (h : t.tokens ≠ []) :
    (∃ (s : Spot) (first : Token), t = s.fill first ∧ t.tokens = first :: s.after
        ∧ ∀ trivia, t.withLeading trivia = s.fill { first with leading := trivia }
          ∧ (t.withLeading trivia).tokens = { first with leading := trivia } :: s.after)
      ∧ (∃ (s : Spot) (last : Token), t = s.fill last ∧ t.tokens = s.before ++ [last]
        ∧ ∀ trivia, t.withTrailing trivia = s.fill { last with trailing := trivia }
          ∧ (t.withTrailing trivia).tokens = s.before ++ [{ last with trailing := trivia }])
      ∧ (∀ trivia, (t.withLeading trivia).branching = t.branching
        ∧ (t.withTrailing trivia).branching = t.branching
        ∧ (t.withLeading trivia).text = t.text ∧ (t.withTrailing trivia).text = t.text)
      ∧ t.fullText = Trivia.textOf t.leading ++ t.text ++ Trivia.textOf t.trailing
      ∧ t.makeNullable.fullText
        = Trivia.textOf t.leading ++ t.text ++ "?" ++ Trivia.textOf t.trailing
      ∧ ∃ init last, t.tokens = init ++ [last] ∧ last.trailing = t.trailing
        ∧ t.makeNullable.tokens
          = init ++ [{ last with trailing := [] }, questionMark t.trailing] := by
  obtain ⟨lead, first, hlead, hfirst, hwithLeading⟩ := exists_leading_spot t h
  obtain ⟨trail, last, htrail, hlast, hwithTrailing⟩ := exists_trailing_spot t h
  have hstart : t.tokens = first :: lead.after := by
    rw [hfirst, Spot.tokens_fill, hlead, List.nil_append]
  have hend : t.tokens = trail.before ++ [last] := by
    rw [hlast, Spot.tokens_fill, htrail]
  refine ⟨⟨lead, first, hfirst, hstart, fun trivia => ⟨hwithLeading trivia, ?_⟩⟩,
    ⟨trail, last, hlast, hend, fun trivia => ⟨hwithTrailing trivia, ?_⟩⟩,
    fun trivia => ⟨branching_withLeading h trivia, branching_withTrailing h trivia,
      text_withLeading h trivia, text_withTrailing h trivia⟩,
    fullText_eq h, fullText_makeNullable hend,
    trail.before, last, hend, (trailing_of_tokens hend).symm, ?_⟩
  · exact tokens_withLeading trivia t hstart
  · exact tokens_withTrailing trivia t hend
  · rw [tokens_makeNullable hend, trailing_of_tokens hend]
    rfl

/-- A parameter with one token, between nodes without any. -/
theorem outer_trivia_edits_single :
    ∃ t, t = node .parameter [node .modifiers [],
        token ⟨.identifier, "A", none, ⟨0, 0⟩, [⟨.whitespace, " "⟩], [⟨.multiLineComment, "/**/"⟩]⟩,
        node .name [node .modifiers []]]
      ∧ t.tokens ≠ [] ∧ (t.withLeading []).text = "A" ∧ (t.withTrailing []).text = "A"
      ∧ t.makeNullable.fullText = " A?/**/" := by
  refine ⟨_, rfl, ?_⟩
  have hne : (node .parameter [node .modifiers [],
      token ⟨.identifier, "A", none, ⟨0, 0⟩, [⟨.whitespace, " "⟩], [⟨.multiLineComment, "/**/"⟩]⟩,
      node .name [node .modifiers []]]).tokens ≠ [] := by simp
  obtain ⟨-, -, hkept, -, hnullable, -⟩ := outer_trivia_edits hne
  obtain ⟨-, -, hleading, htrailing⟩ := hkept []
  rw [hleading, htrailing, hnullable]
  decide

end Tree

end NullableMarker
