import NullableMarker.Proofs.RereadGroups
import NullableMarker.Proofs.TypePhrases

/-!
# Brackets

Three pairs of brackets group the tokens of a source. Reading them from the left, the closers that
are still awaited form a stack; tokens are nested when each closer is the one awaited first and none
is awaited in the end. What is kept as it stands is nested, and so is every type that is read.

* `awaited` — the closers awaited after some tokens
* `Nested` — tokens whose brackets match
* `Tree.Awaits` — the closers awaited after some trees whose nodes are all nested
* `Grammar.type_closed` — types
-/

namespace NullableMarker

open Grammar

/-! ## Tokens -/

/-- An opening or a closing bracket. -/
def TokenKind.isBracket (k : TokenKind) : Bool := (closer? k).isSome || isCloser k

/-- The closers awaited after one more token, innermost first; `none` at a closer that is not the
innermost one. -/
def awaitedNext (expected : List TokenKind) (k : TokenKind) : Option (List TokenKind) :=
  match closer? k with
  | some c => some (c :: expected)
  | none =>
    if isCloser k then
      if expected.head? = some k then some expected.tail else none
    else some expected

/-- The closers awaited after some tokens, if those of `expected` are awaited before them. -/
def awaited (expected : List TokenKind) (ts : List Token) : Option (List TokenKind) :=
  ts.foldlM (fun e t => awaitedNext e t.kind) expected

/-- Each closer matches the bracket opened last, and none is left open. -/
def Nested (ts : List Token) : Prop := awaited [] ts = some []

instance (ts : List Token) : Decidable (Nested ts) := inferInstanceAs (Decidable (_ = _))

section Tokens

variable {expected expected' : List TokenKind} {t : Token} {ts us : List Token} {c : TokenKind}

@[simp] theorem awaited_nil : awaited expected [] = some expected := rfl

theorem awaited_cons : awaited expected (t :: ts)
    = (awaitedNext expected t.kind).bind (awaited · ts) := rfl

theorem awaited_append :
    awaited expected (ts ++ us) = (awaited expected ts).bind (awaited · us) := by
  rw [awaited, List.foldlM_append]
  rfl

theorem awaitedNext_of_opener {k : TokenKind} (h : closer? k = some c) :
    awaitedNext expected k = some (c :: expected) := by
  simp [awaitedNext, h]

theorem awaitedNext_of_closer (h : isCloser c = true) :
    awaitedNext (c :: expected) c = some expected := by
  have hopener : closer? c = none := by
    cases c <;> first | rfl | cases h
  simp [awaitedNext, hopener, h]

theorem awaitedNext_of_not_isBracket {k : TokenKind} (h : k.isBracket = false) :
    awaitedNext expected k = some expected := by
  rw [TokenKind.isBracket, Bool.or_eq_false_iff, Option.isSome_eq_false_iff,
    Option.isNone_iff_eq_none] at h
  simp [awaitedNext, h.1, h.2]

/-- What is awaited further out plays no part. -/
theorem awaitedNext_frame {k : TokenKind} (h : awaitedNext expected k = some expected')
    (outer : List TokenKind) : awaitedNext (expected ++ outer) k = some (expected' ++ outer) := by
  unfold awaitedNext at h ⊢
  split at h
  · cases h
    rfl
  · split at h
    · next hcloser =>
      split at h
      · next hhead =>
        cases h
        cases expected with
        | nil => cases hhead
        | cons e es => simp_all
      · cases h
    · next hcloser =>
      cases h
      rw [if_neg hcloser]

theorem awaited_frame (h : awaited expected ts = some expected') (outer : List TokenKind) :
    awaited (expected ++ outer) ts = some (expected' ++ outer) := by
  induction ts generalizing expected with
  | nil =>
    rw [awaited_nil] at h ⊢
    cases h
    rfl
  | cons t ts ih =>
    rw [awaited_cons] at h ⊢
    obtain ⟨next, hnext, h⟩ := Option.bind_eq_some_iff.mp h
    rw [awaitedNext_frame hnext outer, Option.bind_some]
    exact ih h

theorem Nested.awaited_eq (h : Nested ts) (expected : List TokenKind) :
    awaited expected ts = some expected := awaited_frame h expected

theorem nested_nil : Nested [] := rfl

theorem Nested.append (hts : Nested ts) (hus : Nested us) : Nested (ts ++ us) := by
  rw [Nested, awaited_append, hts, Option.bind_some]
  exact hus

theorem nested_singleton (h : t.kind.isBracket = false) : Nested [t] := by
  rw [Nested, awaited_cons, awaitedNext_of_not_isBracket h]
  rfl

theorem Nested.cons (h : t.kind.isBracket = false) (hts : Nested ts) : Nested (t :: ts) :=
  (nested_singleton h).append hts

theorem nested_of_forall (h : ∀ t ∈ ts, t.kind.isBracket = false) : Nested ts := by
  induction ts with
  | nil => exact nested_nil
  | cons t ts ih =>
    exact (ih fun u hu => h u (List.mem_cons_of_mem t hu)).cons (h t List.mem_cons_self)

theorem isBracket_of_isWord {words : List String} (h : t.isWord words = true) :
    t.kind.isBracket = false := by
  rw [Token.isWord, Bool.and_eq_true, Bool.or_eq_true, beq_iff_eq, beq_iff_eq] at h
  rcases h.1 with hk | hk <;> rw [hk] <;> rfl

theorem isBracket_of_isKeyword {words : List String} (h : t.isKeyword words = true) :
    t.kind.isBracket = false := by
  rw [Token.isKeyword, Bool.and_eq_true, beq_iff_eq] at h
  rw [h.1]
  rfl

theorem isBracket_of_kind {k : TokenKind} (hk : k.isBracket = false) (h : (t.kind == k) = true) :
    t.kind.isBracket = false := by
  rw [beq_iff_eq.mp h]
  exact hk

end Tokens

/-! ## Trees -/

namespace Tree

/-- The closers awaited after some trees; below the trees all nodes are nested. -/
structure Awaits (expected : List TokenKind) (cs : List Tree) : Prop where
  tokens : awaited [] (tokensAll cs) = some expected
  nodes : ∀ n ∈ nodesAll cs, Nested n.tokens

/-- The tree and all nodes below it are nested. -/
def Closed (t : Tree) : Prop := Awaits [] [t]

section Trees

variable {expected : List TokenKind} {cs ds : List Tree} {c t : Tree} {s : Token} {k : TokenKind}

theorem awaits_nil : Awaits [] [] := ⟨by simp, by simp⟩

theorem Awaits.append (hcs : Awaits expected cs) (hds : Awaits [] ds) :
    Awaits expected (cs ++ ds) where
  tokens := by
    rw [tokensAll_append, awaited_append, hcs.tokens, Option.bind_some]
    exact Nested.awaited_eq hds.tokens expected
  nodes n hn := by
    rw [nodesAll_append] at hn
    exact (List.mem_append.mp hn).elim (hcs.nodes n) (hds.nodes n)

theorem Awaits.add (hcs : Awaits expected cs) (ht : t.Closed) : Awaits expected (cs ++ [t]) :=
  hcs.append ht

/-- Bare tokens that are nested. -/
theorem awaits_tokens {ts : List Token} (h : Nested ts) : Awaits [] (ts.map token) where
  tokens := by rwa [tokensAll_map_token]
  nodes n hn := by
    obtain ⟨u, hu, hn⟩ := mem_nodesAll hn
    obtain ⟨s, -, rfl⟩ := List.mem_map.mp hu
    simp at hn

theorem closed_token (h : s.kind.isBracket = false) : (token s).Closed :=
  awaits_tokens (nested_singleton h)

theorem closed_node {kind : NodeKind} (h : Awaits [] cs) : (node kind cs).Closed where
  tokens := by simpa using h.tokens
  nodes n hn := by
    rw [nodesAll_cons, nodes_node, nodesAll_nil, List.append_nil, List.mem_cons] at hn
    rcases hn with rfl | hn
    · rw [tokens_node]
      exact h.tokens
    · exact h.nodes n hn

theorem Closed.nested (h : t.Closed) : Nested t.tokens := by
  have htokens := h.tokens
  rwa [tokensAll_cons, tokensAll_nil, List.append_nil] at htokens

theorem Closed.nested_nodes (h : t.Closed) : ∀ n ∈ t.nodes, Nested n.tokens :=
  fun n hn => h.nodes n (by simpa using hn)

theorem Awaits.opened (hcs : Awaits expected cs) (h : closer? s.kind = some k) :
    Awaits (k :: expected) (cs ++ [token s]) where
  tokens := by
    rw [tokensAll_append, awaited_append, hcs.tokens, tokensAll_cons, tokens_token]
    show (awaitedNext expected s.kind).bind _ = _
    rw [awaitedNext_of_opener h]
    rfl
  nodes n hn := hcs.nodes n (by simpa using hn)

theorem Awaits.closed (hcs : Awaits (k :: expected) cs) (hk : isCloser k = true)
    (h : (s.kind == k) = true) : Awaits expected (cs ++ [token s]) where
  tokens := by
    rw [tokensAll_append, awaited_append, hcs.tokens, tokensAll_cons, tokens_token]
    show (awaitedNext (k :: expected) s.kind).bind _ = _
    rw [beq_iff_eq.mp h, awaitedNext_of_closer hk]
    rfl
  nodes n hn := hcs.nodes n (by simpa using hn)

end Trees

end Tree

namespace Grammar

open NullableMarker.Tree

/-! ## Groups -/

theorem closeAll_awaited {opener : Token} {expected : List TokenKind} {ts : List Token} {r : Run ts}
    (h : closeAll opener expected ts = .ok r) : awaited expected r.taken = some [] := by
  fun_induction closeAll opener expected ts with
  | case1 => cases h; rfl
  | case2 => cases h
  | case3 e es t ts c hc ih =>
    obtain ⟨s, hs, rfl⟩ := ok_of_map h
    rw [show (Run.cons t s).taken = t :: s.taken from rfl, awaited_cons, awaitedNext_of_opener hc]
    exact ih hs
  | case4 e es t ts hc hcloser heq ih =>
    obtain ⟨s, hs, rfl⟩ := ok_of_map h
    rw [beq_iff_eq] at heq
    rw [show (Run.cons t s).taken = t :: s.taken from rfl, awaited_cons, ← heq,
      awaitedNext_of_closer hcloser]
    exact ih hs
  | case5 => cases h
  | case6 e es t ts hc hcloser ih =>
    obtain ⟨s, hs, rfl⟩ := ok_of_map h
    have hbracket : t.kind.isBracket = false := by
      simp [TokenKind.isBracket, hc, hcloser]
    rw [show (Run.cons t s).taken = t :: s.taken from rfl, awaited_cons,
      awaitedNext_of_not_isBracket hbracket]
    exact ih hs

theorem balanced_nested {ts : List Token} {g : Group ts} (h : balanced ts = .ok g) :
    Nested g.taken := by
  unfold balanced at h
  split at h
  · cases h
  · next t rest =>
    split at h
    · cases h
    · next c hc =>
      obtain ⟨r, hr, rfl⟩ := ok_of_map h
      rw [Nested, show (Group.cons t r).taken = t :: r.taken from rfl, awaited_cons,
        awaitedNext_of_opener hc]
      exact closeAll_awaited hr

theorem isBracket_of_tests {k : TokenKind} (hopener : ¬(closer? k).isSome = true)
    (hcloser : ¬isCloser k = true) : k.isBracket = false := by
  rw [TokenKind.isBracket, Bool.or_eq_false_iff]
  exact ⟨Bool.not_eq_true _ ▸ hopener, Bool.not_eq_true _ ▸ hcloser⟩

/-- The tokens up to a stop hold their brackets in whole groups. -/
theorem takeUntil_nested {stop : Token → List Token → Bool} {ts : List Token} {r : Run ts}
    (h : takeUntil stop ts = .ok r) : Nested r.taken := by
  fun_induction takeUntil stop ts with
  | case1 => cases h
  | case2 => cases h; exact nested_nil
  | case3 => cases h
  | case4 t rest _ _ g hg ih =>
    obtain ⟨s, hs, rfl⟩ := ok_of_map h
    exact (balanced_nested hg).append (ih hs)
  | case5 => cases h
  | case6 t rest _ hopener hcloser ih =>
    obtain ⟨s, hs, rfl⟩ := ok_of_map h
    exact (ih hs).cons (isBracket_of_tests hopener hcloser)

theorem through_nested {kind : TokenKind} (hkind : kind.isBracket = false) {t : Token}
    (ht : t.kind.isBracket = false) {ts : List Token} {g : Group (t :: ts)}
    (h : through kind t ts = .ok g) : Nested g.taken := by
  obtain ⟨r, hr, -⟩ := ok_of_bind h
  obtain ⟨u, rest, hrest, hu⟩ := takeUntil_stops hr
  obtain ⟨g', hg', htaken, -⟩ := through_ok t hr hrest
  obtain rfl := Except.ok.inj (h.symm.trans hg')
  rw [htaken]
  exact ((takeUntil_nested hr).append (nested_singleton (isBracket_of_kind hkind hu))).cons ht

theorem optional_nested {f : Token → Bool} (hf : ∀ t, f t = true → t.kind.isBracket = false)
    (ts : List Token) : Nested (Run.optional f ts).taken := by
  unfold Run.optional
  split
  · exact nested_nil
  · next t rest =>
    split
    · next ht => exact nested_singleton (hf t ht)
    · exact nested_nil

theorem statementPart_nested {ts : List Token} {part : StatementPart ts}
    (h : statementPart ts = .ok part) : Nested part.taken := by
  unfold statementPart at h
  split at h
  · cases h
  · next t rest =>
    split at h
    · next hsemicolon =>
      cases h
      exact nested_singleton (isBracket_of_kind rfl hsemicolon)
    · split at h
      · cases h
      · split at h
        · cases h
        · next hcloser =>
          split at h
          · obtain ⟨g, hg, rfl⟩ := ok_of_map h
            exact (balanced_nested hg).append
              (optional_nested (fun _ => isBracket_of_kind rfl) g.rest)
          · split at h
            · obtain ⟨g, hg, rfl⟩ := ok_of_map h
              exact balanced_nested hg
            · next hopener =>
              cases h
              exact nested_singleton (isBracket_of_tests hopener hcloser)

theorem statement_nested {ts : List Token} {g : Group ts} (h : statement ts = .ok g) :
    Nested g.taken := by
  fun_induction statement ts with
  | case1 => cases h
  | case2 ts part hpart _ =>
    cases h
    exact statementPart_nested hpart
  | case3 ts part hpart _ ih =>
    obtain ⟨more, hmore, rfl⟩ := ok_of_map h
    exact (statementPart_nested hpart).append (ih hmore)

/-! ## Steps of readers -/

section Steps

variable {ts : List Token} {expected : List TokenKind}

theorem closed_expectThat {f : Token → Bool} (hf : ∀ t, f t = true → t.kind.isBracket = false) :
    Reads Closed (expectThat f) := by
  intro us p h
  obtain ⟨t, ht, hft, -⟩ := expectThat_ok h
  rw [ht]
  exact closed_token (hf t hft)

theorem closed_expect {kind : TokenKind} (hkind : kind.isBracket = false) :
    Reads Closed (expect kind) := closed_expectThat fun _ => isBracket_of_kind hkind

theorem closed_expectWord (words : List String) : Reads Closed (expectWord words) :=
  closed_expectThat fun _ => isBracket_of_isWord

theorem closed_expectKeyword (words : List String) : Reads Closed (expectKeyword words) :=
  closed_expectThat fun _ => isBracket_of_isKeyword

theorem closed_ofGroup {g : Group ts} (h : Nested g.taken) (kind : NodeKind) :
    (Parsed.ofGroup kind g).tree.Closed := closed_node (awaits_tokens h)

section Begun

variable {r s : Begun ts}

theorem awaits_next {reader : (us : List Token) → Except Failure (Parsed us)}
    (hreader : Reads Closed reader) (hr : Awaits expected r.children)
    (h : r.next reader = .ok s) : Awaits expected s.children := by
  obtain ⟨p, hp, rfl⟩ := Begun.next_ok h
  exact hr.add (hreader _ _ hp)

theorem awaits_nextIf {test : List Token → Bool}
    {reader : (us : List Token) → Except Failure (Parsed us)}
    (hreader : ∀ us p, test us = true → reader us = .ok p → p.tree.Closed)
    (hr : Awaits expected r.children) (h : r.nextIf test reader = .ok s) :
    Awaits expected s.children := by
  unfold Begun.nextIf at h
  split at h
  · next htest =>
    obtain ⟨p, hp, rfl⟩ := Begun.next_ok h
    exact hr.add (hreader _ _ htest hp)
  · cases h
    exact hr

theorem awaits_run (hr : Awaits expected r.children) {u : Run r.rest} (h : Nested u.taken) :
    Awaits expected (r.extend (.ofRun u)).children := hr.append (awaits_tokens h)

theorem awaits_optional (hr : Awaits expected r.children) {f : Token → Bool}
    (hf : ∀ t, f t = true → t.kind.isBracket = false) : Awaits expected (r.optional f).children :=
  awaits_run hr (optional_nested hf r.rest)

/-- What is read between an opening bracket and its closer. -/
theorem awaits_opening {opening c : TokenKind} (hc : closer? opening = some c) {p : Parsed ts}
    (h : expect opening ts = .ok p) : Awaits [c] (Begun.ofParsed p).children := by
  obtain ⟨t, ht, hkind, -⟩ := expectThat_ok h
  have hopened := awaits_nil.opened (s := t) (k := c) (by rw [beq_iff_eq.mp hkind]; exact hc)
  rw [Begun.children_ofParsed, ht]
  exact hopened

theorem awaits_closing {c : TokenKind} (hc : isCloser c = true)
    (hr : Awaits (c :: expected) r.children) {p : Parsed r.rest} (h : expect c r.rest = .ok p) :
    Awaits expected (r.add p).children := by
  obtain ⟨t, ht, hkind, -⟩ := expectThat_ok h
  rw [Begun.children_add, ht]
  exact hr.closed hc hkind

end Begun

end Steps

/-! ## Types -/

theorem closed_kind {t : Token} {kind : TokenKind} (ht : t.kind = kind)
    (hkind : kind.isBracket = false) : (token t).Closed := closed_token (ht ▸ hkind)

/-- In a type the brackets of tuples and of array marks match, and there are no others. -/
theorem Derives.awaits {phrase : Phrase} {cs : List Tree} (h : Derives phrase cs) :
    Awaits [] cs := by
  have hoptional : ∀ {o : Option Token}, (∀ t ∈ o, t.kind.isBracket = false) →
      Awaits [] (o.toList.map token) := fun ho =>
    awaits_tokens (nested_of_forall fun t ht => ho t (Option.mem_toList.mp ht))
  induction h with
  | ref hword hreadonly _ ih =>
    have hwords := (closed_token (isBracket_of_isKeyword hword)).append
      (hoptional fun t ht => isBracket_of_isKeyword (hreadonly t ht))
    exact closed_node (hwords.append ih)
  | predefined hword => exact closed_node (closed_token (isBracket_of_isKeyword hword))
  | name _ _ ihqualifier ih => exact closed_node (ihqualifier.append ih)
  | tuple hopening _ hclosing ih =>
    have hopened := awaits_nil.opened (k := .rparen) (by rw [hopening]; rfl)
    exact closed_node ((hopened.append ih).closed rfl (beq_iff_eq.mpr hclosing))
  | nullable _ hmark ih => exact closed_node (Awaits.add ih (closed_kind hmark rfl))
  | array _ _ hgroup ih =>
    exact closed_node (Awaits.append ih (awaits_tokens (balanced_nested hgroup)))
  | pointer _ hstar ih => exact closed_node (Awaits.add ih (closed_kind hstar.1 rfl))
  | unqualified | plain => exact awaits_nil
  | qualified hword hmark => exact Awaits.add (closed_kind hword rfl) (closed_kind hmark rfl)
  | segment hid _ ih => exact Awaits.append (closed_kind hid rfl) ih
  | dotted hid _ hdot _ iharguments ih =>
    have hsegment := Awaits.append (closed_kind hid rfl) iharguments
    have hmore := (hsegment.add (closed_kind hdot rfl)).append ih
    simpa using hmore
  | generic hopening _ hclosing ih =>
    exact closed_node ((Awaits.append (closed_kind hopening rfl) ih).add (closed_kind hclosing rfl))
  | element _ hname ih =>
    exact closed_node (Awaits.append ih (hoptional fun t ht => by rw [hname t ht]; rfl))
  | last _ ih => exact ih
  | more _ hcomma _ ihitem ih => exact (Awaits.add ihitem (closed_kind hcomma rfl)).append ih

theorem type_closed {ts : List Token} {p : Parsed ts} (h : type ts = .ok p) : p.tree.Closed :=
  (type_derives h).awaits

theorem reads_closed_type : Reads Closed type := fun _ _ h => type_closed h

end Grammar

end NullableMarker
