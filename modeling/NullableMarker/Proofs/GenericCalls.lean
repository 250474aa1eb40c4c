import NullableMarker.Proofs.Brackets
import NullableMarker.Proofs.TotalResolution

/-!
# Generic guard calls

Whether a name is called is told by a scan that counts angle brackets and gives up at certain tokens.
The grammar reads type arguments as trees. On what the grammar reads, the scan gets to the closing
angle bracket unless it gives up, and it gives up at tuples, since it takes their parentheses for the
end of the name. All other type arguments are passed over, however deep they are.

* `Tree.Scanned` — what the scan makes of the tokens of trees
* `Grammar.Derives.scanned` — what it makes of types
* `isInvoked_typeArguments` — calls with type arguments, and the guards among them
* `isInvoked_tuple` — a call that is missed
-/

namespace NullableMarker

/-! ## Tokens -/

section Tokens

variable {depth : Nat} {t : Token} {ts : List Token}

/-- An angle bracket. -/
def Token.isAngle (t : Token) : Bool := t.kind == .lessThan || t.kind == .greaterThan

/-- A token of an array mark as it should be. -/
def Token.isRankMark (t : Token) : Bool := [TokenKind.lbracket, .comma, .rbracket].contains t.kind

theorem afterTypeArguments_open (h : t.kind = .lessThan) :
    afterTypeArguments depth (t :: ts) = afterTypeArguments (depth + 1) ts := by
  rw [afterTypeArguments, h]
  rfl

theorem afterTypeArguments_close (h : t.kind = .greaterThan) :
    afterTypeArguments (depth + 1) (t :: ts)
      = if depth = 0 then some ts else afterTypeArguments depth ts := by
  rw [afterTypeArguments, h]
  cases depth <;> rfl

theorem afterTypeArguments_cons (h : t.isAngle = false) :
    afterTypeArguments depth (t :: ts)
      = if stopsTypeArguments t then none else afterTypeArguments depth ts := by
  obtain ⟨hless, hgreater⟩ := Bool.or_eq_false_iff.mp h
  rw [afterTypeArguments, hless, hgreater]
  rfl

/-- Other tokens than angle brackets leave the depth alone. -/
theorem afterTypeArguments_append {us : List Token} (h : ∀ u ∈ us, u.isAngle = false) :
    afterTypeArguments depth (us ++ ts)
      = if us.any stopsTypeArguments then none else afterTypeArguments depth ts := by
  induction us with
  | nil => rfl
  | cons u us ih =>
    rw [List.cons_append, afterTypeArguments_cons (h u List.mem_cons_self),
      ih fun v hv => h v (List.mem_cons_of_mem u hv), List.any_cons]
    cases stopsTypeArguments u <;> rfl

theorem not_isAngle_of_isRankMark (h : t.isRankMark = true) : t.isAngle = false := by
  unfold Token.isRankMark Token.isAngle at *
  generalize t.kind = k at *
  revert h
  cases k <;> decide

theorem not_stops_of_isRankMark (h : t.isRankMark = true) : stopsTypeArguments t = false := by
  unfold Token.isRankMark stopsTypeArguments at *
  generalize t.kind = k at *
  revert h
  cases k <;> decide

/-- A token that the scan passes over. -/
structure Token.Passed (t : Token) : Prop where
  angle : t.isAngle = false
  goesOn : stopsTypeArguments t = false

/-- The kinds of tokens that the scan looks at. -/
def watchedKinds : List TokenKind :=
  [.lessThan, .greaterThan, .semicolon, .lbrace, .rbrace, .lparen, .rparen, .equals, .eof]

theorem Token.Passed.of_kind {k : TokenKind} (h : (t.kind == k) = true) (hk : k ∉ watchedKinds) :
    t.Passed := by
  constructor
  · rw [isAngle, beq_iff_eq.mp h]
    revert hk
    cases k <;> decide
  · rw [stopsTypeArguments, beq_iff_eq.mp h]
    revert hk
    cases k <;> decide

theorem Token.Passed.of_isKeyword {words : List String} (h : t.isKeyword words = true) :
    t.Passed := by
  rw [isKeyword, Bool.and_eq_true] at h
  exact .of_kind h.1 (by decide)

end Tokens

/-! ## Trees -/

namespace Tree

/-- The tokens right under a node. -/
def ownTokens (t : Tree) : List Token :=
  t.children.flatMap fun
    | token u => [u]
    | node _ _ => []

/-- The tokens of all array marks among some nodes pass a test. -/
def RanksPass (f : Token → Bool) (nodes : List Tree) : Prop :=
  ∀ n ∈ nodes, n.isNode (· == .arrayType) = true → ∀ u ∈ n.ownTokens, f u = true

/-- What a scan from inside angle brackets makes of the tokens of trees: it passes over them, if there
is none that it gives up at; and it gives up at tuples only. -/
structure Scanned (cs : List Tree) : Prop where
  passes : RanksPass (!·.isAngle) (nodesAll cs) → ∀ depth, 0 < depth → ∀ rest,
    afterTypeArguments depth (tokensAll cs ++ rest)
      = if (tokensAll cs).any stopsTypeArguments then none else afterTypeArguments depth rest
  stops : RanksPass Token.isRankMark (nodesAll cs) →
    ((tokensAll cs).any stopsTypeArguments = true
      ↔ ∃ n ∈ nodesAll cs, n.isNode (· == .tupleType) = true)

section Trees

variable {f : Token → Bool} {cs ds : List Tree} {kind : NodeKind} {t : Token}

theorem RanksPass.of_append_left (h : RanksPass f (nodesAll (cs ++ ds))) :
    RanksPass f (nodesAll cs) := fun n hn =>
  h n (by rw [nodesAll_append]; exact List.mem_append_left _ hn)

theorem RanksPass.of_append_right (h : RanksPass f (nodesAll (cs ++ ds))) :
    RanksPass f (nodesAll ds) := fun n hn =>
  h n (by rw [nodesAll_append]; exact List.mem_append_right _ hn)

theorem nodesAll_node : nodesAll [node kind cs] = node kind cs :: nodesAll cs := by
  rw [nodesAll_cons, nodes_node, nodesAll_nil, List.append_nil]

theorem nodesAll_map_token (ts : List Token) : nodesAll (ts.map token) = [] := by
  induction ts with
  | nil => simp
  | cons t ts ih => simp [ih]

theorem RanksPass.of_node (h : RanksPass f (nodesAll [node kind cs])) :
    RanksPass f (nodesAll cs) := fun n hn =>
  h n (by rw [nodesAll_node]; exact List.mem_cons_of_mem _ hn)

theorem scanned_nil : Scanned [] where
  passes _ depth _ rest := by simp
  stops _ := by simp

theorem Scanned.append (hcs : Scanned cs) (hds : Scanned ds) : Scanned (cs ++ ds) where
  passes hranks depth hdepth rest := by
    rw [tokensAll_append, List.append_assoc, hcs.passes hranks.of_append_left depth hdepth,
      hds.passes hranks.of_append_right depth hdepth, List.any_append]
    cases (tokensAll cs).any stopsTypeArguments <;> rfl
  stops hranks := by
    rw [tokensAll_append, List.any_append, Bool.or_eq_true, hcs.stops hranks.of_append_left,
      hds.stops hranks.of_append_right, nodesAll_append]
    simp only [List.mem_append, or_and_right, exists_or]

theorem scanned_token (h : t.Passed) : Scanned [token t] where
  passes _ depth _ rest := by
    rw [tokensAll_cons, tokens_token, tokensAll_nil, List.append_nil]
    refine afterTypeArguments_append fun u hu => ?_
    rw [List.mem_singleton.mp hu]
    exact h.angle
  stops _ := by simp [h.goesOn]

theorem scanned_node (h : Scanned cs) (htuple : kind ≠ .tupleType) : Scanned [node kind cs] where
  passes hranks depth hdepth rest := by
    have hpasses := h.passes hranks.of_node depth hdepth rest
    simpa using hpasses
  stops hranks := by
    have hstops := h.stops hranks.of_node
    rw [nodesAll_node]
    simpa [isNode, kind?, htuple] using hstops

/-- The tokens of an array mark are passed over. -/
theorem scanned_array (h : Scanned cs) (marks : List Token) :
    Scanned [node .arrayType (cs ++ marks.map token)] := by
  have htokens : tokensAll [node .arrayType (cs ++ marks.map token)] = tokensAll cs ++ marks := by
    simp
  have hmarks : ∀ f : Token → Bool, RanksPass f (nodesAll [node .arrayType (cs ++ marks.map token)]) →
      ∀ u ∈ marks, f u = true := by
    intro f hranks u hu
    refine hranks (node .arrayType (cs ++ marks.map token)) (by simp) rfl u ?_
    refine List.mem_flatMap.mpr ⟨token u, ?_, List.mem_singleton.mpr rfl⟩
    exact List.mem_append_right _ (List.mem_map_of_mem hu)
  constructor
  · intro hranks depth hdepth rest
    have hangle : ∀ u ∈ marks, u.isAngle = false := by
      simpa using hmarks _ hranks
    rw [htokens, List.append_assoc, h.passes hranks.of_node.of_append_left depth hdepth,
      afterTypeArguments_append hangle, List.any_append]
    cases (tokensAll cs).any stopsTypeArguments <;> rfl
  · intro hranks
    have hplain : marks.any stopsTypeArguments = false :=
      List.any_eq_false.mpr fun u hu =>
        Bool.eq_false_iff.mp (not_stops_of_isRankMark (hmarks _ hranks u hu))
    rw [htokens, List.any_append, hplain, Bool.or_false, h.stops hranks.of_node.of_append_left,
      nodesAll_node, nodesAll_append, nodesAll_map_token, List.append_nil]
    simp [isNode, kind?]

/-- The scan gives up where a tuple starts. -/
theorem scanned_tuple (h : t.kind = .lparen) (more : List Tree) :
    Scanned [node .tupleType (token t :: more)] := by
  have hstops : stopsTypeArguments t = true := by rw [stopsTypeArguments, h]; rfl
  have hangle : t.isAngle = false := by rw [Token.isAngle, h]; rfl
  have hany : (tokensAll [node .tupleType (token t :: more)]).any stopsTypeArguments = true := by
    simp [hstops]
  constructor
  · intro _ depth _ rest
    rw [hany, if_pos rfl]
    show afterTypeArguments depth (tokensAll [node .tupleType (token t :: more)] ++ rest) = none
    rw [tokensAll_cons, tokens_node, tokensAll_cons, tokens_token]
    show afterTypeArguments depth (t :: _) = none
    rw [afterTypeArguments_cons hangle, if_pos hstops]
  · intro _
    rw [hany, nodesAll_node]
    simp [isNode, kind?]

end Trees

end Tree

namespace Grammar

open NullableMarker.Tree

/-! ## Types -/

/-- The node over type arguments: what is between its angle brackets. -/
structure Arguments (t : Tree) (cs : List Tree) : Prop where
  scanned : Scanned cs
  form : ∃ opening closing : Token, opening.kind = .lessThan ∧ closing.kind = .greaterThan
    ∧ t = node .typeArgumentList (token opening :: cs ++ [token closing])

namespace Arguments

variable {t : Tree} {cs : List Tree}

theorem ranksPass (h : Arguments t cs) {f : Token → Bool} (hranks : RanksPass f (nodesAll [t])) :
    RanksPass f (nodesAll cs) := by
  obtain ⟨opening, closing, -, -, rfl⟩ := h.form
  have hinner : RanksPass f (nodesAll ([token opening] ++ cs ++ [token closing])) := hranks.of_node
  exact hinner.of_append_left.of_append_right

/-- The scan gives up between the angle brackets or nowhere. -/
theorem any_stops (h : Arguments t cs) :
    t.tokens.any stopsTypeArguments = (tokensAll cs).any stopsTypeArguments := by
  obtain ⟨opening, closing, hopening, hclosing, rfl⟩ := h.form
  have hfirst : stopsTypeArguments opening = false := by rw [stopsTypeArguments, hopening]; rfl
  have hlast : stopsTypeArguments closing = false := by rw [stopsTypeArguments, hclosing]; rfl
  simp [hfirst, hlast]

/-- The scan gets to the closing angle bracket, where it ends if no other is open. -/
theorem afterTypeArguments_eq (h : Arguments t cs)
    (hranks : RanksPass (!·.isAngle) (nodesAll [t])) (depth : Nat) (rest : List Token) :
    afterTypeArguments depth (t.tokens ++ rest)
      = if t.tokens.any stopsTypeArguments then none
        else if depth = 0 then some rest else afterTypeArguments depth rest := by
  rw [h.any_stops]
  have hinner := h.scanned.passes (h.ranksPass hranks) (depth + 1) (Nat.succ_pos depth)
  obtain ⟨opening, closing, hopening, hclosing, rfl⟩ := h.form
  have htokens : (node .typeArgumentList (token opening :: cs ++ [token closing])).tokens ++ rest
      = opening :: (tokensAll cs ++ closing :: rest) := by
    simp
  rw [htokens, afterTypeArguments_open hopening, hinner, afterTypeArguments_close hclosing]

/-- The scan passes over type arguments inside others. -/
theorem scanned_tree (h : Arguments t cs) : Scanned [t] where
  passes hranks depth hdepth rest := by
    rw [tokensAll_cons, tokensAll_nil, List.append_nil, h.afterTypeArguments_eq hranks,
      if_neg (Nat.ne_of_gt hdepth)]
  stops hranks := by
    rw [tokensAll_cons, tokensAll_nil, List.append_nil, h.any_stops,
      h.scanned.stops (h.ranksPass hranks)]
    obtain ⟨opening, closing, -, -, rfl⟩ := h.form
    simp [isNode, kind?]

end Arguments

theorem scanned_optional {o : Option Token} (h : ∀ t ∈ o, t.Passed) :
    Scanned (o.toList.map token) := by
  cases o with
  | none => exact scanned_nil
  | some t => exact scanned_token (h t rfl)

theorem scanned_kind {t : Token} {kind : TokenKind} (ht : t.kind = kind)
    (hkind : kind ∉ watchedKinds) : Scanned [token t] :=
  scanned_token (.of_kind (beq_iff_eq.mpr ht) hkind)

/-- What the scan makes of types: it gives up at the parentheses of tuples, and passes over angle
brackets in pairs. -/
theorem Derives.scanned {phrase : Phrase} {cs : List Tree} (h : Derives phrase cs) :
    Scanned cs := by
  induction h with
  | ref hword hreadonly _ ih =>
    have hwords := (scanned_token (.of_isKeyword hword)).append
      (scanned_optional fun t ht => .of_isKeyword (hreadonly t ht))
    exact scanned_node (hwords.append ih) (by decide)
  | predefined hword => exact scanned_node (scanned_token (.of_isKeyword hword)) (by decide)
  | name _ _ ihqualifier ih => exact scanned_node (ihqualifier.append ih) (by decide)
  | tuple hopening => exact scanned_tuple hopening _
  | nullable _ hmark ih =>
    exact scanned_node (ih.append (scanned_kind hmark (by decide))) (by decide)
  | array _ _ _ ih => exact scanned_array ih _
  | pointer _ hstar ih =>
    exact scanned_node (ih.append (scanned_kind hstar.1 (by decide))) (by decide)
  | unqualified | plain => exact scanned_nil
  | qualified hword hmark =>
    exact (scanned_kind hword (by decide)).append (scanned_kind hmark (by decide))
  | segment hid _ ih => exact (scanned_kind hid (by decide)).append ih
  | dotted hid _ hdot _ iharguments ih =>
    have hsegment := (scanned_kind hid (by decide)).append iharguments
    exact hsegment.append ((scanned_kind hdot (by decide)).append ih)
  | generic hopening _ hclosing ih =>
    exact Arguments.scanned_tree ⟨ih, _, _, hopening, hclosing, rfl⟩
  | element _ hname ih =>
    have hnamed := scanned_optional fun t ht => .of_kind (beq_iff_eq.mpr (hname t ht)) (by decide)
    exact scanned_node (ih.append hnamed) (by decide)
  | last _ ih => exact ih
  | more _ hcomma _ ihitem ih =>
    exact ihitem.append ((scanned_kind hcomma (by decide)).append ih)

theorem typeArgumentList_arguments {ts : List Token} {p : Parsed ts}
    (h : typeArgumentList ts = .ok p) : ∃ cs, Arguments p.tree cs := by
  have hderives := typeArgumentList_derives h
  generalize htree : [p.tree] = cs at hderives
  cases hderives with
  | plain => cases htree
  | generic hopening htypes hclosing =>
    obtain ⟨htree, -⟩ := List.cons.inj htree
    exact ⟨_, htypes.scanned, _, _, hopening, hclosing, htree⟩

end Grammar

/-! ## Calls -/

section Calls

variable {ts : List Token} {args : Grammar.Parsed ts}

/-- A name with type arguments is called unless the scan gives up at a token of them. -/
theorem isInvoked_iff (h : Grammar.typeArgumentList ts = .ok args)
    (hranks : Tree.RanksPass (!·.isAngle) args.tree.nodes) :
    isInvoked ts = true ↔ args.tree.tokens.any stopsTypeArguments = false
      ∧ Grammar.nextIs .lparen args.rest = true := by
  obtain ⟨cs, hcs⟩ := Grammar.typeArgumentList_arguments h
  have hscan := hcs.afterTypeArguments_eq (by simpa using hranks) 0 args.rest
  rw [args.complete, if_pos rfl] at hscan
  have hhead : (ts.head?.map (·.kind)) = some .lessThan := by
    obtain ⟨opening, closing, hopening, -, htree⟩ := hcs.form
    rw [← args.complete, htree]
    simp [hopening]
  unfold isInvoked
  rw [hhead, hscan]
  cases args.tree.tokens.any stopsTypeArguments with
  | true => simp
  | false => simp [Grammar.nextIs]

/-- If array marks are as they should be, a name with type arguments is called unless a tuple is
among them. -/
theorem isInvoked_iff_no_tuple (h : Grammar.typeArgumentList ts = .ok args)
    (hranks : Tree.RanksPass Token.isRankMark args.tree.nodes) :
    isInvoked ts = true ↔ (∀ n ∈ args.tree.nodes, n.isNode (· == .tupleType) = false)
      ∧ Grammar.nextIs .lparen args.rest = true := by
  have hangle : Tree.RanksPass (!·.isAngle) args.tree.nodes := by
    intro n hn harray u hu
    exact congrArg (!·) (not_isAngle_of_isRankMark (hranks n hn harray u hu))
  obtain ⟨cs, hcs⟩ := Grammar.typeArgumentList_arguments h
  have hstops := hcs.scanned_tree.stops (by simpa using hranks)
  simp only [Tree.tokensAll_cons, Tree.tokensAll_nil, List.append_nil, Tree.nodesAll_cons,
    Tree.nodesAll_nil] at hstops
  rw [isInvoked_iff h hangle, ← Bool.not_eq_true, hstops]
  simp only [not_exists, not_and, Bool.not_eq_true]

end Calls

/-! ## Guards -/

section Guards

variable {p : Profile} {s : ScopedNode} {previous before ts : List Token} {name : Token}

/-- Nothing stands before a call. -/
def Unqualified (previous : List Token) : Prop :=
  ∀ u ∈ previous.head?, u.kind ≠ .dot ∧ u.kind ≠ .doubleColon

theorem isGuardCall_unqualified (h : Unqualified previous) :
    p.isGuardCall s previous = pure true := by
  have hbefore : Qualifier.before [] previous = some {} := by
    cases previous with
    | nil => rfl
    | cons mark rest =>
      obtain ⟨hdot, hcolon⟩ := h mark rfl
      cases rest with
      | nil => rw [Qualifier.before, if_neg (by simpa using hdot)]
      | cons t rest => simp [Qualifier.before, hdot, hcolon]
  unfold Profile.isGuardCall
  rw [hbefore]
  rfl

/-- A call without a qualifier is a guard, whatever other calls stand before it. -/
theorem hasGuardCall_of_call (hname : name.kind = .identifier)
    (hmethod : p.guardMethods.contains name.value = true) (hinvoked : isInvoked ts = true)
    (hbefore : Unqualified (before.reverse ++ previous)) {st st' : Resolution} {guarded : Bool}
    (h : (p.hasGuardCall s previous (before ++ name :: ts)).run st = .ok (guarded, st')) :
    guarded = true := by
  induction before generalizing previous st with
  | nil =>
    rw [List.nil_append, Profile.hasGuardCall, hname, hmethod, hinvoked,
      isGuardCall_unqualified (by simpa using hbefore)] at h
    cases h
    rfl
  | cons t before ih =>
    have hrest : Unqualified (before.reverse ++ t :: previous) := by simpa using hbefore
    rw [List.cons_append, Profile.hasGuardCall] at h
    split at h
    · obtain ⟨found, st₁, -, h⟩ := ok_of_run_bind h
      split at h
      · cases h
        rfl
      · exact ih hrest h
    · exact ih hrest h

end Guards

/-- A name with type arguments before a parenthesis is called if the scan gives up at none of their
tokens; if array marks hold brackets and commas only, this is to say that there is no tuple among the
type arguments. A setter with an unqualified call of a guard method is guarded. -/
theorem isInvoked_typeArguments {ts : List Token} {args : Grammar.Parsed ts}
    (h : Grammar.typeArgumentList ts = .ok args)
    (hcall : Grammar.nextIs .lparen args.rest = true) :
    (Tree.RanksPass (!·.isAngle) args.tree.nodes →
        (isInvoked ts = true ↔ args.tree.tokens.any stopsTypeArguments = false))
      ∧ (Tree.RanksPass Token.isRankMark args.tree.nodes →
        (isInvoked ts = true ↔ ∀ n ∈ args.tree.nodes, n.isNode (· == .tupleType) = false))
      ∧ (isInvoked ts = true →
        ∀ (p : Profile) (s : ScopedNode) (body : Tree) (before : List Token) (name : Token),
        (s.node.accessor? "set").bind (·.accessorBody?) = some body →
        body.tokens = before ++ name :: ts → name.kind = .identifier →
        p.guardMethods.contains name.value = true → Unqualified before.reverse →
        ∀ st, (∀ guarded st', (p.isGuarded s).run st = .ok (guarded, st') → guarded = true)
          ∧ ∀ keys, st.Proper keys → ∃ st', (p.isGuarded s).run st = .ok (true, st')) := by
  refine ⟨fun hranks => ?_, fun hranks => ?_, ?_⟩
  · rw [isInvoked_iff h hranks, and_iff_left hcall]
  · rw [isInvoked_iff_no_tuple h hranks, and_iff_left hcall]
  · intro hinvoked p s body before name hbody htokens hname hmethod hbefore st
    have hguarded : p.isGuarded s = p.hasGuardCall s [] (before ++ name :: ts) := by
      unfold Profile.isGuarded
      rw [hbody, ← htokens]
    have htrue : ∀ guarded st', (p.isGuarded s).run st = .ok (guarded, st') → guarded = true := by
      intro guarded st' hrun
      rw [hguarded] at hrun
      exact hasGuardCall_of_call hname hmethod hinvoked (by simpa using hbefore) hrun
    refine ⟨htrue, fun keys hst => ?_⟩
    obtain ⟨guarded, st', hrun, -⟩ := answers_hasGuardCall p s [] (before ++ name :: ts) st hst
    rw [← hguarded] at hrun
    exact ⟨st', by rw [hrun, htrue guarded st' hrun]⟩

/-- A setter with a generic call of a guard method. -/
theorem isInvoked_typeArguments_array :
    ∃ root n body ts args, parseFragment "A P{set{N<A[]>(v);}}" [] = .ok root ∧ n ∈ root.nodes
      ∧ (n.accessor? "set").bind (·.accessorBody?) = some body ∧ body.tokens.drop 2 = ts
      ∧ Grammar.typeArgumentList ts = .ok args ∧ Grammar.nextIs .lparen args.rest = true
      ∧ isInvoked ts = true
      ∧ ∀ st keys, st.Proper keys →
        ∃ st', (Profile.isGuarded { guardMethods := ["N"] } ⟨n, none⟩).run st
          = .ok (true, st') := by
  have hrun : (parseFragment "A P{set{N<A[]>(v);}}" []).toOption.bind (fun root =>
      (root.nodes.find? (·.isNode (· == .property))).bind fun n =>
        ((n.accessor? "set").bind (·.accessorBody?)).bind fun body =>
        body.tokens.head?.bind fun first => body.tokens.tail.head?.bind fun name =>
        (Grammar.typeArgumentList (body.tokens.drop 2)).toOption.map fun args =>
          (first.kind, name.kind, name.value, Grammar.nextIs .lparen args.rest,
            args.tree.tokens.any stopsTypeArguments, args.tree.nodes.all fun n : Tree =>
              !n.isNode (· == .arrayType) || n.ownTokens.all (!·.isAngle)))
      = some (.lbrace, .identifier, "N", true, false, true) := by
    decide +kernel
  obtain ⟨root, hroot, hrun⟩ := Option.bind_eq_some_iff.mp hrun
  obtain ⟨n, hn, hrun⟩ := Option.bind_eq_some_iff.mp hrun
  obtain ⟨body, hbody, hrun⟩ := Option.bind_eq_some_iff.mp hrun
  obtain ⟨first, hfirst, hrun⟩ := Option.bind_eq_some_iff.mp hrun
  obtain ⟨name, hname, hrun⟩ := Option.bind_eq_some_iff.mp hrun
  obtain ⟨args, hargs, hrun⟩ := Option.map_eq_some_iff.mp hrun
  simp only [Prod.mk.injEq] at hrun
  obtain ⟨hkind, hidentifier, hvalue, hcall, hstops, hranks⟩ := hrun
  have hargs := ok_of_toOption hargs
  obtain ⟨hiff, -, hguards⟩ := isInvoked_typeArguments hargs hcall
  have hinvoked := (hiff fun n hn harray u hu => by
    have hown := List.all_eq_true.mp hranks n hn
    rw [harray] at hown
    exact List.all_eq_true.mp hown u hu).mpr hstops
  have htokens : body.tokens = [first] ++ name :: body.tokens.drop 2 := by
    rw [List.eq_cons_of_mem_head? hfirst, List.eq_cons_of_mem_head? hname]
    rfl
  refine ⟨root, n, body, _, args, ok_of_toOption hroot, List.mem_of_find?_eq_some hn, hbody, rfl, hargs,
    hcall, hinvoked, fun st keys hst => ?_⟩
  refine (hguards hinvoked { guardMethods := ["N"] } ⟨n, none⟩ body [first] name hbody htokens
    hidentifier (by rw [hvalue]; rfl) ?_ st).2 keys hst
  rintro _ ⟨rfl⟩
  rw [hkind]
  decide

/-- A tuple among type arguments hides a call of a guard method. -/
theorem isInvoked_tuple :
    ∃ (profile : Profile) (stream : TokenStream) (name : Token) (ts : List Token)
      (args : Grammar.Parsed ts), profile = { guardMethods := ["N"] }
      ∧ TokenStream.ofSource "N<(A,B)>(v)" [] = .ok stream ∧ stream.tokens = name :: ts
      ∧ name.kind = .identifier ∧ name.value ∈ profile.guardMethods
      ∧ Grammar.typeArgumentList ts = .ok args ∧ Grammar.nextIs .lparen args.rest = true
      ∧ isInvoked ts = false := by
  have hrun : (TokenStream.ofSource "N<(A,B)>(v)" []).toOption.bind
      (fun stream => stream.tokens.head?.bind fun name =>
        (Grammar.typeArgumentList stream.tokens.tail).toOption.map fun args =>
          (name.kind, name.value, Grammar.nextIs .lparen args.rest, isInvoked stream.tokens.tail))
      = some (.identifier, "N", true, false) := by
    decide +kernel
  obtain ⟨stream, hstream, hrun⟩ := Option.bind_eq_some_iff.mp hrun
  obtain ⟨name, hname, hrun⟩ := Option.bind_eq_some_iff.mp hrun
  obtain ⟨args, hargs, hrun⟩ := Option.map_eq_some_iff.mp hrun
  simp only [Prod.mk.injEq] at hrun
  obtain ⟨hkind, hvalue, hcall, hinvoked⟩ := hrun
  obtain ⟨ts, htokens⟩ := List.head?_eq_some_iff.mp hname
  rw [htokens] at hinvoked
  exact ⟨{ guardMethods := ["N"] }, stream, name, stream.tokens.tail, args, rfl,
    ok_of_toOption hstream, by rw [htokens]; rfl, hkind, by rw [hvalue]; exact List.mem_cons_self,
    ok_of_toOption hargs, hcall, by rw [htokens]; exact hinvoked⟩

end NullableMarker
