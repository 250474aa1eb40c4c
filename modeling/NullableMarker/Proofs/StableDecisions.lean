import NullableMarker.Proofs.SiteOffsets
import NullableMarker.Proofs.WovenSites

/-!
# Decisions that annotating does not change

What rules and guards read of a declaration is the same in the annotated text: its modifiers and
names, the type that its type stands for, the tokens of its setter, and whether the text of its type
mentions the stream. So loading the annotated text gives the decisions of the source again, with the
lines moved by the header.

* `Weaving.Retells.alike_isGuarded` — guards
* `Weaving.Retells.alike_judgeAloud` — one site
* `Weaving.Annotates.exists_decisions` — all sites of an annotated unit
* `exists_reread` — what an annotated text is loaded as
* `annotated_decisions_stable` — the decisions for the annotated text
-/

namespace NullableMarker

namespace Decision

/-- Decisions that say the same, wherever they stand. -/
structure Agrees (d d' : Decision) : Prop where
  kind : d'.kind = d.kind
  name : d'.name = d.name
  optional : d'.optional = d.optional
  rule : d'.rule = d.rule

/-- The same decision, `n` lines further down. -/
structure MovedBy (n : Nat) (d d' : Decision) : Prop extends d.Agrees d' where
  line : d'.line = d.line + n

end Decision

/-! ## Guard calls -/

namespace Weaving

variable {w : Weaving}

theorem afterTypeArguments_relabel (depth : Nat) (ts : List Token) :
    afterTypeArguments depth (ts.map w.relabel)
      = (afterTypeArguments depth ts).map (·.map w.relabel) := by
  induction ts generalizing depth with
  | nil => rfl
  | cons t ts ih =>
    rw [List.map_cons, afterTypeArguments, afterTypeArguments, stopsTypeArguments,
      stopsTypeArguments, w.kind_relabel]
    split
    · exact ih _
    · split
      · split
        · rfl
        · exact ih _
      · split
        · rfl
        · exact ih _

/-- Whether a name is called depends on kinds only. -/
theorem isInvoked_relabel (ts : List Token) : isInvoked (ts.map w.relabel) = isInvoked ts := by
  have hhead : ∀ us : List Token, (us.map w.relabel).head?.any (·.kind == .lparen)
      = us.head?.any (·.kind == .lparen) := by
    intro us
    cases us with
    | nil => rfl
    | cons u us => simp
  have hkind : (ts.map w.relabel).head?.map (·.kind) = ts.head?.map (·.kind) := by
    cases ts with
    | nil => rfl
    | cons u us => simp
  unfold isInvoked
  dsimp only
  rw [hkind, afterTypeArguments_relabel]
  split
  · cases afterTypeArguments 0 ts with
    | none => rfl
    | some us => exact hhead us
  · exact hhead ts

/-- A qualifier is spelled by kinds and values. -/
theorem before_relabel (names : List String) (ts : List Token) :
    Qualifier.before names (ts.map w.relabel) = Qualifier.before names ts := by
  fun_induction Qualifier.before names ts with
  | case1 names => rfl
  | case2 names mark hdot => simp [Qualifier.before, hdot]
  | case3 names mark hdot => simp [Qualifier.before, hdot]
  | case4 names mark t rest hdot hident ih => simp [Qualifier.before, hdot, hident, ih]
  | case5 names mark t rest hdot hident => simp [Qualifier.before, hdot, hident]
  | case6 names mark t rest hdot hcolon => simp [Qualifier.before, hdot, hcolon]
  | case7 names mark t rest hdot hcolon => simp [Qualifier.before, hdot, hcolon]

/-- The setter of a declaration comes out without marks. -/
theorem setter_tree {t : Tree} (hsite : t.isNode NodeKind.isSite = true)
    (h : t.MarksAtTypes w.marked) :
    (((w.tree t).accessor? "set").bind (·.accessorBody?)).map (·.tokens)
      = ((t.accessor? "set").bind (·.accessorBody?)).map (·.tokens.map w.relabel) := by
  have htype : t.isNode NodeKind.isType = false := by
    cases t with
    | token s => rfl
    | node k cs => exact isType_of_isSite hsite
  rw [accessor?_tree htype]
  cases haccessor : t.accessor? "set" with
  | none => rfl
  | some accessor =>
    -- the accessor stands in the list of them, a child of the declaration that is no type
    obtain ⟨accessors, haccessors, hfound⟩ := Option.bind_eq_some_iff.mp haccessor
    obtain ⟨list, hlist, rfl⟩ := Option.map_eq_some_iff.mp haccessors
    have hmem := List.mem_of_find?_eq_some hfound
    have hsub : accessor.tokens.Sublist list.tokens := sublist_of_child (List.mem_filter.mp hmem).1
    have hunmarked := unmarked_of_site hsite h (List.mem_of_find?_eq_some hlist)
      (isType_of_child? rfl hlist)
    rw [Option.map_some, Option.bind_some, Option.bind_some,
      accessorBody?_tree (isType_of_mem_childrenOf rfl hmem)]
    cases hbody : accessor.accessorBody? with
    | none => rfl
    | some body =>
      have hbody : body.tokens.Sublist accessor.tokens :=
        sublist_of_child (List.mem_of_find?_eq_some hbody)
      rw [Option.map_some, Option.map_some, Option.map_some,
        tree_of_unmarked body fun s hs => hunmarked s (hsub.mem (hbody.mem hs)), tokens_relabelTree]

namespace Retells

variable {root : Tree} {hw : w.Retells root}

section Guards

variable {s s' : ScopedNode} (p : Profile)

theorem alike_isGuardCall (h : hw.NodeAlike s s') (previous : List Token) :
    Alike hw.coupling.states Eq (p.isGuardCall s previous)
      (p.isGuardCall s' (previous.map w.relabel)) := by
  unfold Profile.isGuardCall
  rw [before_relabel]
  cases Qualifier.before [] previous with
  | none => exact Alike.pure rfl
  | some q =>
    dsimp only
    split
    · exact Alike.pure rfl
    · have hqualifier : Alike hw.coupling.states Eq (s.qualifier q.aliasName q.names)
          (s'.qualifier q.aliasName q.names) := by
        have hscope := h.scope?
        unfold ScopedNode.qualifier
        generalize s.scope? = scope at hscope
        generalize s'.scope? = scope' at hscope
        cases hscope with
        | none => exact Alike.pure rfl
        | some hscope =>
          refine (Coupling.alike_qualified (Coupling.alike_lookup hscope) _
            fun _ _ => trivial).imp ?_
          exact fun o o' ho => ho.1.1.symm
      refine hqualifier.bind ?_
      rintro o _ rfl
      split <;> exact Alike.pure rfl

theorem alike_hasGuardCall (h : hw.NodeAlike s s') (previous ts : List Token) :
    Alike hw.coupling.states Eq (p.hasGuardCall s previous ts)
      (p.hasGuardCall s' (previous.map w.relabel) (ts.map w.relabel)) := by
  induction ts generalizing previous with
  | nil => exact Alike.pure rfl
  | cons t ts ih =>
    have ih := ih (t :: previous)
    rw [List.map_cons] at ih
    rw [List.map_cons, Profile.hasGuardCall, Profile.hasGuardCall, w.kind_relabel, w.value_relabel,
      isInvoked_relabel]
    split
    · refine (alike_isGuardCall p h previous).bind ?_
      rintro b _ rfl
      split
      · exact Alike.pure rfl
      · exact ih
    · exact ih

/-- Guards are found in the same setters. -/
theorem alike_isGuarded (h : hw.NodeAlike s s') (hnode : s'.node = w.tree s.node)
    (hsite : s.node.isNode NodeKind.isSite = true) (hmarks : s.node.MarksAtTypes w.marked) :
    Alike hw.coupling.states Eq (p.isGuarded s) (p.isGuarded s') := by
  have hsetter := setter_tree hsite hmarks
  unfold Profile.isGuarded
  rw [hnode]
  generalize ((w.tree s.node).accessor? "set").bind (·.accessorBody?) = body' at hsetter ⊢
  generalize (s.node.accessor? "set").bind (·.accessorBody?) = body at hsetter ⊢
  cases body with
  | none =>
    rw [Option.map_none, Option.map_eq_none_iff] at hsetter
    rw [hsetter]
    exact Alike.pure rfl
  | some body =>
    obtain ⟨body', rfl, htokens⟩ := Option.map_eq_some_iff.mp hsetter
    dsimp only
    rw [htokens]
    exact alike_hasGuardCall p h [] body.tokens

end Guards

/-! ## Judging -/

section Judging

variable {s s' : Site} {p : Profile}

theorem SiteAlike.isType (h : hw.SiteAlike s s') : s.node.isNode NodeKind.isType = false :=
  h.declaration.isType

theorem SiteAlike.name_eq (h : hw.SiteAlike s s') : s'.name = s.name := by
  unfold Site.name
  rw [h.kind, h.node_eq.1, name_tree h.isType, variableNames_tree h.isType]

/-- What rules ask of a declaration is the same, if the text of its type mentions the stream in
both trees or in neither. -/
theorem SiteAlike.applies_eq (h : hw.SiteAlike s s')
    (hreads : s'.readsInputStream p = s.readsInputStream p) :
    ∀ rule ∈ s.kind.rules.bySite, rule.applies p s' = rule.applies p s := by
  have hnode := h.node_eq.1
  have hstatic : s'.isStatic p = s.isStatic p := by
    rw [Site.isStatic, hnode, isStatic_tree h.isType]
    rfl
  have hunknown : s'.keepsUnknownFields p = s.keepsUnknownFields p := by
    rw [Site.keepsUnknownFields, hnode, variableNames_tree h.isType]
    rfl
  have hequality : s'.inEqualityMethod p = s.inEqualityMethod p := by
    rw [Site.inEqualityMethod, h.method]
    rfl
  have hmerge : s'.inMergeMethod p = s.inMergeMethod p := by
    rw [Site.inMergeMethod, h.method]
    rfl
  intro rule hrule
  cases hkind : s.kind with
  | property =>
    rw [hkind] at hrule
    obtain rfl := List.mem_singleton.mp hrule
    exact congrArg Except.ok hstatic
  | field =>
    rw [hkind] at hrule
    rcases List.mem_pair.mp hrule with rfl | rfl
    · exact congrArg Except.ok hstatic
    · exact congrArg Except.ok hunknown
  | parameter =>
    rw [hkind] at hrule
    rcases List.mem_cons.mp hrule with rfl | hrule
    · exact congrArg Except.ok hequality
    rcases List.mem_pair.mp hrule with rfl | rfl
    · exact congrArg Except.ok hreads
    · exact congrArg Except.ok hmerge

theorem firstRule_congr {α : Type} {x x' : α} {rules : List (Rule α)}
    (h : ∀ rule ∈ rules, rule.applies p x' = rule.applies p x) :
    firstRule p x' rules = firstRule p x rules := by
  induction rules with
  | nil => rfl
  | cons rule rules ih =>
    rw [firstRule, firstRule, h rule List.mem_cons_self,
      ih fun r hr => h r (List.mem_cons_of_mem rule hr)]

/-- The declared type stands for the same type. -/
theorem alike_typeOf (h : hw.SiteAlike s s') :
    Alike hw.coupling.states Eq s.declaration.typeOf s'.declaration.typeOf := by
  have hinner := h.declaration.inner
  have hnode : s'.declaration.node = w.tree s.declaration.node := h.node_eq.1
  unfold ScopedNode.typeOf
  rw [hnode, type?_tree h.declaration.isType]
  generalize s.declaration.inner = inner at hinner
  generalize s'.declaration.inner = inner' at hinner
  cases hinner with
  | none => exact Alike.pure rfl
  | some hscope =>
    cases htype : s.declaration.node.type? with
    | none => exact Alike.pure rfl
    | some type =>
      have hwritten := written_tree (w := w) (List.find?_some htype)
      refine (Coupling.alike_typeNode (Coupling.alike_lookup hscope) hwritten
        fun _ _ => trivial).imp ?_
      exact fun o o' ho => ho.1.symm

/-- The same rule applies. -/
theorem alike_ruling? (h : hw.SiteAlike s s')
    (hreads : s'.readsInputStream p = s.readsInputStream p) :
    Alike hw.coupling.states Eq (s.ruling? p) (s'.ruling? p) := by
  unfold Site.ruling?
  rw [h.kind, firstRule_congr (h.applies_eq hreads)]
  refine (Alike.lift_self _).bind ?_
  rintro o _ rfl
  split
  · exact Alike.pure rfl
  · split
    · exact Alike.pure rfl
    · refine (alike_typeOf h).bind ?_
      rintro found _ rfl
      split
      · exact Alike.pure rfl
      · refine Alike.get.bind fun st st' hst => ?_
        dsimp only
        rw [hst.1]
        refine (Alike.lift_self _).bind ?_
        rintro rule _ rfl
        exact Alike.pure rfl

/-- The same is decided for both sites. -/
theorem alike_judge (h : hw.SiteAlike s s')
    (hreads : s'.readsInputStream p = s.readsInputStream p) :
    Alike hw.coupling.states (fun d d' => d.Agrees d' ∧ d.line = s.line ∧ d'.line = s'.line)
      (s.judge p) (s'.judge p) := by
  have hholds : ∀ ruling, Alike hw.coupling.states Eq (s.holds p ruling) (s'.holds p ruling) := by
    intro ruling
    cases ruling with
    | optional => exact Alike.pure rfl
    | required => exact Alike.pure rfl
    | unlessGuarded =>
      obtain ⟨hnode, hmarks⟩ := h.node_eq
      refine (alike_isGuarded p h.declaration hnode h.isSite hmarks).bind ?_
      rintro b _ rfl
      exact Alike.pure rfl
  unfold Site.judge
  refine (alike_ruling? h hreads).bind ?_
  rintro o _ rfl
  split
  · exact Alike.pure ⟨⟨h.kind, h.name_eq, rfl, rfl⟩, rfl, rfl⟩
  · next name ruling =>
    refine (hholds ruling).bind ?_
    rintro b _ rfl
    exact Alike.pure ⟨⟨h.kind, h.name_eq, rfl, rfl⟩, rfl, rfl⟩

theorem alike_judgeAloud (h : hw.SiteAlike s s')
    (hreads : s'.readsInputStream p = s.readsInputStream p) :
    Alike hw.coupling.states (fun d d' => d.Agrees d' ∧ d.line = s.line ∧ d'.line = s'.line)
      (s.judgeAloud p) (s'.judgeAloud p) := by
  refine (alike_judge h hreads).bind fun d d' hd => ?_
  exact (Coupling.alike_remark _ _).bind fun _ _ _ => Alike.pure hd

end Judging

end Retells

end Weaving

/-! ## Annotated units -/

/-- A character that a text lacks does not help it to occur. -/
theorem Text.occurs_concat {part : List Char} {c : Char} (h : c ∉ part) (s : List Char) :
    Text.occurs part (s ++ [c]) = Text.occurs part s := by
  have hprefix : ∀ s : List Char, part.isPrefixOf (s ++ [c]) = part.isPrefixOf s := by
    intro s
    rw [Bool.eq_iff_iff, List.isPrefixOf_iff_prefix, List.isPrefixOf_iff_prefix,
      List.prefix_concat_iff]
    constructor
    · rintro (rfl | hs)
      · exact absurd (by simp) h
      · exact hs
    · exact .inr
  induction s with
  | nil =>
    have hnil := hprefix []
    rw [List.nil_append] at hnil
    rw [List.nil_append, Text.occurs, Text.occurs, hnil]
    cases part <;> rfl
  | cons d s ih => rw [List.cons_append, Text.occurs, Text.occurs, ih, ← List.cons_append, hprefix]

namespace Weaving.Annotates

variable {w : Weaving} {root : Tree} {hw : w.Retells root} {s s' : Site}

/-- The text of a declared type mentions a word without question marks as it did. -/
theorem readsInputStream_eq (h : w.Annotates root) (hs : hw.SiteAlike s s') {p : Profile}
    (hp : '?' ∉ p.inputStreamType.toList) :
    s'.readsInputStream p = s.readsInputStream p := by
  obtain ⟨hnode, hmarks⟩ := hs.node_eq
  rw [Site.readsInputStream, Site.inMergeMethod, hs.method, hnode, type?_tree hs.isType]
  cases htype : s.node.type? with
  | none => rw [Site.readsInputStream, htype]; rfl
  | some type =>
    have hsub : type.tokens.Sublist root.tokens :=
      (sublist_of_child (List.mem_of_find?_eq_some htype)).trans hs.declaration.tokens
    -- the type may come first in the unit, where the header goes before it
    have hfirst : ∀ t ∈ type.tokens.head?, ∃ more, w.Carries more t := by
      intro t ht
      have ht : t ∈ root.tokens := hsub.mem (List.mem_of_head? ht)
      cases hroot : root.tokens with
      | nil => rw [hroot] at ht; cases ht
      | cons u us =>
        rw [hroot] at ht
        rcases List.mem_cons.mp ht with rfl | ht
        · exact ⟨_, h.first t (by rw [hroot]; rfl)⟩
        · exact ⟨_, h.carries t (by rw [hroot]; exact ht)⟩
    have htail : ∀ t ∈ type.tokens.tail, w.Carries [] t :=
      fun t ht => h.carries t (hsub.tail.mem ht)
    have hunmarked := unmarked_of_type? hs.isSite hmarks htype
    rw [Site.readsInputStream, htype, Option.map_some, Option.any_some, Option.any_some]
    rcases text_tree (List.find?_some htype) hfirst htail hunmarked with htext | htext
    · rw [htext]
      rfl
    · rw [htext, String.toList_append]
      have hoccurs := Text.occurs_concat hp type.text.toList
      rw [show "?".toList = ['?'] from rfl, hoccurs]
      rfl

/-- A declaration stands on its old line, or on the line after if the header was put in. -/
theorem line_eq (h : w.Annotates root) (hs : hw.SiteAlike s s') (hne : s.node.tokens ≠ []) :
    s'.line = s.line + if root.needsHeader then 1 else 0 := by
  obtain ⟨t, ts, ht⟩ := List.exists_cons_of_ne_nil hne
  have hmem : t ∈ root.tokens := hs.declaration.tokens.mem (by
    show t ∈ s.node.tokens
    rw [ht]
    exact List.mem_cons_self)
  rw [Site.line, Site.line, hs.node_eq.1, firstToken?_tree, Tree.firstToken?_eq, ht]
  exact h.lines t hmem

/-- The decisions for an annotated unit are those for the unit. -/
theorem exists_decisions (h : w.Annotates root) {source source' : String}
    (hroot : root.IsTreeOf source) (hroot' : (w.tree root).IsTreeOf source')
    {references : SymbolTable} {origin : String} {env env' : Environment}
    (henv : Environment.ofTree references origin root = .ok env)
    (henv' : Environment.ofTree references origin (w.tree root) = .ok env')
    (hstates : (h.retells hroot).coupling.states env.resolution env'.resolution)
    {p : Profile} (hp : '?' ∉ p.inputStreamType.toList) {ds : List Decision}
    (hds : env.decisions p = .ok ds) :
    ∃ ds', env'.decisions p = .ok ds'
      ∧ List.Forall₂ (Decision.MovedBy (if root.needsHeader then 1 else 0)) ds ds' := by
  have hsites : List.Forall₂ (fun s s' => s.node.tokens ≠ [] ∧ (h.retells hroot).SiteAlike s s')
      env.sites env'.sites := by
    -- a declaration has a first token, which its line is read off
    refine (List.forall₂_and_left _ _).mpr
      ⟨fun s hs => ?_, Retells.forall₂_sites hroot hroot' henv henv'⟩
    refine hroot.orderly.apart.2 s.node ?_
    rw [← Environment.node_sites hroot henv]
    exact List.mem_map_of_mem hs
  have hruns : Alike (h.retells hroot).coupling.states
      (List.Forall₂ (Decision.MovedBy (if root.needsHeader then 1 else 0)))
      (judgeAll p env.sites) (judgeAll p env'.sites) := by
    refine Alike.mapM hsites ?_
    rintro s s' ⟨hne, hs⟩
    refine (Retells.alike_judgeAloud hs (h.readsInputStream_eq hs hp)).imp ?_
    rintro d d' ⟨hagrees, hline, hline'⟩
    refine ⟨hagrees, ?_⟩
    rw [hline', hline, h.line_eq hs hne]
  obtain ⟨⟨_, resolution⟩, hjudged, rfl⟩ := ok_of_map hds
  obtain ⟨ds', resolution', hjudged', hdecisions, -⟩ := hruns.ok hstates hjudged
  refine ⟨ds', ?_, hdecisions⟩
  rw [Environment.decisions, Environment.judged, hjudged']
  rfl

end Weaving.Annotates

/-! ## Annotated texts are loaded as they are -/

theorem withoutOrderMark_of_head {s : String} (h : s.toList.head? ≠ some '\ufeff') :
    withoutOrderMark s = s := by
  unfold withoutOrderMark
  split
  · next rest hs =>
    rw [hs] at h
    exact absurd rfl h
  · rfl

/-- Trimming keeps the first character, unless that is white. -/
theorem Text.head?_of_trim {s : List Char} {c : Char} (h : (Text.trim s).head? = some c) :
    ∃ d, s.head? = some d ∧ (Text.isWhite d = true ∨ d = c) := by
  cases s with
  | nil => cases h
  | cons d s =>
    refine ⟨d, rfl, ?_⟩
    cases hd : Text.isWhite d with
    | true => exact .inl rfl
    | false =>
      refine .inr ?_
      have hprefix : Text.trimRight (d :: s) <+: d :: s := by
        rw [← List.reverse_suffix, Text.trimRight, List.reverse_reverse]
        exact List.dropWhile_suffix _
      rw [Text.trim, Text.trimLeft, List.dropWhile_cons, hd] at h
      obtain ⟨rest, hrest⟩ := hprefix
      cases ht : Text.trimRight (d :: s) with
      | nil =>
        rw [if_neg (by simp), ht] at h
        cases h
      | cons e es =>
        rw [if_neg (by simp), ht] at h
        rw [ht] at hrest
        cases h
        exact (List.cons.inj hrest).1.symm

/-- A tree with the header starts with its directive, or with white space before it. -/
theorem Tree.head?_of_hasHeader {t : Tree} (h : t.hasHeader = true) :
    ∃ c, t.fullText.toList.head? = some c ∧ (Text.isWhite c = true ∨ c = '#') := by
  cases hts : t.tokens with
  | nil =>
    rw [hasHeader, leading, firstToken?_eq, hts] at h
    cases h
  | cons s ts =>
    have hleading : t.leading = s.leading := by
      rw [leading, firstToken?_eq, hts]
      rfl
    rw [hasHeader, hleading] at h
    cases hs : s.leading with
    | nil => rw [hs] at h; cases h
    | cons first rest =>
      rw [hs] at h
      have htrim := eq_of_beq (Bool.and_eq_true_iff.mp h).2
      obtain ⟨c, hc, hwhite⟩ := Text.head?_of_trim (s := first.text.toList) (c := '#')
        (by rw [htrim]; rfl)
      refine ⟨c, ?_, hwhite⟩
      rw [fullText, hts, Token.fullTextOf_cons, Token.fullText, hs, Trivia.textOf_cons]
      simp [hc]

/-- The annotated text of a unit does not start with a mark of byte order. -/
theorem Tree.IsUnitOf.withoutOrderMark_annotated {root : Tree} {source : String}
    (h : root.IsUnitOf source) (v : Verdicts) :
    withoutOrderMark (root.mark v).addHeader.fullText = (root.mark v).addHeader.fullText := by
  refine withoutOrderMark_of_head ?_
  obtain ⟨offsets, -, -, -, htext⟩ := h.annotated_text v
  rw [htext, headerText]
  cases hheader : root.hasHeader with
  | false =>
    rw [if_neg (by simp), String.toList_append]
    exact fun hhead => by cases hhead
  | true =>
    obtain ⟨c, hc, hstart⟩ := head?_of_hasHeader hheader
    rw [h.fullText] at hc
    have hne : c ≠ '\ufeff' := by
      rintro rfl
      rcases hstart with hwhite | hhash
      · cases hwhite
      · cases hhash
    cases hsource : source.toList with
    | nil => rw [hsource] at hc; cases hc
    | cons d cs =>
      rw [hsource] at hc
      cases hc
      rw [if_pos rfl, String.toList_empty, List.nil_append, withMarks]
      split
      · exact fun hhead => by cases hhead
      · exact fun hhead => hne (Option.some.inj hhead)

theorem annotate_of_ok {references : SymbolTable} {defined : List String} {p : Profile}
    {source : String} {root : Tree} {env : Environment} {ds : List Decision}
    (hroot : loadUnit source defined = .ok root)
    (henv : Environment.ofUnit references root = .ok env) (hds : env.decisions p = .ok ds) :
    annotate references defined p source = .ok (env.annotatedBy ds).fullText := by
  have hannotated : env.annotated p = .ok (env.annotatedBy ds) := by
    rw [Environment.annotated, hds]
    rfl
  simp only [annotate, hroot, henv, hannotated, Except.mapError, bind, Except.bind, pure,
    Except.pure]

/-- The annotated text of a unit is loaded as the unit with its tokens replaced and the marks put in,
and the decisions for it are those for the unit. -/
theorem exists_reread {references : SymbolTable} {defined : List String} {source : String}
    {root : Tree} {env : Environment} {p : Profile} {ds : List Decision}
    (hp : '?' ∉ p.inputStreamType.toList) (hroot : loadUnit source defined = .ok root)
    (henv : Environment.ofUnit references root = .ok env) (hds : env.decisions p = .ok ds) :
    ∃ (w : Weaving) (env' : Environment) (ds' : List Decision),
      loadUnit (env.annotatedBy ds).fullText defined = .ok (w.tree root)
      ∧ Environment.ofUnit references (w.tree root) = .ok env' ∧ env'.decisions p = .ok ds'
      ∧ List.Forall₂ (Decision.MovedBy (if root.needsHeader then 1 else 0)) ds ds'
      ∧ w.Annotates root ∧ (w.tree root).sites = root.sites.map w.tree
      ∧ ∀ n ∈ Tree.marked (verdictsOf ds) root.sites, n.typeEnd?.any w.marked = true := by
  have hunit : root.IsUnitOf (withoutOrderMark source) := Tree.isUnitOf_of_parseUnit hroot
  obtain ⟨w, hparse, hw, hmarked⟩ := parseUnit_annotated (verdictsOf ds) hroot
  have hunit' := Tree.isUnitOf_of_parseUnit hparse
  have hretells := hw.retells hunit.toIsTreeOf
  obtain ⟨env', henv', hstates⟩ := hretells.exists_ofTree henv
  obtain ⟨ds', hds', hmoved⟩ := hw.exists_decisions hunit.toIsTreeOf hunit'.toIsTreeOf henv henv'
    hstates hp hds
  refine ⟨w, env', ds', ?_, henv', hds', hmoved, hw, ?_, hmarked⟩
  · rw [Environment.annotatedBy_eq henv, loadUnit,
      hunit.withoutOrderMark_annotated, hparse]
  · rw [← Environment.node_sites hunit.toIsTreeOf henv,
      ← Environment.node_sites hunit'.toIsTreeOf henv', List.map_map]
    have hsites : List.Forall₂ hretells.SiteAlike env.sites env'.sites :=
      Weaving.Retells.forall₂_sites hunit.toIsTreeOf hunit'.toIsTreeOf henv henv'
    exact map_eq_of_forall₂ hsites fun s s' hs => hs.node_eq.1

/-- Annotating does not change any verdict: the annotated text of a source is loaded again, and the
decisions for it are those for the source, one by one and in order, each on its old line or, if the
header was put in, on the line after. -/
theorem annotated_decisions_stable {references : SymbolTable} {defined : List String}
    {source text : String} (h : annotate references defined {} source = .ok text) :
    ∃ root env ds root' env' ds', loadUnit source defined = .ok root
      ∧ Environment.ofUnit references root = .ok env ∧ env.decisions {} = .ok ds
      ∧ loadUnit text defined = .ok root' ∧ Environment.ofUnit references root' = .ok env'
      ∧ env'.decisions {} = .ok ds'
      ∧ List.Forall₂ (Decision.MovedBy (if root.needsHeader then 1 else 0)) ds ds' := by
  obtain ⟨root, env, ds, hload, henv, hds, rfl⟩ := annotate_ok h
  obtain ⟨w, env', ds', hload', henv', hds', hmoved, -⟩ := exists_reread (p := {}) (by decide) hload
    henv hds
  rw [Environment.annotatedBy_eq henv] at hload'
  exact ⟨root, env, ds, w.tree root, env', ds', hload, henv, hds, hload', henv', hds', hmoved⟩

theorem decisions_stable_in_class :
    ∃ text root env ds, annotate {} [] {} "class A{void MergeFrom(A a);}" = .ok text
      ∧ text = "#nullable enable annotations\nclass A{void MergeFrom(A? a);}"
      ∧ loadUnit text [] = .ok root ∧ Environment.ofUnit {} root = .ok env
      ∧ env.decisions {} = .ok ds
      ∧ ds.map (fun d => (d.name, d.optional, d.rule, d.line))
        = [("a", true, some "merge-from", 2)] := by
  have hbefore : ((loadUnit "class A{void MergeFrom(A a);}" []).toOption.bind fun root =>
      (Environment.ofUnit {} root).toOption.bind fun env =>
        (env.decisions {}).toOption.map fun ds =>
          decide ((env.annotatedBy ds).fullText
              = "#nullable enable annotations\nclass A{void MergeFrom(A? a);}"
            ∧ root.needsHeader = true
            ∧ ds.map (fun d => (d.name, d.optional, d.rule, d.line))
              = [("a", true, some "merge-from", 1)])) = some true := by
    decide +kernel
  obtain ⟨root, hroot, hbefore⟩ := Option.bind_eq_some_iff.mp hbefore
  obtain ⟨env, henv, hbefore⟩ := Option.bind_eq_some_iff.mp hbefore
  obtain ⟨ds, hds, hbefore⟩ := Option.map_eq_some_iff.mp hbefore
  obtain ⟨htext, hheader, hdecisions⟩ := of_decide_eq_true hbefore
  have hroot := ok_of_toOption hroot
  have henv := ok_of_toOption henv
  have hds := ok_of_toOption hds
  have hannotate := annotate_of_ok hroot henv hds
  obtain ⟨root₁, env₁, ds₁, root', env', ds', hroot₁, henv₁, hds₁, hroot', henv', hds', hmoved⟩ :=
    annotated_decisions_stable hannotate
  obtain rfl := Except.ok.inj (hroot.symm.trans hroot₁)
  obtain rfl := Except.ok.inj (henv.symm.trans henv₁)
  obtain rfl := Except.ok.inj (hds.symm.trans hds₁)
  refine ⟨_, root', env', ds', hannotate, htext, hroot', henv', hds', ?_⟩
  obtain ⟨d, rfl, hd⟩ := List.map_eq_singleton_iff.mp hdecisions
  rw [hheader] at hmoved
  cases hmoved with
  | cons hmoved hnil =>
    cases hnil
    rw [List.map_singleton, hmoved.name, hmoved.optional, hmoved.rule, hmoved.line]
    simpa using hd

end NullableMarker
