import NullableMarker.Proofs.StableDecisions

/-!
# Formatting does not count

Sources with tokens of the same kinds and values may differ in blanks, comments, directives and
disabled text. The trees of such sources have the same outline, and their declarations are judged
alike. Only whether the method that merges reads a stream is told by a text, the text of the type of
its parameter.

* `Tree.outline` — a tree without the positions and the trivia of its tokens
* `exists_respelling` — tokens of the same kinds and values, as a weaving without marks
* `Tree.judgements` — the decisions for a unit with the sites that they are about
* `reformatted_alike` — the trees and the decisions of sources with the same tokens
-/

namespace NullableMarker

/-! ## Outlines -/

/-- A token without its position and its trivia. -/
def Token.bare (t : Token) : Token := { kind := t.kind, value := t.value }

namespace Tree

mutual

/-- The shape of a tree, with the kinds and the values of its tokens. -/
def outline : Tree → Tree
  | token t => token t.bare
  | node kind children => node kind (outlineAll children)

/-- The outlines of a list of trees. -/
def outlineAll : List Tree → List Tree
  | [] => []
  | t :: ts => outline t :: outlineAll ts

end

end Tree

namespace Weaving

variable {w : Weaving}

mutual

/-- Other tokens of the same kinds and values make up the same outline. -/
theorem outline_relabelTree : (t : Tree) → (w.relabelTree t).outline = t.outline
  | .token t => by simp [Tree.outline, Token.bare]
  | .node k cs => by rw [relabelTree, Tree.outline, Tree.outline, outlineAll_relabelAll cs]

theorem outlineAll_relabelAll : (ts : List Tree) →
    Tree.outlineAll (w.relabelAll ts) = Tree.outlineAll ts
  | [] => by rw [relabelAll]
  | t :: ts => by
    rw [relabelAll, Tree.outlineAll, Tree.outlineAll, outline_relabelTree t,
      outlineAll_relabelAll ts]

end

theorem sound_of_unmarked (h : ∀ t, w.marked t = false) (ts : List Token) : w.Sound ts := by
  induction ts with
  | nil => trivial
  | cons t ts ih =>
    refine ⟨fun hmarked => ?_, ih⟩
    rw [h t] at hmarked
    cases hmarked

end Weaving

/-! ## Tokens of the same kinds and values -/

/-- Tokens of the same kinds and values stand for one another in a weaving without marks. -/
theorem exists_respelling {ts us : List Token} (hnodup : ts.Nodup)
    (h : us.map Token.spelling = ts.map Token.spelling) :
    ∃ w : Weaving, (∀ t, w.marked t = false) ∧ ts.map w.relabel = us := by
  induction ts generalizing us with
  | nil =>
    rw [List.map_nil, List.map_eq_nil_iff] at h
    exact ⟨.still, fun _ => rfl, h.symm⟩
  | cons t ts ih =>
    obtain ⟨u, us, rfl, hu, hus⟩ := List.map_eq_cons_iff.mp h
    obtain ⟨ht, hnodup⟩ := List.nodup_cons.mp hnodup
    obtain ⟨w, hunmarked, hmap⟩ := ih hnodup hus
    refine ⟨w.set t u (Tree.questionMark []) false (congrArg Prod.fst hu) (congrArg Prod.snd hu) rfl,
      fun s => ?_, ?_⟩
    · unfold Weaving.set
      dsimp only
      split
      · rfl
      · exact hunmarked s
    · -- the token set is none of the others
      rw [List.map_cons, ← hmap]
      congr 1
      · exact if_pos rfl
      · refine List.map_congr_left fun s hs => if_neg ?_
        rintro rfl
        exact ht hs

section Units

variable {source source' : String} {defined defined' : List String} {stream stream' : TokenStream}

/-- A source with the same tokens is read as the same tree of its own tokens. -/
theorem parseUnit_respelled (hstream : TokenStream.ofSource source defined = .ok stream)
    (hstream' : TokenStream.ofSource source' defined' = .ok stream')
    (hsame : stream'.all.map Token.spelling = stream.all.map Token.spelling) {root : Tree}
    (hroot : parseUnit source defined = .ok root) :
    ∃ w : Weaving, (∀ t, w.marked t = false) ∧ w.Retells root
      ∧ parseUnit source' defined' = .ok (w.tree root) := by
  obtain ⟨_, hstream₁, hread⟩ := stream_of_readSource hroot
  obtain rfl := Except.ok.inj (hstream.symm.trans hstream₁)
  have htokens := TokenStream.tokens_of_toUnit hread
  have hbefore := (TokenStream.tiles_of_ofSource hstream).startsBefore
  have htiles' := TokenStream.tiles_of_ofSource hstream'
  obtain ⟨w, hunmarked, hmap⟩ := exists_respelling (hbefore.imp ne_of_startsBefore) hsame
  have hsplit : stream.tokens.map w.relabel ++ [w.relabel stream.eof]
      = stream'.tokens ++ [stream'.eof] := by
    rw [TokenStream.all, List.map_append] at hmap
    exact hmap
  obtain ⟨hinit, hlast⟩ := List.append_inj' hsplit rfl
  refine ⟨w, hunmarked, ⟨?_, ?_, ?_, ?_⟩, ?_⟩
  · exact Tree.marksAtTypes_of_unmarked root fun t _ => hunmarked t
  · intro t ht
    rw [htokens] at ht
    have ht' : w.relabel t ∈ stream'.all := hmap ▸ List.mem_map_of_mem ht
    obtain ⟨i, hi, -⟩ := (TokenStream.tiles_of_ofSource hstream).placed.offset_ge t ht
    obtain ⟨i', hi', -⟩ := htiles'.placed.offset_ge _ ht'
    exact ⟨⟨i, hi⟩, i', hi'⟩
  · rw [htokens]
    exact hbefore
  · rw [htokens, hmap]
    exact htiles'.startsBefore
  · have hread' := TokenStream.toUnit_weave (w.sound_of_unmarked hunmarked _)
      (hinit.symm.trans (w.weave_of_unmarked fun t _ => hunmarked t).symm)
      (List.cons.inj hlast).1.symm hread (Weaving.fits_of_unmarked root fun t _ => hunmarked t)
    unfold parseUnit readSource
    rw [hstream']
    dsimp only
    rw [hread']
    rfl

end Units

/-! ## Judgements -/

/-- The decisions for a unit, each with the site that it is about. -/
def Tree.judgements (references : SymbolTable) (p : Profile) (root : Tree) :
    Except BadReference (List (Site × Decision)) := do
  let env ← Environment.ofUnit references root
  return env.sites.zip (← env.decisions p)

/-- Judgements that say the same. A parameter of the method that merges is told apart by the text of
its type, so what is decided for it is left open. -/
structure JudgedAlike (p : Profile) (j j' : Site × Decision) : Prop where
  kind : j'.2.kind = j.2.kind
  name : j'.2.name = j.2.name
  method : j'.1.method = j.1.method
  agrees : j.1.method ≠ some p.mergeMethod → j.2.Agrees j'.2

/-- There is a judgement for every site, and all decisions are among them. -/
theorem judgements_ok {references : SymbolTable} {p : Profile} {root : Tree}
    {js : List (Site × Decision)} (h : root.judgements references p = .ok js) :
    ∃ env, Environment.ofUnit references root = .ok env ∧ env.sites = js.map (·.1)
      ∧ env.decisions p = .ok (js.map (·.2)) := by
  obtain ⟨env, henv, h⟩ := ok_of_bind h
  obtain ⟨ds, hds, h⟩ := ok_of_bind h
  cases h
  have hlength := (Environment.forall₂_decisions hds).length_eq
  exact ⟨env, henv, (List.map_fst_zip hlength.le).symm, by rw [List.map_snd_zip hlength.ge, hds]⟩

/-- Results that come with what they were computed from. -/
theorem Alike.mapM_zip {α β γ δ : Type} {R : Resolution → Resolution → Prop} {P : α → β → Prop}
    {Q : α × γ → β × δ → Prop} {xs : List α} {ys : List β} {f : α → Resolve γ} {g : β → Resolve δ}
    (h : List.Forall₂ P xs ys)
    (hf : ∀ a b, P a b → Alike R (fun c d => Q (a, c) (b, d)) (f a) (g b)) :
    Alike R (fun cs ds => List.Forall₂ Q (xs.zip cs) (ys.zip ds)) (xs.mapM f) (ys.mapM g) := by
  induction h with
  | nil => exact Alike.pure .nil
  | cons hab _ ih =>
    rw [List.mapM_cons, List.mapM_cons]
    refine (hf _ _ hab).bind fun c d hcd => ih.bind fun cs ds hcds => ?_
    exact Alike.pure (.cons hcd hcds)

/-- Only parameters have a method. -/
theorem kind_of_method {nodes : List ScopedNode} {s : Site} (hs : s ∈ sitesOf nodes)
    (hmethod : s.method ≠ none) : s.kind = .parameter := by
  obtain ⟨n, -, hs⟩ := List.mem_flatMap.mp hs
  rcases List.mem_append.mp hs with hs | hs
  · -- what a node is by itself is no parameter, and has no method
    unfold ScopedNode.ownSite at hs
    split at hs
    · rw [List.mem_singleton.mp hs] at hmethod
      exact absurd rfl hmethod
    · split at hs
      · rw [List.mem_singleton.mp hs] at hmethod
        exact absurd rfl hmethod
      · cases hs
  · unfold ScopedNode.parameterSites at hs
    split at hs
    · cases hs
    · obtain ⟨node, -, rfl⟩ := List.mem_map.mp hs
      rfl

/-- Rules that can all be asked give an answer. -/
theorem firstRule_total {α : Type} {p : Profile} {x : α} {rules : List (Rule α)}
    (h : ∀ rule ∈ rules, ∃ b, rule.applies p x = .ok b) :
    ∃ o, firstRule p x rules = .ok o ∧ ∀ rule ∈ o, rule ∈ rules := by
  induction rules with
  | nil => exact ⟨none, rfl, fun rule hrule => by cases hrule⟩
  | cons rule rules ih =>
    obtain ⟨b, hb⟩ := h rule List.mem_cons_self
    obtain ⟨o, ho, hmem⟩ := ih fun r hr => h r (List.mem_cons_of_mem rule hr)
    rw [firstRule, hb]
    cases b with
    | true =>
      refine ⟨some rule, rfl, ?_⟩
      rintro _ ⟨rfl⟩
      exact List.mem_cons_self
    | false => exact ⟨o, ho, fun r hr => List.mem_cons_of_mem rule (hmem r hr)⟩

/-- The rules about declarations can all be asked. -/
theorem SiteKind.bySite_total (kind : SiteKind) (p : Profile) (s : Site) :
    ∀ rule ∈ kind.rules.bySite, ∃ b, rule.applies p s = .ok b := by
  cases kind with
  | property => simp [rules, propertyRules]
  | field => simp [rules, fieldRules]
  | parameter => simp [rules, parameterRules]

/-- A parameter is judged by the rules on declarations alone, so nothing is looked up for it. -/
theorem judge_parameter {s : Site} (h : s.kind = .parameter) (p : Profile) :
    ∃ d, s.judge p = pure d ∧ d.kind = s.kind ∧ d.name = s.name := by
  obtain ⟨o, hfirst, hmem⟩ := firstRule_total (SiteKind.bySite_total .parameter p s)
  unfold Site.judge Site.ruling?
  rw [h, hfirst]
  cases o with
  | none => exact ⟨_, rfl, rfl, rfl⟩
  | some rule =>
    -- no rule on parameters asks for a guard
    have hruling : ∃ b, s.holds p rule.ruling = pure b := by
      rcases List.mem_cons.mp (hmem rule rfl) with rfl | hrule
      · exact ⟨_, rfl⟩
      rcases List.mem_pair.mp hrule with rfl | rfl
      · exact ⟨_, rfl⟩
      · exact ⟨_, rfl⟩
    obtain ⟨b, hb⟩ := hruling
    refine ⟨⟨.parameter, s.name, s.offset?, s.line, b, some rule.name⟩, ?_, rfl, rfl⟩
    show (s.holds p rule.ruling >>= fun optional => pure
      (⟨.parameter, s.name, s.offset?, s.line, optional, some rule.name⟩ : Decision)) = _
    rw [hb, pure_bind]

namespace Weaving.Retells

variable {w : Weaving} {root : Tree} {hw : w.Retells root} {s s' : Site}

theorem readsInputStream_of_method (h : hw.SiteAlike s s') {p : Profile}
    (hmethod : s.method ≠ some p.mergeMethod) :
    s'.readsInputStream p = s.readsInputStream p := by
  have hmerge : s.inMergeMethod p = false := beq_false_of_ne hmethod
  have hmerge' : s'.inMergeMethod p = false := by rwa [Site.inMergeMethod, h.method]
  rw [Site.readsInputStream, Site.readsInputStream, hmerge, hmerge']
  rfl

/-- Sites that are the same are judged alike. -/
theorem judgedAlike_judgeAloud (h : hw.SiteAlike s s') (hkind : s.method ≠ none → s.kind = .parameter)
    (p : Profile) :
    Alike hw.coupling.states (fun d d' => JudgedAlike p (s, d) (s', d')) (s.judgeAloud p)
      (s'.judgeAloud p) := by
  by_cases hmethod : s.method = some p.mergeMethod
  · -- the text of the type may differ, and so may the rule that applies
    have hparameter := hkind (by rw [hmethod]; exact Option.some_ne_none _)
    obtain ⟨d, hd, hdkind, hdname⟩ := judge_parameter hparameter p
    obtain ⟨d', hd', hdkind', hdname'⟩ := judge_parameter (h.kind.trans hparameter) p
    have hjudged : JudgedAlike p (s, d) (s', d') := by
      refine ⟨?_, ?_, h.method, fun hne => absurd hmethod hne⟩
      · rw [hdkind, hdkind', h.kind]
      · rw [hdname, hdname', h.name_eq]
    unfold Site.judgeAloud
    rw [hd, hd', pure_bind, pure_bind]
    exact (Coupling.alike_remark _ _).bind fun _ _ _ => Alike.pure hjudged
  · refine (alike_judgeAloud h (readsInputStream_of_method h hmethod)).imp ?_
    rintro d d' ⟨hagrees, -, -⟩
    exact ⟨hagrees.kind, hagrees.name, h.method, fun _ => hagrees⟩

/-- The judgements for a unit of other tokens. -/
theorem exists_judgements (hw : w.Retells root) {source source' : String}
    (hroot : root.IsTreeOf source) (hroot' : (w.tree root).IsTreeOf source')
    {references : SymbolTable} {p : Profile} {js : List (Site × Decision)}
    (h : root.judgements references p = .ok js) :
    ∃ js', (w.tree root).judgements references p = .ok js'
      ∧ List.Forall₂ (JudgedAlike p) js js' := by
  obtain ⟨env, henv, hfst, hds⟩ := judgements_ok h
  obtain ⟨env', henv', hstates⟩ := hw.exists_ofTree henv
  have hsites : List.Forall₂ (fun s s' => (s.method ≠ none → s.kind = .parameter)
      ∧ hw.SiteAlike s s') env.sites env'.sites :=
    (List.forall₂_and_left _ _).mpr ⟨fun s hs => kind_of_method hs,
      Retells.forall₂_sites hroot hroot' henv henv'⟩
  have hruns : Alike hw.coupling.states
      (fun ds ds' => List.Forall₂ (JudgedAlike p) (env.sites.zip ds) (env'.sites.zip ds'))
      (judgeAll p env.sites) (judgeAll p env'.sites) :=
    Alike.mapM_zip hsites fun s s' hs => judgedAlike_judgeAloud hs.2 hs.1 p
  obtain ⟨⟨ds, resolution⟩, hjudged, hsnd⟩ := ok_of_map hds
  obtain ⟨ds', resolution', hjudged', hdecisions, -⟩ := hruns.ok hstates hjudged
  rw [← List.zip_of_prod hfst.symm hsnd.symm] at hdecisions
  refine ⟨env'.sites.zip ds', ?_, hdecisions⟩
  have hds' : env'.decisions p = .ok ds' := by
    rw [Environment.decisions, Environment.judged, hjudged']
    rfl
  rw [Tree.judgements, Environment.ofUnit, henv']
  exact congrArg (Except.map (env'.sites.zip ·)) hds'

end Weaving.Retells

/-! ## Two sources -/

/-- Both fail, or both succeed with related results. -/
inductive EndAlike {ε α β : Type} (R : α → β → Prop) : Except ε α → Except ε β → Prop
  | error (e e' : ε) : EndAlike R (.error e) (.error e')
  | ok {a : α} {b : β} (h : R a b) : EndAlike R (.ok a) (.ok b)

theorem EndAlike.of_ok {ε α β : Type} {R : α → β → Prop} {x : Except ε α} {y : Except ε β}
    (h : ∀ a, x = .ok a → ∃ b, y = .ok b ∧ R a b) (h' : ∀ b, y = .ok b → ∃ a, x = .ok a) :
    EndAlike R x y := by
  cases x with
  | ok a =>
    obtain ⟨b, rfl, hab⟩ := h a rfl
    exact .ok hab
  | error e =>
    cases y with
    | error e' => exact .error e e'
    | ok b =>
      obtain ⟨a, ha⟩ := h' b rfl
      cases ha

/-- Formatting does not count: of two sources with tokens of the same kinds and values, both have a
tree or neither has. The trees have the same outline, and whatever types are known, the declarations
of both are judged alike, one by one and in order, or neither can be judged. -/
theorem reformatted_alike {source source' : String} {defined defined' : List String}
    {stream stream' : TokenStream} (hstream : TokenStream.ofSource source defined = .ok stream)
    (hstream' : TokenStream.ofSource source' defined' = .ok stream')
    (hsame : stream'.all.map Token.spelling = stream.all.map Token.spelling) :
    EndAlike (fun root root' => root'.outline = root.outline ∧ ∀ references p,
        EndAlike (List.Forall₂ (JudgedAlike p)) (root.judgements references p)
          (root'.judgements references p))
      (parseUnit source defined) (parseUnit source' defined') := by
  refine .of_ok (fun root hroot => ?_) fun root' hroot' => ?_
  · obtain ⟨w, hunmarked, hw, hparse⟩ := parseUnit_respelled hstream hstream' hsame hroot
    have htree := (Tree.isUnitOf_of_parseUnit hroot).toIsTreeOf
    have htree' := (Tree.isUnitOf_of_parseUnit hparse).toIsTreeOf
    refine ⟨w.tree root, hparse, ?_, fun references p => .of_ok (fun js hjs => ?_) fun js' hjs' => ?_⟩
    · rw [Weaving.tree_of_unmarked root fun t _ => hunmarked t, Weaving.outline_relabelTree]
    · exact hw.exists_judgements htree htree' hjs
    · -- the same weaving backwards gives the first tree again
      obtain ⟨w', -, hw', hparse'⟩ := parseUnit_respelled hstream' hstream hsame.symm hparse
      have heq := Except.ok.inj (hroot.symm.trans hparse')
      obtain ⟨js, hjs, -⟩ := hw'.exists_judgements htree' (heq ▸ htree) hjs'
      exact ⟨js, by rw [heq, hjs]⟩
  · obtain ⟨w, -, -, hparse⟩ := parseUnit_respelled hstream' hstream hsame.symm hroot'
    exact ⟨_, hparse⟩

/-- A comment on a guard method is no guard. -/
theorem reformatted_alike_comment :
    ∃ root js, parseUnit "class A{string S{set{/*CheckNotNull(s)*/}}}" [] = .ok root
      ∧ root.judgements (.ofList [{ name := "String", special := some .string }]) {} = .ok js
      ∧ js.map (fun j => (j.2.name, j.2.optional, j.2.rule)) = [("S", true, some "string")] := by
  have hbefore : ((parseUnit "class A{string S{set{}}}" []).toOption.bind fun root =>
      (root.judgements (.ofList [{ name := "String", special := some .string }]) {}).toOption.map
        fun js => js.map fun j => (j.2.name, j.2.optional, j.2.rule, j.1.method))
      = some [("S", true, some "string", none)] := by
    decide +kernel
  have hstreams : ((TokenStream.ofSource "class A{string S{set{}}}" []).toOption.bind fun stream =>
      (TokenStream.ofSource "class A{string S{set{/*CheckNotNull(s)*/}}}" []).toOption.map
        fun stream' => decide (stream'.all.map Token.spelling = stream.all.map Token.spelling))
      = some true := by decide +kernel
  obtain ⟨stream, hstream, hstreams⟩ := Option.bind_eq_some_iff.mp hstreams
  obtain ⟨stream', hstream', hsame⟩ := Option.map_eq_some_iff.mp hstreams
  obtain ⟨root, hroot, hbefore⟩ := Option.bind_eq_some_iff.mp hbefore
  obtain ⟨js, hjs, hbefore⟩ := Option.map_eq_some_iff.mp hbefore
  have halike := reformatted_alike (ok_of_toOption hstream) (ok_of_toOption hstream')
    (of_decide_eq_true hsame)
  rw [ok_of_toOption hroot] at halike
  generalize hparse : parseUnit "class A{string S{set{/*CheckNotNull(s)*/}}}" [] = outcome at halike
  cases halike with
  | @ok _ root' h =>
    have hjudged := h.2 (.ofList [{ name := "String", special := some .string }]) {}
    rw [ok_of_toOption hjs] at hjudged
    generalize hjs' : root'.judgements _ _ = outcome' at hjudged
    cases hjudged with
    | @ok _ js' h =>
      refine ⟨root', js', rfl, hjs', ?_⟩
      obtain ⟨j, rfl, hj⟩ := List.map_eq_singleton_iff.mp hbefore
      cases h with
      | cons hd hnil =>
        cases hnil
        simp only [Prod.mk.injEq] at hj
        obtain ⟨hname, hoptional, hrule, hmethod⟩ := hj
        have hagrees := hd.agrees (by rw [hmethod]; exact fun h => by cases h)
        rw [List.map_singleton, hagrees.name, hagrees.optional, hagrees.rule, hname, hoptional, hrule]

end NullableMarker
