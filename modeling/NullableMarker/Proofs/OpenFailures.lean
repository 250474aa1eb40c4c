import NullableMarker.Proofs.RereadUnits
import NullableMarker.Proofs.TotalResolution
import NullableMarker.Proofs.WholeTrees

/-!
# Failures are told

A source is annotated unless its text has no tokens or its tokens have no tree. A mismatch is what
readers tell each other, and none gets out of a unit. What is asked for without allowing for its
absence is there: the parts of nodes, the scopes that namespaces and directives stand in, the entries
of declared types.

* `Grammar.Guarded` — what readers ask for
* `Environment.Furnished` — what the resolution of a unit asks for
* `annotate_fails_openly` — how annotating a source ends
-/

namespace NullableMarker

/-! ## Readers -/

/-- What readers ask for is there wherever they start, in an attempt that is given up too. -/
structure Grammar.Guarded (ts : List Token) : Prop where
  /-- A name is asked for its segments, which are counted before an interface is read. -/
  name : ∀ limit p, nameSegments (aliasQualifier ts) limit = .ok p → p.tree.HasParts
  /-- The word that a type declaration starts with is asked for its kind. -/
  word : startsTypeDeclaration ts = true →
    ∃ word rest, ts = word :: rest ∧ word.value ∈ declarationWords
  /-- An opening bracket is asked for its closer. -/
  group : nextIn [.lparen, .lbracket, .lbrace] ts = true → balanced ts ≠ .error .mismatch

theorem Grammar.guarded (ts : List Token) : Guarded ts where
  name limit p h := by
    obtain ⟨hname, hwhole⟩ := nameSegments_whole h
    refine hwhole p.tree ?_
    cases htree : p.tree with
    | token t => rw [htree] at hname; cases hname
    | node k cs => simp
  word := word_of_startsTypeDeclaration
  group h := by
    cases ts with
    | nil => cases h
    | cons t rest =>
      have hcloser : (closer? t.kind).isSome = true := by
        simp only [nextIn, List.head?_cons, Option.any_some, List.contains_iff_mem, List.mem_cons,
          List.not_mem_nil, or_false] at h
        rcases h with h | h | h <;> rw [h] <;> rfl
      exact fun hmismatch => balanced_error hcloser hmismatch rfl

/-! ## Scopes -/

theorem Scope.enterNamespace_ne_nil {scope : Scope} (h : scope ≠ []) (usings : List Tree)
    (names : List String) : scope.enterNamespace usings names ≠ [] := by
  fun_induction Scope.enterNamespace scope usings names with
  | case1 => exact h
  | case2 => exact List.cons_ne_nil _ _
  | case3 scope name names _ ih => exact ih (List.cons_ne_nil _ _)

theorem Scope.enter_ne_nil {scope : Scope} (h : scope ≠ []) (t : Tree) : scope.enter t ≠ [] := by
  unfold Scope.enter
  split
  · exact h
  · split
    · exact List.cons_ne_nil _ _
    · split
      · exact List.cons_ne_nil _ _
      · split
        · exact enterNamespace_ne_nil h _ _
        · split
          · exact List.cons_ne_nil _ _
          · exact h

namespace Tree

/-- Nothing below a node that opens no scope of names is looked up. -/
theorem outer_of_mem_unscoped {ts : List Tree} {s : ScopedNode}
    (hs : s ∈ ts.map fun t => (⟨t, none⟩ : ScopedNode)) : s.outer ≠ some [] := by
  obtain ⟨t, -, rfl⟩ := List.mem_map.mp hs
  exact nofun

mutual

/-- In a scope with frames no node stands without one. -/
theorem outer_scoped {scope : Scope} (h : scope ≠ []) : (t : Tree) →
    ∀ s ∈ t.scoped scope, s.outer ≠ some []
  | token _ => by simp [Tree.scoped]
  | node kind children => by
    intro s hs
    rw [Tree.scoped] at hs
    rcases List.mem_cons.mp hs with rfl | hs
    · exact fun heq => h (Option.some.inj heq)
    · split at hs
      · exact outer_of_mem_unscoped hs
      · split at hs
        · exact outer_scopedMembers (Scope.enter_ne_nil h _) children s hs
        · exact outer_scopedAll (Scope.enter_ne_nil h _) children s hs

theorem outer_scopedAll {scope : Scope} (h : scope ≠ []) : (ts : List Tree) →
    ∀ s ∈ scopedAll scope ts, s.outer ≠ some []
  | [] => by simp [scopedAll]
  | t :: ts => by
    intro s hs
    rw [scopedAll] at hs
    rcases List.mem_append.mp hs with hs | hs
    · exact outer_scoped h t s hs
    · exact outer_scopedAll h ts s hs

theorem outer_scopedMembers {scope : Scope} (h : scope ≠ []) : (ts : List Tree) →
    ∀ s ∈ scopedMembers scope ts, s.outer ≠ some []
  | [] => by simp [scopedMembers]
  | t :: ts => by
    intro s hs
    rw [scopedMembers] at hs
    split at hs
    · rcases List.mem_append.mp hs with hs | hs
      · exact outer_of_mem_unscoped hs
      · exact outer_scopedAll h ts s hs
    · rcases List.mem_append.mp hs with hs | hs
      · exact outer_scoped h t s hs
      · exact outer_scopedMembers h ts s hs

end

/-- All nodes below a unit stand in its scope. -/
theorem outer_scoped_unit (cs : List Tree) :
    ∀ s ∈ ((node .compilationUnit cs).scoped []).tail, s.outer ≠ some [] := by
  rw [Tree.scoped]
  exact outer_scopedAll (List.cons_ne_nil _ _) cs

end Tree

/-! ## Resolution -/

/-- A declaration of a type has a key. -/
theorem exists_declaredKey {nodes : List ScopedNode} {d : ScopedNode}
    (hd : d ∈ typeDeclarations nodes) : ∃ key, d.declaredKey? = some key := by
  have hd := List.of_mem_filter hd
  obtain ⟨houter, hkind⟩ := Bool.and_eq_true_iff.mp hd
  obtain ⟨outer, houter⟩ := Option.isSome_iff_exists.mp houter
  unfold ScopedNode.isKind Tree.isNode at hkind
  obtain ⟨kind, hnode, hkind⟩ := (Option.any_eq_true _ _).mp hkind
  have htype : kind.typeKind?.isSome = true := by
    revert hkind
    cases kind <;> decide
  obtain ⟨typeKind, htype⟩ := Option.isSome_iff_exists.mp htype
  refine ⟨(declaredSymbol "" outer typeKind d.node).key, ?_⟩
  simp [ScopedNode.declaredKey?, ScopedNode.declaredSymbol?, hnode, htype, houter]

/-- What the resolution of a unit asks for is there. -/
structure Environment.Furnished (references : SymbolTable) (env : Environment) : Prop where
  /-- The root opens the scope that all else stands in. -/
  unit : ∃ cs, env.root = .node .compilationUnit cs
  /-- Every node has the parts that it is asked for. -/
  parts : ∀ n ∈ env.root.nodes, n.HasParts
  /-- A node that names are looked up for stands in a scope with frames. -/
  scopes : ∀ s ∈ env.nodes.tail, s.outer ≠ some []
  /-- When a base list has been resolved, the type that it completes is known. -/
  declared : ∀ before d after, typeDeclarations env.nodes = before ++ d :: after →
    ∃ st l st' key s, (before.forM completeDeclaration).run
        (.declaring references "source" env.nodes) = .ok ((), st)
      ∧ (resolveBaseList d).run st = .ok (l, st') ∧ d.declaredKey? = some key
      ∧ st'.table.get? key = some s

/-- The environment of a unit that was read. -/
theorem Environment.exists_furnished {references : SymbolTable} (h : references.Proper)
    {stream : TokenStream} {root : Tree} (hroot : stream.toUnit = .ok root) (p : Profile) :
    ∃ env ds, ofUnit references root = .ok env ∧ env.decisions p = .ok ds
      ∧ env.Furnished references := by
  obtain ⟨env, henv, hproper⟩ := ofTree_total h "source" root
  obtain ⟨ds, hds⟩ := decisions_total hproper p
  obtain ⟨hroot', hnodes⟩ := root_of_ofTree henv
  obtain ⟨cs, rfl, -⟩ := TokenStream.toUnit_form hroot
  refine ⟨env, ds, henv, hds, ⟨cs, hroot'⟩, ?_, ?_, ?_⟩
  · rw [hroot']
    exact TokenStream.toUnit_whole hroot
  · rw [hnodes]
    exact Tree.outer_scoped_unit cs
  · intro before d after hsplit
    have hmem : d ∈ typeDeclarations env.nodes := by
      rw [hsplit]
      exact List.mem_append_right _ List.mem_cons_self
    obtain ⟨key, hkey⟩ := exists_declaredKey hmem
    -- the keys of all declarations are known from the start, and no base list takes one away
    obtain ⟨⟨⟩, st, hbefore, -, hst⟩ := answers_completeDeclarations before _
      (Resolution.proper_declaring h "source" env.nodes)
    obtain ⟨l, st', hlist, -, hst'⟩ := answers_resolveBaseList d st hst
    have hknown := hst'.keys key (List.mem_filterMap.mpr ⟨d, hmem, hkey⟩)
    obtain ⟨s, hs⟩ := Option.isSome_iff_exists.mp hknown
    exact ⟨st, l, st', key, s, hbefore, hlist, hkey, hs⟩

/-! ## Sources -/

/-- No mismatch gets out of a unit. -/
theorem TokenStream.fatal_of_toUnit {stream : TokenStream} {e : ParseError}
    (h : stream.toUnit = .error e) :
    ∃ cause token, Grammar.namespaceMembers true (.start stream.tokens) = .error (.fatal cause token)
      ∧ e = ⟨cause, (token.getD stream.eof).place⟩ := by
  unfold toUnit at h
  split at h
  · next failure hfailure =>
    cases failure with
    | mismatch => exact absurd rfl (Grammar.namespaceMembers_error hfailure)
    | fatal cause token =>
      cases h
      exact ⟨cause, token, hfailure, rfl⟩
  · cases h

/-- Whatever the source, the symbols defined and the framework, annotating over the default
references ends with the complaint about the text, with the fatal complaint about its tokens, or with
an annotated text. Nothing else ends it early, and what is asked for on the way is there. -/
theorem annotate_fails_openly (defined : List String) (p : Profile) (source : String) :
    (∀ ts, Grammar.Guarded ts)
      ∧ match TokenStream.ofSource (withoutOrderMark source) defined with
        | .error e => annotate Defaults.table defined p source = .error (.source (.lex e))
        | .ok stream =>
          match stream.toUnit with
          | .error e => annotate Defaults.table defined p source = .error (.source (.parse e))
            ∧ ∃ cause token, e = ⟨cause, (token.getD stream.eof).place⟩
              ∧ Grammar.namespaceMembers true (.start stream.tokens) = .error (.fatal cause token)
          | .ok root => ∃ env text, Environment.ofUnit Defaults.table root = .ok env
            ∧ env.Furnished Defaults.table ∧ annotate Defaults.table defined p source = .ok text := by
  refine ⟨Grammar.guarded, ?_⟩
  unfold annotate loadUnit parseUnit readSource
  cases hstream : TokenStream.ofSource (withoutOrderMark source) defined with
  | error e => rfl
  | ok stream =>
    dsimp only
    cases hroot : stream.toUnit with
    | error e =>
      obtain ⟨cause, token, hfatal, he⟩ := TokenStream.fatal_of_toUnit hroot
      exact ⟨rfl, cause, token, he, hfatal⟩
    | ok root =>
      obtain ⟨env, ds, henv, hds, hfurnished⟩ :=
        Environment.exists_furnished Defaults.table_proper hroot p
      refine ⟨env, (env.annotatedBy ds).fullText, henv, hfurnished, ?_⟩
      show (Environment.ofUnit Defaults.table root).mapError AnnotateError.reference >>= _ = _
      rw [henv]
      show ((env.annotated p).mapError AnnotateError.reference >>= fun t => pure t.fullText) = _
      rw [Environment.annotated, hds]
      rfl

end NullableMarker
