import NullableMarker.Proofs.MemberForms

/-!
# The forms of types with members and of units

A unit is made of orderly trees.

* `Grammar.member_orderly` — so is every member
* `TokenStream.toUnit_form`, `TokenStream.toFragment_form` — the trees of whole sources
-/

namespace NullableMarker.Grammar

open NullableMarker.Tree

/-! ## Types with members -/

/-- The children of a type declaration: orderly ones, or such a list with a parameter list before
which nothing is declared. -/
def OwnerForm (cs : List Tree) : Prop :=
  (∀ c ∈ cs, c.Orderly) ∨ ∃ before list after, cs = before ++ list :: after
    ∧ (∀ c ∈ before, c.Bare) ∧ ParameterListForm list ∧ ∀ c ∈ after, c.Orderly

theorem OwnerForm.append {cs ds : List Tree} (h : OwnerForm cs) (hds : ∀ c ∈ ds, c.Orderly) :
    OwnerForm (cs ++ ds) := by
  rcases h with h | ⟨before, list, after, rfl, hbefore, hlist, hafter⟩
  · refine .inl ?_
    intro c hc
    rcases List.mem_append.mp hc with hc | hc
    · exact h c hc
    · exact hds c hc
  · refine .inr ⟨before, list, after ++ ds, by simp, hbefore, hlist, ?_⟩
    intro c hc
    rcases List.mem_append.mp hc with hc | hc
    · exact hafter c hc
    · exact hds c hc

theorem OwnerForm.adds {ts : List Token} {r s : Begun ts} (h : OwnerForm r.children)
    (hadds : r.Adds Tree.Orderly s) : OwnerForm s.children := by
  obtain ⟨cs, hs, hcs⟩ := hadds
  rw [hs]
  exact h.append hcs

theorem Shape.orderly_of_ownerForm {ts : List Token} {kind : NodeKind} {r : Begun ts}
    (hkind : kind.isOrdinary = true) (h : OwnerForm r.children) :
    (⟨kind, r⟩ : Shape ts).Orderly := by
  rcases h with h | ⟨before, list, after, hr, hbefore, hlist, hafter⟩
  · exact Shape.orderly_of_plain hkind h
  · exact Shape.orderly_of_owner hkind hr hbefore hlist hafter

theorem Begun.Adds.orderly {ts : List Token} {r s : Begun ts} (h : r.Adds Plain s) :
    r.Adds Tree.Orderly s :=
  h.mono fun _ hc => .bare hc.1

theorem declarationKind_isOrdinary (keyword : String) :
    (declarationKind keyword).isOrdinary = true := by
  unfold declarationKind
  split
  · rfl
  · split
    · rfl
    · split <;> rfl

theorem typeHead_form {ts : List Token} {head : TypeHead ts} (h : typeHead ts = .ok head) :
    head.kind.isOrdinary = true ∧ OwnerForm head.read.children := by
  unfold typeHead at h
  split at h
  · cases h
  · next keyword rest =>
    dsimp only at h
    obtain ⟨name, hname, h⟩ := ok_of_bind h
    obtain ⟨r₁, h₁, h⟩ := ok_of_bind h
    obtain ⟨r₂, h₂, h⟩ := ok_of_bind h
    obtain ⟨r₃, h₃, h⟩ := ok_of_bind h
    obtain ⟨r₄, h₄, h⟩ := ok_of_bind h
    cases h
    refine ⟨declarationKind_isOrdinary _, ?_⟩
    have hstart : ∀ c ∈ (if declarationKind keyword.value == .recordType then
        (Begun.token keyword rest).optional (·.isKeyword ["class", "struct"])
        else Begun.token keyword rest).children, c.Bare := by
      split
      · exact (Begun.adds_optional _ _).bare.forall_mem (by simp)
      · simp
    have hbefore := (Begun.adds_nextIf reads_typeParameterList h₁).bare.forall_mem
      (forall_mem_add hstart name (reads_expectThat _ _ _ hname).1)
    have hlist : OwnerForm r₂.children := by
      unfold Begun.nextIf at h₂
      split at h₂
      · obtain ⟨p, hp, rfl⟩ := Begun.next_ok h₂
        exact .inr ⟨_, p.tree, [], rfl, hbefore, reads_parameterListIn _ _ _ _ hp, by simp⟩
      · cases h₂
        exact .inl fun c hc => .bare (hbefore c hc)
    exact (hlist.adds (Begun.adds_nextIf reads_baseList h₃).orderly).adds
      (adds_constraintClauses h₄).orderly

theorem reads_skipped : Reads Plain skipped := by
  intro ts p h
  obtain ⟨g, -, rfl⟩ := ok_of_map h
  exact plain_ofGroup _ g rfl rfl

mutual

theorem member_orderly {typeName : Option String} {ts : List Token} {p : Parsed ts}
    (h : member typeName ts = .ok p) : p.tree.Orderly := by
  rw [member] at h
  rcases ok_of_orSkipped h with h | h
  · exact declaration_orderly h
  · exact .bare (reads_skipped _ _ h).1
termination_by (ts.length, 4)
decreasing_by exact Prod.Lex.right _ (by decide)

theorem declaration_orderly {typeName : Option String} {ts : List Token} {p : Parsed ts}
    (h : declaration typeName ts = .ok p) : p.tree.Orderly := by
  unfold declaration at h
  split at h
  · cases h
  · next r hr =>
    have hle := r.length_le
    split at h
    · cases h
    · next s hs =>
      cases h
      exact (shape_orderly hs).tree r.children (preamble_plain hr)
termination_by (ts.length, 3)
decreasing_by (simp only [Prod.lex_def]; omega)

theorem shape_orderly {typeName : Option String} {ts : List Token} {s : Shape ts}
    (h : shape typeName ts = .ok s) : s.Orderly := by
  unfold shape at h
  split at h
  · split at h
    · cases h
    · next head hhead =>
      obtain ⟨hkind, hform⟩ := typeHead_form hhead
      split at h
      · next last hlast =>
        cases h
        exact Shape.orderly_of_ownerForm hkind
          (hform.adds (head.read.adds_add last (reads_expectThat _ _ _ hlast)).orderly)
      · split at h
        · cases h
        · next opening hopening =>
          have hlt := Nat.lt_trans opening.progress head.read.progress
          split at h
          · cases h
          · next r hr =>
            cases h
            have hopen := hform.adds
              (head.read.adds_add opening (reads_expectThat _ _ _ hopening)).orderly
            exact Shape.orderly_of_ownerForm hkind
              ((hopen.adds (members_adds hr)).adds (r.adds_optional _).orderly)
  · exact plainShape_orderly h
termination_by (ts.length, 2)
decreasing_by exact Prod.Lex.left _ _ (by assumption)

theorem members_adds {typeName : String} {opening : Option Token} {ts : List Token}
    {r s : Begun ts} (h : members typeName opening r = .ok s) : r.Adds Tree.Orderly s := by
  unfold members at h
  split at h
  · next last hlast =>
    cases h
    exact (r.adds_add last (reads_expectThat _ _ _ hlast)).orderly
  · split at h
    · cases h
    · split at h
      · cases h
      · next p hp =>
        have hlt := p.progress
        exact (r.adds_add p (member_orderly hp)).trans (members_adds h)
termination_by (r.rest.length, 5)
decreasing_by
  · exact Prod.Lex.right _ (by decide)
  · exact Prod.Lex.left _ _ (by assumption)

end

/-! ## Units -/

theorem usingName_plain (ts : List Token) : ∀ c ∈ (usingName ts).children, c.Plain := by
  unfold usingName
  split
  · next t u rest =>
    split
    · show ∀ c ∈ [Tree.token t, Tree.token u], c.Plain
      simp
    · simp [Reading.start]
  · simp [Reading.start]

theorem usingDirective_orderly {ts : List Token} {p : Parsed ts}
    (h : usingDirective ts = .ok p) : p.tree.Orderly := by
  obtain ⟨q, hq, h⟩ := ok_of_bind h
  obtain ⟨r₁, h₁, h⟩ := ok_of_bind h
  obtain ⟨r₂, h₂, h⟩ := ok_of_bind h
  cases h
  have hstart : ∀ c ∈ (Reading.ofRun (.optional (·.isWord ["global"]) ts)).children, c.Bare := by
    simp
  have hname : ∀ {us : List Token} (r : Begun us), r.Adds Plain (r.extend (usingName r.rest)) :=
    fun r => ⟨_, rfl, usingName_plain _⟩
  have hadds := ((Begun.adds_optional _ _).trans (hname _)).bare.trans
    ((Begun.adds_type h₁).trans (Begun.adds_bare_next (reads_expectThat _) h₂))
  refine .bare ?_
  rw [Begun.tree_finish, bare_node]
  exact ⟨rfl, hadds.forall_mem (forall_mem_add hstart q (reads_expectThat _ _ _ hq).1)⟩

theorem simpleMember_orderly {ts : List Token} {p : Parsed ts} (h : simpleMember ts = .ok p) :
    p.tree.Orderly := by
  unfold simpleMember at h
  split at h
  · unfold externAlias at h
    split at h
    · cases h
    · obtain ⟨g, -, rfl⟩ := ok_of_map h
      exact .bare (plain_ofGroup _ g rfl rfl).1
  · split at h
    · rcases ok_of_orSkipped h with h | h
      · exact usingDirective_orderly h
      · exact .bare (reads_skipped _ _ h).1
    · split at h
      · obtain ⟨g, -, rfl⟩ := ok_of_map h
        exact .bare (plain_ofGroup _ g rfl rfl).1
      · exact member_orderly h

theorem namespaceHead_bare {ts : List Token} {r : Begun ts} (h : namespaceHead ts = .ok r) :
    ∀ c ∈ r.children, c.Bare := by
  unfold namespaceHead at h
  split at h
  · cases h
  · next keyword rest =>
    split at h
    · cases h
    · cases h
    · next p hp =>
      cases h
      have hkeyword : ∀ c ∈ (Begun.token keyword rest).children, c.Bare := by simp
      exact forall_mem_add hkeyword p (name_derives hp).1.isType.bare

mutual

theorem namespaceMembers_orderly {top : Bool} {ts : List Token} {r s : Reading ts}
    (hr : ∀ c ∈ r.children, c.Orderly) (h : namespaceMembers top r = .ok s) :
    ∀ c ∈ s.children, c.Orderly := by
  unfold namespaceMembers at h
  split at h
  · split at h
    · cases h; exact hr
    · cases h
  · split at h
    · split at h
      · cases h
      · cases h; exact hr
    · split at h
      · cases h
      · next p hp =>
        have hlt := p.progress
        exact namespaceMembers_orderly (forall_mem_add hr p (namespaceMember_orderly hp)) h
termination_by (r.rest.length, 2)
decreasing_by
  · exact Prod.Lex.right _ (by decide)
  · exact Prod.Lex.left _ _ (by assumption)

theorem namespaceMember_orderly {ts : List Token} {p : Parsed ts} (h : namespaceMember ts = .ok p) :
    p.tree.Orderly := by
  rw [namespaceMember] at h
  split at h
  · exact namespaceDeclaration_orderly h
  · exact simpleMember_orderly h
termination_by (ts.length, 1)
decreasing_by exact Prod.Lex.right _ (by decide)

theorem namespaceDeclaration_orderly {ts : List Token} {p : Parsed ts}
    (h : namespaceDeclaration ts = .ok p) : p.tree.Orderly := by
  unfold namespaceDeclaration at h
  split at h
  · cases h
  · next head hhead =>
    have hbare := namespaceHead_bare hhead
    split at h
    · next mark hmark =>
      have hlt := Nat.lt_trans mark.progress head.progress
      split at h
      · cases h
      · next inner hinner =>
        cases h
        refine .plain rfl ?_
        intro c hc
        rcases List.mem_append.mp hc with hc | hc
        · exact .bare (forall_mem_add hbare mark (reads_expectThat _ _ _ hmark).1 c hc)
        · exact namespaceMembers_orderly (by simp [Reading.start]) hinner c hc
    · split at h
      · cases h
      · next opening hopening =>
        have hlt := Nat.lt_trans opening.progress head.progress
        split at h
        · cases h
        · next inner hinner =>
          split at h
          · cases h
          · next closing hclosing =>
            cases h
            refine .plain rfl ?_
            have hinner' := namespaceMembers_orderly (by simp [Reading.start]) hinner
            have hall : ∀ c ∈ ((head.add opening).extend inner).children, c.Orderly := by
              intro c hc
              rcases List.mem_append.mp hc with hc | hc
              · exact .bare (forall_mem_add hbare opening (reads_expectThat _ _ _ hopening).1 c hc)
              · exact hinner' c hc
            exact (Begun.adds_optional _ _).orderly.forall_mem
              (forall_mem_add hall closing (.bare (reads_expectThat _ _ _ hclosing).1))
termination_by (ts.length, 0)
decreasing_by
  · exact Prod.Lex.left _ _ (by assumption)
  · exact Prod.Lex.left _ _ (by assumption)

end

theorem fragmentMembers_orderly {ts : List Token} {r s : Reading ts}
    (hr : ∀ c ∈ r.children, c.Orderly) (h : fragmentMembers r = .ok s) :
    ∀ c ∈ s.children, c.Orderly := by
  fun_induction fragmentMembers r with
  | case1 => cases h; exact hr
  | case2 => cases h
  | case3 => cases h
  | case4 r _ _ p hp ih => exact ih (forall_mem_add hr p (member_orderly hp)) h

end NullableMarker.Grammar

namespace NullableMarker

open Grammar

/-- The tree of a unit is a unit over orderly trees. -/
theorem TokenStream.toUnit_form {stream : TokenStream} {root : Tree}
    (h : stream.toUnit = .ok root) :
    ∃ cs, root = .node .compilationUnit cs ∧ ∀ c ∈ cs, c.Orderly := by
  unfold toUnit at h
  split at h
  · cases h
  · next r hr =>
    cases h
    refine ⟨_, rfl, ?_⟩
    intro c hc
    rcases List.mem_append.mp hc with hc | hc
    · exact namespaceMembers_orderly (by simp [Reading.start]) hr c hc
    · rw [List.mem_singleton.mp hc]
      exact .bare (Tree.bare_token _)

/-- The tree of a fragment is a fragment over orderly trees. -/
theorem TokenStream.toFragment_form {stream : TokenStream} {root : Tree}
    (h : stream.toFragment = .ok root) :
    ∃ cs, root = .node .fragment cs ∧ ∀ c ∈ cs, c.Orderly := by
  unfold toFragment at h
  split at h
  · cases h
  · next r hr =>
    cases h
    refine ⟨_, rfl, ?_⟩
    intro c hc
    rcases List.mem_append.mp hc with hc | hc
    · exact fragmentMembers_orderly (by simp [Reading.start]) hr c hc
    · rw [List.mem_singleton.mp hc]
      exact .bare (Tree.bare_token _)

end NullableMarker
