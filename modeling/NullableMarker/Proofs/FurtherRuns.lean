import NullableMarker.Proofs.StableDecisions
import NullableMarker.Proofs.StableHeader

/-!
# Annotating a text again

A type that is marked is read again as one with a mark, and so it is not marked again. Behind `ref`
the mark is read as part of the type that follows, so the declared type still has none: each further
run over the text puts in one more mark there, and nothing else.

* `Tree.hasRefType` — declarations that are marked in each run
* `Weaving.needsMark_tree` — marked declarations, read again
* `marked_again` — the declarations that are marked in the next run
* `annotate_reread` — one more run
* `annotate_again` — all further runs
-/

namespace NullableMarker

/-- The declared type is a reference to another type. -/
def Tree.hasRefType (t : Tree) : Bool := t.type?.any (·.isNode (· == .refType))

/-! ## Marked types, read again -/

namespace Weaving

variable {w : Weaving} {t : Tree}

theorem isNullable_markType (mark : Token) (h : t.isNode NodeKind.isType = true) :
    (markType mark t).isNullable = !t.isNode (· == .refType) := by
  cases t with
  | token s => cases h
  | node k cs =>
    rw [markType, Tree.isNode_node]
    cases hk : (k == .refType) with
    | true => rw [eq_of_beq hk]; rfl
    | false => rfl

theorem isRefType_markType (mark : Token) (h : t.isNode NodeKind.isType = true) :
    (markType mark t).isNode (· == .refType) = t.isNode (· == .refType) := by
  cases t with
  | token s => cases h
  | node k cs =>
    rw [markType, Tree.isNode_node]
    cases hk : (k == .refType) with
    | true => rw [eq_of_beq hk]; rfl
    | false => rfl

/-- A type refers to another one before and after it is marked. -/
theorem isRefType_tree (h : t.isNode NodeKind.isType = true) :
    (w.tree t).isNode (· == .refType) = t.isNode (· == .refType) := by
  rcases tree_of_isType h with ⟨-, heq⟩ | ⟨mark, -, heq⟩
  · rw [heq, isNode_relabelTree]
  · rw [heq, isRefType_markType mark ((isNode_relabelTree _ t).trans h), isNode_relabelTree]

/-- A type with a mark keeps it. -/
theorem isNullable_tree_of_isNullable (h : t.isNullable = true) : (w.tree t).isNullable = true := by
  have htype : t.isNode NodeKind.isType = true := Tree.isNode_of_kind h _
  rcases tree_of_isType htype with ⟨-, heq⟩ | ⟨mark, -, heq⟩
  · rw [heq, Tree.isNullable, isNode_relabelTree]
    exact h
  · rw [heq, isNullable_markType mark ((isNode_relabelTree _ t).trans htype), isNode_relabelTree,
      Tree.isNode_of_kind h]
    rfl

/-- A type that gets a mark is read with it, unless it refers to another type. -/
theorem isNullable_tree_of_marked (h : t.isNode NodeKind.isType = true)
    (hmarked : t.lastToken?.any w.marked = true) :
    (w.tree t).isNullable = !t.isNode (· == .refType) := by
  rcases tree_of_isType h with ⟨hnil, -⟩ | ⟨mark, -, heq⟩
  · rw [Tree.lastToken?_eq] at hmarked
    cases hlast : t.tokens.getLast? with
    | none => rw [hlast] at hmarked; cases hmarked
    | some last =>
      rw [hlast] at hmarked
      rw [pending, hlast, Option.map_some, Option.getD_some, w.after_of_marked hmarked] at hnil
      cases hnil
  · rw [heq, isNullable_markType mark ((isNode_relabelTree _ t).trans h), isNode_relabelTree]

section Sites

variable (hsite : t.isNode NodeKind.isSite = true)

include hsite

theorem type?_tree_of_isSite : (w.tree t).type? = t.type?.map w.tree := by
  refine type?_tree ?_
  cases t with
  | token s => cases hsite
  | node k cs => exact isType_of_isSite hsite

theorem hasRefType_tree : (w.tree t).hasRefType = t.hasRefType := by
  rw [Tree.hasRefType, type?_tree_of_isSite hsite, Tree.hasRefType]
  cases htype : t.type? with
  | none => rfl
  | some type => exact isRefType_tree (List.find?_some htype)

/-- A declaration that needs no mark needs none when it is read again. -/
theorem needsMark_tree_of_not (h : t.needsMark = false) : (w.tree t).needsMark = false := by
  rw [Tree.needsMark] at h
  rw [Tree.needsMark, type?_tree_of_isSite hsite]
  cases htype : t.type? with
  | none => rfl
  | some type =>
    rw [htype, Option.any_some, Bool.not_eq_false'] at h
    rw [Option.map_some, Option.any_some, isNullable_tree_of_isNullable h]
    rfl

/-- A declaration that is marked needs another mark exactly if its type refers to another one. -/
theorem needsMark_tree (hmarked : t.typeEnd?.any w.marked = true) :
    (w.tree t).needsMark = t.hasRefType := by
  rw [Tree.needsMark, type?_tree_of_isSite hsite, Tree.hasRefType]
  cases htype : t.type? with
  | none => rfl
  | some type =>
    rw [Tree.typeEnd?, htype] at hmarked
    rw [Option.map_some, Option.any_some, Option.any_some,
      isNullable_tree_of_marked (List.find?_some htype) hmarked, Bool.not_not]

end Sites

/-- The unit that an annotated text is read as has the header. -/
theorem Annotates.hasHeader {root : Tree} {source : String} (h : w.Annotates root)
    (hroot : root.IsUnitOf source) : (w.tree root).hasHeader = true := by
  refine (Tree.hasHeader_congr ?_).trans (Tree.hasHeader_addHeader hroot.isUnit hroot.tokens_ne_nil)
  obtain ⟨first, rest, hfirst⟩ := List.exists_cons_of_ne_nil hroot.tokens_ne_nil
  have hhead : root.firstToken? = some first := by rw [Tree.firstToken?_eq, hfirst]; rfl
  have hcarries := h.first first (by rw [hfirst]; rfl)
  rw [Tree.leading_addHeader hroot.tokens_ne_nil, Tree.leading, firstToken?_tree, hhead,
    Option.map_some, Tree.leading, hhead]
  exact hcarries.leading

end Weaving

/-! ## The next run -/

/-- The declarations that every run over a text marks: they are decided to be optional, and their
type has no mark of its own and refers to another one. -/
def markedEachTime (sites : List Tree) (ds : List Decision) : List Tree :=
  (toMark sites ds).filter (·.hasRefType)

/-- Of the declarations that are marked, those are marked in the next run whose type refers to
another one. -/
theorem marked_again {w : Weaving} {root : Tree} {source source' : String}
    (hroot : root.IsTreeOf source) (hroot' : (w.tree root).IsTreeOf source')
    (hsites : (w.tree root).sites = root.sites.map w.tree) {ds ds' : List Decision}
    (hds : List.Forall₂ (fun n d => d.offset = n.offset?) root.sites ds)
    (hds' : List.Forall₂ (fun n d => d.offset = n.offset?) (w.tree root).sites ds')
    (hoptional : ds'.map (·.optional) = ds.map (·.optional))
    (hmarked : ∀ n ∈ Tree.marked (verdictsOf ds) root.sites, n.typeEnd?.any w.marked = true) :
    Tree.marked (verdictsOf ds') (w.tree root).sites
      = ((Tree.marked (verdictsOf ds) root.sites).filter (·.hasRefType)).map w.tree := by
  -- a declaration and what it is read as have the same verdict
  have hverdicts : root.sites.map (fun n => (verdictsOf ds').isOptional (w.tree n).offset?)
      = root.sites.map fun n => (verdictsOf ds).isOptional n.offset? := by
    have hbefore := map_eq_of_forall₂ (forall₂_isOptional hroot hds) (f := fun n =>
      (verdictsOf ds).isOptional n.offset?) (g := (·.optional)) fun _ _ h => h.symm
    have hafter := map_eq_of_forall₂ (forall₂_isOptional hroot' hds') (f := fun n =>
      (verdictsOf ds').isOptional n.offset?) (g := (·.optional)) fun _ _ h => h.symm
    rw [hsites, List.map_map] at hafter
    exact hafter.symm.trans (hoptional.trans hbefore)
  rw [Tree.marked, hsites, List.filter_map, Tree.marked, List.filter_filter]
  congr 1
  refine List.filter_congr fun n hn => ?_
  have hsite : n.isNode NodeKind.isSite = true := (List.mem_filter.mp hn).2
  have hverdict := List.map_inj_left.mp hverdicts n hn
  show ((verdictsOf ds').isOptional (w.tree n).offset? && (w.tree n).needsMark)
    = (n.hasRefType && ((verdictsOf ds).isOptional n.offset? && n.needsMark))
  rw [hverdict]
  cases hv : (verdictsOf ds).isOptional n.offset? with
  | false => simp
  | true =>
    cases hneeds : n.needsMark with
    | false => simp [Weaving.needsMark_tree_of_not hsite hneeds]
    | true =>
      have hmem : n ∈ Tree.marked (verdictsOf ds) root.sites :=
        List.mem_filter.mpr ⟨hn, by rw [hv, hneeds]; rfl⟩
      simp [Weaving.needsMark_tree hsite (hmarked n hmem)]

section Runs

variable {references : SymbolTable} {defined : List String} {source text : String} {root : Tree}
  {env : Environment} {ds : List Decision}

/-- One more run over an annotated text: it puts in one mark for each declaration that is marked each
time, and leaves as many of these. -/
theorem annotate_reread (hroot : loadUnit source defined = .ok root)
    (henv : Environment.ofUnit references root = .ok env) (hds : env.decisions {} = .ok ds) :
    ∃ root' env' ds' offsets, loadUnit (env.annotatedBy ds).fullText defined = .ok root'
      ∧ Environment.ofUnit references root' = .ok env' ∧ env'.decisions {} = .ok ds'
      ∧ (env'.annotatedBy ds').fullText.toList
        = withMarks offsets 0 (env.annotatedBy ds).fullText.toList
      ∧ (env'.annotatedBy ds').fullText.length = (env.annotatedBy ds).fullText.length + offsets.length
      ∧ offsets.length = (markedEachTime root.sites ds).length
      ∧ (markedEachTime root'.sites ds').length = (markedEachTime root.sites ds).length := by
  have hunit : root.IsUnitOf (withoutOrderMark source) := Tree.isUnitOf_of_parseUnit hroot
  obtain ⟨w, env', ds', hload', henv', hds', hmoved, hw, hsites, hmarked⟩ :=
    exists_reread (p := {}) (by decide) hroot henv hds
  have hunit' : (w.tree root).IsUnitOf (env.annotatedBy ds).fullText := by
    have hunit' := Tree.isUnitOf_of_parseUnit hload'
    rw [Environment.annotatedBy_eq henv] at hunit' ⊢
    rwa [hunit.withoutOrderMark_annotated] at hunit'
  have hdecided := Environment.forall₂_sites hunit.toIsTreeOf henv hds
  have hdecided' := Environment.forall₂_sites hunit'.toIsTreeOf henv' hds'
  have hoptional : ds'.map (·.optional) = ds.map (·.optional) :=
    map_eq_of_forall₂ hmoved fun _ _ h => h.optional
  have hagain := marked_again hunit.toIsTreeOf hunit'.toIsTreeOf hsites hdecided hdecided' hoptional
    hmarked
  obtain ⟨offsets, hoffsets, hincreasing, hbound, htext⟩ := hunit'.annotated_text (verdictsOf ds')
  rw [Tree.headerText, hw.hasHeader hunit, if_pos rfl, String.toList_empty, List.nil_append] at htext
  have hlength := congrArg List.length hoffsets
  rw [List.length_map, List.length_map, hagain, List.length_map, marked_verdictsOf hunit hdecided]
    at hlength
  rw [← Environment.annotatedBy_eq henv' ds'] at htext
  refine ⟨w.tree root, env', ds', offsets, hload', henv', hds', htext, ?_, hlength.symm, ?_⟩
  · rw [← String.length_toList, htext, length_withMarks _ hincreasing, String.length_toList]
    intro n hn
    rw [String.length_toList, Nat.zero_add]
    exact ⟨Nat.zero_le n, hbound n hn⟩
  · rw [markedEachTime, markedEachTime, ← marked_verdictsOf hunit' hdecided', hagain,
      ← marked_verdictsOf hunit hdecided, List.filter_map, List.length_map, List.filter_filter]
    -- a type that refers to another one does so when it is read again
    congr 1
    refine List.filter_congr fun n hn => ?_
    have hsite : n.isNode NodeKind.isSite = true :=
      (List.mem_filter.mp (List.mem_of_mem_filter hn)).2
    rw [Function.comp_apply, Weaving.hasRefType_tree hsite, Bool.and_self]

/-- Every run over an annotated text puts in as many marks as the first. -/
theorem length_iterate_annotate (hroot : loadUnit source defined = .ok root)
    (henv : Environment.ofUnit references root = .ok env) (hds : env.decisions {} = .ok ds) (k : Nat) :
    ∃ last, (· >>= annotate references defined {})^[k] (.ok (env.annotatedBy ds).fullText) = .ok last
      ∧ last.length
        = (env.annotatedBy ds).fullText.length + k * (markedEachTime root.sites ds).length := by
  induction k generalizing source root env ds with
  | zero => exact ⟨_, rfl, by rw [Nat.zero_mul, Nat.add_zero]⟩
  | succ k ih =>
    obtain ⟨root', env', ds', offsets, hroot', henv', hds', -, hlength, hcount, hsame⟩ :=
      annotate_reread hroot henv hds
    obtain ⟨last, hlast, hlast'⟩ := ih hroot' henv' hds'
    refine ⟨last, ?_, ?_⟩
    · rw [Function.iterate_succ_apply]
      show _^[k] (annotate references defined {} (env.annotatedBy ds).fullText) = _
      rw [annotate_of_ok hroot' henv' hds', hlast]
    · rw [hlast', hlength, hcount, hsame, Nat.succ_mul, Nat.add_assoc, Nat.add_comm (k * _)]

/-- Annotating an annotated text changes nothing exactly if no declaration that is marked has a type
that refers to another one. Otherwise each further run puts in one more mark for each of these
declarations, and nothing else. -/
theorem annotate_again (h : annotate references defined {} source = .ok text) :
    ∃ root env ds next offsets, loadUnit source defined = .ok root
      ∧ Environment.ofUnit references root = .ok env ∧ env.decisions {} = .ok ds
      ∧ annotate references defined {} text = .ok next
      ∧ (next = text ↔ ∀ n ∈ toMark root.sites ds, n.hasRefType = false)
      ∧ next.toList = withMarks offsets 0 text.toList
      ∧ offsets.length = ((toMark root.sites ds).filter (·.hasRefType)).length
      ∧ ∀ k, ∃ last, (· >>= annotate references defined {})^[k] (.ok text) = .ok last
        ∧ last.length = text.length + k * offsets.length := by
  obtain ⟨root, env, ds, hroot, henv, hds, rfl⟩ := annotate_ok h
  rw [← Environment.annotatedBy_eq henv]
  obtain ⟨root', env', ds', offsets, hroot', henv', hds', htext, hlength, hcount, -⟩ :=
    annotate_reread hroot henv hds
  refine ⟨root, env, ds, _, offsets, hroot, henv, hds, annotate_of_ok hroot' henv' hds', ?_, htext,
    hcount, ?_⟩
  · constructor
    · intro hsame n hn
      rw [hsame, Nat.left_eq_add] at hlength
      have hnone : markedEachTime root.sites ds = [] := by
        rw [← List.length_eq_zero_iff, ← hcount, hlength]
      simpa using List.filter_eq_nil_iff.mp hnone n hn
    · intro hnone
      have hnil : offsets = [] := by
        rw [← List.length_eq_zero_iff, hcount, List.length_eq_zero_iff, markedEachTime,
          List.filter_eq_nil_iff]
        exact fun n hn => by rw [hnone n hn]; exact Bool.false_ne_true
      rw [hnil, withMarks_nil] at htext
      exact String.toList_inj.mp htext
  · rw [hcount]
    exact length_iterate_annotate hroot henv hds

end Runs

/-- A string that is returned by reference, over a table with the type of strings. -/
theorem decisions_reference :
    ∃ T root env ds, loadUnit "class A{ref string S=>ref x;}" [] = .ok root
      ∧ Environment.ofUnit T root = .ok env ∧ env.decisions {} = .ok ds
      ∧ (env.annotatedBy ds).fullText = "#nullable enable annotations\nclass A{ref string? S=>ref x;}"
      ∧ (markedEachTime root.sites ds).length = 1 := by
  have hread : ((loadUnit "class A{ref string S=>ref x;}" []).toOption.bind fun root =>
      (Environment.ofUnit (.ofList [{ name := "String", special := some .string }])
        root).toOption.bind fun env => (env.decisions {}).toOption.map fun ds =>
          ((env.annotatedBy ds).fullText, (markedEachTime root.sites ds).length))
      = some ("#nullable enable annotations\nclass A{ref string? S=>ref x;}", 1) := by
    decide +kernel
  obtain ⟨root, hroot, hread⟩ := Option.bind_eq_some_iff.mp hread
  obtain ⟨env, henv, hread⟩ := Option.bind_eq_some_iff.mp hread
  obtain ⟨ds, hds, hread⟩ := Option.map_eq_some_iff.mp hread
  obtain ⟨htext, hcount⟩ := Prod.mk.inj hread
  exact ⟨_, root, env, ds, ok_of_toOption hroot, ok_of_toOption henv, ok_of_toOption hds, htext,
    hcount⟩

/-- It gets one more mark in each of three further runs. -/
theorem annotate_again_reference :
    ∃ T last, annotate T [] {} "class A{ref string S=>ref x;}"
        = .ok "#nullable enable annotations\nclass A{ref string? S=>ref x;}"
      ∧ (· >>= annotate T [] {})^[3]
        (.ok "#nullable enable annotations\nclass A{ref string? S=>ref x;}") = .ok last
      ∧ last.length = "#nullable enable annotations\nclass A{ref string? S=>ref x;}".length + 3 := by
  obtain ⟨T, root, env, ds, hroot, henv, hds, htext, hcount⟩ := decisions_reference
  have hannotate := annotate_of_ok hroot henv hds
  rw [htext] at hannotate
  obtain ⟨root', env', ds', next, offsets, hroot', henv', hds', -, -, -, hlength, hruns⟩ :=
    annotate_again hannotate
  obtain rfl := Except.ok.inj (hroot.symm.trans hroot')
  obtain rfl := Except.ok.inj (henv.symm.trans henv')
  obtain rfl := Except.ok.inj (hds.symm.trans hds')
  obtain ⟨last, hlast, hlast'⟩ := hruns 3
  rw [hlength, ← markedEachTime, hcount] at hlast'
  exact ⟨T, last, hannotate, hlast, hlast'⟩

/-- The next run over it does not give the same text. -/
theorem annotated_reference_again :
    ∃ T next, annotate T [] {} "class A{ref string S=>ref x;}"
        = .ok "#nullable enable annotations\nclass A{ref string? S=>ref x;}"
      ∧ annotate T [] {} "#nullable enable annotations\nclass A{ref string? S=>ref x;}" = .ok next
      ∧ next ≠ "#nullable enable annotations\nclass A{ref string? S=>ref x;}" := by
  obtain ⟨T, root, env, ds, hroot, henv, hds, htext, hcount⟩ := decisions_reference
  obtain ⟨root', env', ds', offsets, hroot', henv', hds', -, hlength, hoffsets, -⟩ :=
    annotate_reread hroot henv hds
  have hannotate := annotate_of_ok hroot henv hds
  rw [htext] at hannotate hroot' hlength
  refine ⟨T, _, hannotate, annotate_of_ok hroot' henv' hds', ?_⟩
  intro hsame
  rw [hsame, hoffsets, hcount] at hlength
  exact absurd hlength (Nat.succ_ne_self _).symm

end NullableMarker
