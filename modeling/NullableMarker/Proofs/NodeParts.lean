import NullableMarker.Proofs.UnitForms
import NullableMarker.Tree.View

/-!
# Parts of nodes

Views of a tree ask some nodes for parts without allowing for their absence: the name of a namespace,
the last segment of a name, the identifier before type arguments, the first token of a declarator,
the type under a mark, the token of a keyword, the word that a type declaration starts with. A tree
that is read has all of them, wherever a reader started and whatever was tried before.

* `Tree.HasParts` — the parts of one node
* `Tree.hasParts_name` — a name made of dotted identifiers has its parts
* `Grammar.Derives.whole` — types and names are whole
-/

namespace NullableMarker

/-- The words that start the declaration of a type with members. -/
def declarationWords : List String := ["class", "struct", "interface", "record"]

/-- A kind of node that is asked for parts. -/
def NodeKind.needsParts : NodeKind → Bool
  | namespaceBlock | fileScopedNamespace | name | variableDeclarator | nullableType | refType
  | predefinedType | classType | structType | interfaceType | recordType => true
  | _ => false

namespace Tree

/-- The children of a name after its alias. -/
def dotted (t : Tree) : List Tree :=
  if t.aliasToken?.isSome then t.children.drop 2 else t.children

/-- The parts that a name is asked for are there. -/
structure NameParts (t : Tree) : Prop where
  segment : t.segments ≠ []
  /-- What stands before `::` is a token. -/
  qualifier : ∀ c mark rest, t.children = c :: token mark :: rest → mark.kind = .doubleColon →
    ∃ a, c = token a
  /-- Type arguments follow an identifier. -/
  arguments : ∀ before list after, t.dotted = before ++ list :: after →
    list.isNode (· == .typeArgumentList) = true →
    ∃ init id, before = init ++ [token id] ∧ id.kind = .identifier

/-- The parts that a node is asked for are there. -/
def HasParts (t : Tree) : Prop :=
  match t.kind? with
  | some .namespaceBlock | some .fileScopedNamespace => t.nameNode?.isSome = true
  | some .name => t.NameParts
  | some .variableDeclarator => t.childTokens ≠ []
  | some .nullableType | some .refType => t.type?.isSome = true
  | some .predefinedType => t.firstToken?.isSome = true
  | some .classType | some .structType | some .interfaceType | some .recordType =>
    ∃ word ∈ t.childTokens, word.value ∈ declarationWords
      ∧ t.kind? = some (Grammar.declarationKind word.value)
  | _ => True

/-- All nodes of the tree have their parts. -/
def Whole (t : Tree) : Prop := ∀ n ∈ t.nodes, n.HasParts

@[simp] theorem whole_token (t : Token) : (token t).Whole := by
  intro n hn
  simp at hn

theorem whole_node {k : NodeKind} {cs : List Tree} (hparts : (node k cs).HasParts)
    (hcs : ∀ c ∈ cs, c.Whole) : (node k cs).Whole := by
  intro n hn
  rw [nodes_node, List.mem_cons] at hn
  rcases hn with rfl | hn
  · exact hparts
  · obtain ⟨c, hc, hn⟩ := mem_nodesAll hn
    exact hcs c hc n hn

theorem hasParts_of_needsParts {k : NodeKind} (hk : k.needsParts = false) (cs : List Tree) :
    (node k cs).HasParts := by
  cases k with
  | namespaceBlock | fileScopedNamespace | name | variableDeclarator | nullableType | refType
  | predefinedType | classType | structType | interfaceType | recordType => cases hk
  | _ => exact trivial

theorem whole_of_needsParts {k : NodeKind} (hk : k.needsParts = false) {cs : List Tree}
    (hcs : ∀ c ∈ cs, c.Whole) : (node k cs).Whole :=
  whole_node (hasParts_of_needsParts hk cs) hcs

/-! ## Names -/

/-- What may follow an identifier of a name: nothing, or a list of type arguments. -/
def IsArguments (args : List Tree) : Prop := args = [] ∨ ∃ cs, args = [node .typeArgumentList cs]

/-- The children of a name after its alias: identifiers with their type arguments, and dots between
them. -/
inductive Dotted : List Tree → Prop
  | last {id : Token} {args : List Tree} (hid : id.kind = .identifier) (hargs : IsArguments args) :
      Dotted (token id :: args)
  | dot {id dot : Token} {args rest : List Tree} (hid : id.kind = .identifier)
      (hargs : IsArguments args) (hdot : dot.kind = .dot) (hrest : Dotted rest) :
      Dotted (token id :: (args ++ token dot :: rest))

namespace Dotted

theorem exists_head {cs : List Tree} (h : Dotted cs) :
    ∃ id rest, cs = token id :: rest ∧ id.kind = .identifier
      ∧ ∀ mark after, rest = token mark :: after → mark.kind = .dot := by
  cases h with
  | last hid hargs =>
    refine ⟨_, _, rfl, hid, ?_⟩
    rintro mark after rfl
    rcases hargs with hargs | ⟨cs, hargs⟩ <;> cases hargs
  | dot hid hargs hdot hrest =>
    refine ⟨_, _, rfl, hid, ?_⟩
    intro mark after hafter
    rcases hargs with rfl | ⟨cs, rfl⟩
    · cases hafter
      exact hdot
    · cases hafter

theorem segmentsOf_ne_nil {cs : List Tree} (h : Dotted cs) : segmentsOf cs ≠ [] := by
  obtain ⟨id, rest, rfl, hid, -⟩ := h.exists_head
  simp [segmentsOf, hid]

/-- Type arguments follow an identifier. -/
theorem arguments {cs : List Tree} (h : Dotted cs) {before : List Tree} {list : Tree}
    {after : List Tree} (hcs : cs = before ++ list :: after)
    (hlist : list.isNode (· == .typeArgumentList) = true) :
    ∃ init id, before = init ++ [token id] ∧ id.kind = .identifier := by
  have htoken : ∀ t : Token, list ≠ token t := by
    rintro t rfl
    cases hlist
  induction h generalizing before with
  | @last id args hid hargs =>
    cases before with
    | nil => exact absurd (List.cons.inj hcs).1.symm (htoken id)
    | cons c before =>
      obtain ⟨rfl, hrest⟩ := List.cons.inj hcs
      rcases hargs with rfl | ⟨ds, rfl⟩
      · simp at hrest
      · obtain ⟨rfl, -⟩ := List.singleton_eq_append_iff.mp hrest |>.resolve_right (by simp)
        exact ⟨[], id, rfl, hid⟩
  | @dot id dot args rest hid hargs hdot hrest ih =>
    -- what stands before the list when it comes after the dot
    have hlater : ∀ init before, token dot :: rest = before ++ list :: after →
        ∃ init' id', init ++ before = init' ++ [token id'] ∧ id'.kind = .identifier := by
      intro init before hbefore
      cases before with
      | nil => exact absurd (List.cons.inj hbefore).1.symm (htoken dot)
      | cons c before =>
        obtain ⟨rfl, hrest⟩ := List.cons.inj hbefore
        obtain ⟨init', id', rfl, hid'⟩ := ih hrest
        exact ⟨init ++ token dot :: init', id', by simp, hid'⟩
    cases before with
    | nil => exact absurd (List.cons.inj hcs).1.symm (htoken id)
    | cons c before =>
      obtain ⟨rfl, hbefore⟩ := List.cons.inj hcs
      rcases hargs with rfl | ⟨ds, rfl⟩
      · exact hlater [token id] before hbefore
      · cases before with
        | nil => exact ⟨[], id, rfl, hid⟩
        | cons c before =>
          obtain ⟨rfl, hrest⟩ := List.cons.inj hbefore
          exact hlater [token id, node .typeArgumentList ds] before hrest

end Dotted

/-- What may stand before the identifiers of a name: nothing, or an alias. -/
def IsQualifier (cs : List Tree) : Prop :=
  cs = [] ∨ ∃ a mark, cs = [token a, token mark] ∧ mark.kind = .doubleColon

theorem dotted_name {cs ds : List Tree} (hcs : IsQualifier cs) (hds : Dotted ds) :
    (node .name (cs ++ ds)).dotted = ds := by
  obtain ⟨id, rest, rfl, -, hmark⟩ := hds.exists_head
  rcases hcs with rfl | ⟨a, mark, rfl, hcolon⟩
  · have hnone : (node .name ([] ++ token id :: rest)).aliasToken? = none := by
      unfold aliasToken?
      split
      · next a mark after heq =>
        obtain ⟨-, hafter⟩ := List.cons.inj heq
        rw [hmark mark after hafter]
        rfl
      · rfl
    rw [dotted, hnone]
    rfl
  · simp [dotted, aliasToken?, children, hcolon]

theorem hasParts_name {cs ds : List Tree} (hcs : IsQualifier cs) (hds : Dotted ds) :
    (node .name (cs ++ ds)).HasParts := by
  have hparts : (node .name (cs ++ ds)).NameParts := by
    constructor
    · show segmentsOf (node .name (cs ++ ds)).dotted ≠ []
      rw [dotted_name hcs hds]
      exact hds.segmentsOf_ne_nil
    · intro c mark rest hchildren _
      obtain ⟨id, more, rfl, -⟩ := hds.exists_head
      rcases hcs with rfl | ⟨a, mark', rfl, -⟩
      · exact ⟨id, (List.cons.inj hchildren).1.symm⟩
      · exact ⟨a, (List.cons.inj hchildren).1.symm⟩
    · intro before list after hdotted hlist
      rw [dotted_name hcs hds] at hdotted
      exact hds.arguments hdotted hlist
  exact hparts

/-! ## Other nodes -/

theorem isSome_child? {p : NodeKind → Bool} {k : NodeKind} {cs : List Tree} {c : Tree} (hc : c ∈ cs)
    (hp : c.isNode p = true) : ((node k cs).child? p).isSome = true :=
  List.find?_isSome.mpr ⟨c, hc, hp⟩

theorem mem_childTokens {k : NodeKind} {cs : List Tree} {t : Token} (h : token t ∈ cs) :
    t ∈ (node k cs).childTokens := List.mem_filterMap.mpr ⟨token t, h, rfl⟩

theorem hasParts_namespace {k : NodeKind} (hk : k.isNamespace = true) {cs : List Tree} {name : Tree}
    (hname : name ∈ cs) (hkind : name.isNode (· == .name) = true) : (node k cs).HasParts := by
  have hparts : (node k cs).nameNode?.isSome = true := isSome_child? hname hkind
  cases k with
  | namespaceBlock => exact hparts
  | fileScopedNamespace => exact hparts
  | _ => cases hk

theorem hasParts_declarator {cs : List Tree} {t : Token} (h : token t ∈ cs) :
    (node .variableDeclarator cs).HasParts := List.ne_nil_of_mem (mem_childTokens h)

theorem hasParts_nullable {cs : List Tree} {type : Tree} (htype : type ∈ cs)
    (hkind : type.isNode NodeKind.isType = true) : (node .nullableType cs).HasParts :=
  isSome_child? htype hkind

theorem hasParts_ref {cs : List Tree} {type : Tree} (htype : type ∈ cs)
    (hkind : type.isNode NodeKind.isType = true) : (node .refType cs).HasParts :=
  isSome_child? htype hkind

theorem hasParts_declaration {word : Token} (hword : word.value ∈ declarationWords) {cs : List Tree}
    (hmem : token word ∈ cs) : (node (Grammar.declarationKind word.value) cs).HasParts := by
  have hdeclared : ∃ w ∈ (node (Grammar.declarationKind word.value) cs).childTokens,
      w.value ∈ declarationWords
        ∧ some (Grammar.declarationKind word.value) = some (Grammar.declarationKind w.value) :=
    ⟨word, mem_childTokens hmem, hword, rfl⟩
  simp only [declarationWords, List.mem_cons, List.not_mem_nil, or_false] at hword
  rcases hword with h | h | h | h <;> rw [h] at hdeclared ⊢ <;> exact hdeclared

end Tree

/-! ## Types -/

namespace Grammar

open NullableMarker.Tree

theorem reads_token (f : Token → Bool) : Reads Whole (expectThat f) := by
  intro ts p h
  obtain ⟨t, ht, -⟩ := expectThat_ok h
  rw [ht]
  exact whole_token t

theorem whole_ofGroup {ts : List Token} {kind : NodeKind} (hkind : kind.needsParts = false)
    (g : Group ts) : (Parsed.ofGroup kind g).tree.Whole := by
  rw [Parsed.tree_ofGroup]
  refine whole_of_needsParts hkind ?_
  simp

theorem adds_run {ts : List Token} (r : Begun ts) (s : Run r.rest) :
    r.Adds Whole (r.extend (.ofRun s)) := ⟨s.taken.map .token, rfl, by simp⟩

theorem adds_optionally {ts : List Token} (r : Begun ts) (f : Token → Bool) :
    r.Adds Whole (r.optional f) := adds_run r _

section Types

variable {phrase : Phrase} {cs : List Tree} {ts : List Token}

theorem Derives.isQualifier (h : Derives .qualifier cs) : IsQualifier cs := by
  cases h with
  | unqualified => exact .inl rfl
  | qualified _ hmark => exact .inr ⟨_, _, rfl, hmark⟩

theorem Derives.isArguments (h : Derives .arguments cs) : IsArguments cs := by
  cases h with
  | plain => exact .inl rfl
  | generic => exact .inr ⟨_, rfl⟩

theorem Derives.dotted_segments (h : Derives .segments cs) : Dotted cs := by
  generalize hphrase : Phrase.segments = phrase at h
  induction h with
  | segment hid harguments => exact .last hid harguments.isArguments
  | dotted hid harguments hdot _ _ ih => exact .dot hid harguments.isArguments hdot (ih rfl)
  | _ => cases hphrase

/-- All nodes of a type have their parts. -/
theorem Derives.whole (h : Derives phrase cs) : ∀ c ∈ cs, c.Whole := by
  induction h with
  | ref _ _ htype ih =>
    refine List.forall_mem_singleton.mpr (whole_node (hasParts_ref ?_ htype.isType.isType) ?_)
    · exact List.mem_append_right _ List.mem_cons_self
    · simpa [or_imp, forall_and] using ih
  | predefined =>
    refine List.forall_mem_singleton.mpr (whole_node ?_ (by simp))
    show (Tree.firstToken? _).isSome = true
    rw [firstToken?_eq]
    simp
  | name hqualifier hsegments ihqualifier ih =>
    refine List.forall_mem_singleton.mpr (whole_node ?_ ?_)
    · exact hasParts_name hqualifier.isQualifier hsegments.dotted_segments
    · exact fun c hc => (List.mem_append.mp hc).elim (ihqualifier c) (ih c)
  | nullable htype _ ih =>
    refine List.forall_mem_singleton.mpr (whole_node ?_ (by simpa using ih))
    exact hasParts_nullable List.mem_cons_self htype.isType.isType
  | tuple _ _ _ ih | generic _ _ _ ih =>
    refine List.forall_mem_singleton.mpr (whole_of_needsParts rfl ?_)
    simpa [or_imp, forall_and] using ih
  | array _ _ _ ih | pointer _ _ ih | element _ _ ih =>
    exact List.forall_mem_singleton.mpr (whole_of_needsParts rfl (by simpa using ih))
  | unqualified | plain | qualified => simp
  | segment _ _ ih => simpa using ih
  | dotted _ _ _ _ iharguments ih => simpa [or_imp, forall_and] using ⟨iharguments, ih⟩
  | last _ ih => exact ih
  | more _ _ _ ihitem ih => simpa using ⟨by simpa using ihitem, ih⟩

theorem type_whole {p : Parsed ts} (h : type ts = .ok p) : p.tree.Whole :=
  (type_derives h).whole _ List.mem_cons_self

theorem reads_type : Reads Whole type := fun _ _ h => type_whole h

/-- A name, with all its segments or some. -/
theorem nameSegments_whole {limit : Option Nat} {p : Parsed ts}
    (h : nameSegments (aliasQualifier ts) limit = .ok p) :
    p.tree.isNode (· == .name) = true ∧ p.tree.Whole := by
  obtain ⟨hname, hkind⟩ := name_derives h
  exact ⟨hkind, hname.whole _ List.mem_cons_self⟩

end Types

end Grammar

end NullableMarker
