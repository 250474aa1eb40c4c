import NullableMarker.Proofs.ExactOutput

/-!
# Offsets stand for declarations

A verdict is filed under the offset that its declaration starts at, and found again by the offset of
the declaration that is visited. The declarations that are judged are those of the tree, each once
and in order, and their offsets increase; so no verdict takes the place of another, and the one that
is found was given for that very declaration.

* `kind_of_mem_sitesOf` — a site is judged as what it is
* `verdictsOf_eq_zip` — the table has one entry for each declaration
* `sites_identified_by_offset` — the sites of every source that is read, their offsets and verdicts
-/

namespace NullableMarker

/-- The kind of the nodes that are judged as a kind of declaration. -/
def SiteKind.nodeKind : SiteKind → NodeKind
  | property => .property
  | field => .field
  | parameter => .parameter

/-! ## Kinds of sites -/

theorem Tree.kind_of_isNode {t : Tree} {k : NodeKind} (h : t.isNode (· == k) = true) :
    t.kind? = some k := by
  cases t with
  | token s => cases h
  | node l cs =>
    rw [isNode_node, beq_iff_eq] at h
    rw [Tree.kind?, h]

theorem ScopedNode.kind_of_mem_ownSite {s : ScopedNode} {site : Site} (h : site ∈ s.ownSite) :
    site.node.kind? = some site.kind.nodeKind := by
  unfold ownSite at h
  split at h
  · next hk =>
    rw [List.mem_singleton] at h
    subst h
    exact Tree.kind_of_isNode hk
  · split at h
    · next hk =>
      rw [List.mem_singleton] at h
      subst h
      exact Tree.kind_of_isNode hk
    · cases h

theorem ScopedNode.kind_of_mem_parameterSites {s : ScopedNode} {site : Site}
    (h : site ∈ s.parameterSites) : site.node.kind? = some site.kind.nodeKind := by
  unfold parameterSites at h
  split at h
  · cases h
  · obtain ⟨n, hn, rfl⟩ := List.mem_map.mp h
    cases hlist : s.node.parameterList? with
    | none =>
      rw [hlist] at hn
      cases hn
    | some list =>
      rw [hlist] at hn
      exact Tree.kind_of_isNode (List.mem_filter.mp hn).2

/-- A site is judged as what its node is. -/
theorem kind_of_mem_sitesOf {nodes : List ScopedNode} {site : Site} (h : site ∈ sitesOf nodes) :
    site.node.kind? = some site.kind.nodeKind := by
  obtain ⟨s, -, hs⟩ := List.mem_flatMap.mp h
  rcases List.mem_append.mp hs with hs | hs
  · exact s.kind_of_mem_ownSite hs
  · exact s.kind_of_mem_parameterSites hs

/-! ## The table of verdicts -/

theorem map_eq_of_forall₂ {α β γ : Type} {R : α → β → Prop} {f : α → γ} {g : β → γ} {as : List α}
    {bs : List β} (h : List.Forall₂ R as bs) (hfg : ∀ a b, R a b → g b = f a) :
    bs.map g = as.map f := by
  induction h with
  | nil => rfl
  | cons hab _ ih => rw [List.map_cons, List.map_cons, hfg _ _ hab, ih]

theorem filterMap_verdict? {ds : List Decision} {offsets : List Nat}
    (h : ds.map (·.offset) = offsets.map some) :
    ds.filterMap Decision.verdict? = offsets.zip (ds.map (·.optional)) := by
  induction ds generalizing offsets with
  | nil =>
    cases offsets with
    | nil => rfl
    | cons n offsets => cases h
  | cons d ds ih =>
    cases offsets with
    | nil => cases h
    | cons n offsets =>
      obtain ⟨hd, hrest⟩ := List.cons.inj h
      have hd : d.offset = some n := hd
      rw [List.filterMap_cons, Decision.verdict?, hd, Option.map_some, ih hrest]
      rfl

/-- The table has one entry for each decision, in order, if their offsets differ. -/
theorem verdictsOf_eq_zip {ds : List Decision} {offsets : List Nat}
    (h : ds.map (·.offset) = offsets.map some) (hnodup : offsets.Nodup) :
    verdictsOf ds = offsets.zip (ds.map (·.optional)) := by
  have hoffsets : ds.filterMap (·.offset) = offsets := by
    have hid : (ds.map (·.offset)).filterMap id = ds.filterMap (·.offset) := by
      rw [List.filterMap_map]
      rfl
    rw [← hid, h, List.filterMap_map]
    simp
  rw [verdictsOf_eq (by rw [hoffsets]; exact hnodup), filterMap_verdict? h]

/-! ## Declarations and their offsets -/

/-- The sites of a source are the properties, fields and parameters of its tree, each once and in
the order of its nodes, judged as what they are. Their offsets increase, so that the table of verdicts
has exactly one entry for each, and the verdict found at the offset of a site is the decision that was
made for it. -/
theorem sites_identified_by_offset {source : String} {defined : List String} {root : Tree}
    (hroot : parseUnit source defined = .ok root ∨ parseFragment source defined = .ok root)
    {references : SymbolTable} {origin : String} {env : Environment}
    (henv : Environment.ofTree references origin root = .ok env) :
    env.sites.map (·.node) = root.nodes.filter (·.isNode NodeKind.isSite)
      ∧ (∀ s ∈ env.sites, s.node.kind? = some s.kind.nodeKind)
      ∧ ∃ offsets : List Nat, env.sites.map (·.offset?) = offsets.map some
        ∧ offsets.Pairwise (· < ·)
        ∧ ∀ p ds, env.decisions p = .ok ds →
          verdictsOf ds = offsets.zip (ds.map (·.optional)) ∧ ds.length = offsets.length
          ∧ List.Forall₂ (fun s d => d.kind = s.kind ∧ d.name = s.name ∧ d.offset = s.offset?
            ∧ (verdictsOf ds).isOptional s.node.offset? = d.optional) env.sites ds := by
  have htree : root.IsTreeOf source := by
    rcases hroot with h | h
    · exact (Tree.isUnitOf_of_parseUnit h).toIsTreeOf
    · exact Tree.isTreeOf_of_parseFragment h
  have hnodes := Environment.node_sites htree henv
  have hoffsets : env.sites.map (·.offset?) = (root.sites.filterMap (·.offset?)).map some := by
    rw [← map_eq_map_some htree.exists_offset, ← hnodes, List.map_map]
    rfl
  have hincreasing := offsets_increasing htree.sites_startsBefore
  refine ⟨hnodes, fun s hs => kind_of_mem_sitesOf hs, _, hoffsets, hincreasing, ?_⟩
  intro p ds hds
  have hjudged := Environment.forall₂_decisions hds
  have hmap : ds.map (·.offset) = env.sites.map (·.offset?) :=
    map_eq_of_forall₂ hjudged fun s d h => h.2.2.1
  refine ⟨?_, ?_, ?_⟩
  · exact verdictsOf_eq_zip (hmap.trans hoffsets) (hincreasing.imp Nat.ne_of_lt)
  · have hlen := congrArg List.length (hmap.trans hoffsets)
    rwa [List.length_map, List.length_map] at hlen
  · -- the verdict is looked up by the node, the decision is made for the site
    have hfound := forall₂_isOptional htree (Environment.forall₂_sites htree henv hds)
    rw [← hnodes, List.forall₂_map_left_iff] at hfound
    rw [List.forall₂_iff_get] at hjudged hfound ⊢
    refine ⟨hjudged.1, fun i h₁ h₂ => ?_⟩
    obtain ⟨hkind, hname, hoffset, -⟩ := hjudged.2 i h₁ h₂
    exact ⟨hkind, hname, hoffset, hfound.2 i h₁ h₂⟩

theorem sites_identified_in_class :
    ∃ root env, parseUnit "class A{A a;A b;}" [] = .ok root
      ∧ Environment.ofTree {} "source" root = .ok env
      ∧ env.sites.map (·.node) = root.nodes.filter (·.isNode NodeKind.isSite)
      ∧ env.sites.map (·.offset?) = [some 8, some 12] := by
  have hoffsets : ((parseUnit "class A{A a;A b;}" []).toOption.bind
      fun root => (Environment.ofTree {} "source" root).toOption.map
        fun env => env.sites.map (·.offset?)) = some [some 8, some 12] := by
    decide +kernel
  cases hroot : parseUnit "class A{A a;A b;}" [] with
  | error e => rw [hroot] at hoffsets; cases hoffsets
  | ok root =>
    rw [hroot] at hoffsets
    obtain ⟨env, henv, hfound⟩ := Option.map_eq_some_iff.mp hoffsets
    cases hopen : Environment.ofTree {} "source" root with
    | error e => rw [hopen] at henv; cases henv
    | ok env' =>
      rw [hopen] at henv
      cases henv
      exact ⟨root, env, rfl, hopen, (sites_identified_by_offset (.inl hroot) hopen).1, hfound⟩

end NullableMarker
