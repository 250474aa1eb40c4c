import NullableMarker.CommandLine
import NullableMarker.Proofs.CachedTables
import NullableMarker.Proofs.SiteOffsets
import NullableMarker.Proofs.StableDecisions

/-!
# How many declarations are announced

The list of decisions ends with the number of declarations that are decided to be optional. Marking
puts marks on those of them that have a type without a mark, so as many marks are put in as are
announced exactly if all of them have such a type.

* `Tree.markCount_eq` — the number of marks is that of the declarations that are marked
* `optionalSites` — the declarations that are decided to be optional
* `announced_count` — what is announced, and how many marks are put in
* `announced_after_marking` — marking takes nothing from the number
-/

namespace NullableMarker

/-! ## Counting marks -/

namespace Tree

mutual

/-- A mark is put in for each declaration that is marked. -/
theorem markCount_eq (v : Verdicts) : (t : Tree) → t.markCount v = (marked v t.sites).length
  | token t => by rw [markCount, sites_token]; rfl
  | node kind children => by
    rw [markCount, markCountAll_eq v children, sites_node]
    cases kind.isSite with
    | false => exact Nat.zero_add _
    | true =>
      show _ = (marked v (node kind children :: sitesAll children)).length
      rw [Bool.true_and, marked, marked, List.filter_cons]
      split
      · rw [List.length_cons, Nat.add_comm]
      · rw [Nat.zero_add]

theorem markCountAll_eq (v : Verdicts) : (ts : List Tree) →
    markCountAll v ts = (marked v (sitesAll ts)).length
  | [] => by rw [markCountAll, sitesAll_nil]; rfl
  | t :: ts => by
    rw [markCountAll, markCount_eq v t, markCountAll_eq v ts, sitesAll_cons, marked, marked, marked,
      List.filter_append, List.length_append]

end

end Tree

/-- The declarations that are decided to be optional, given the decisions for all. -/
def optionalSites (sites : List Tree) (ds : List Decision) : List Tree :=
  ((sites.zip ds).filter (·.2.optional)).map (·.1)

theorem length_filter_eq_countP_map {α : Type} (p : α → Bool) (l : List α) :
    (l.filter p).length = (l.map p).countP id := by
  rw [← List.countP_eq_length_filter, List.countP_map]
  rfl

theorem length_optionalSites {sites : List Tree} {ds : List Decision}
    (h : sites.length = ds.length) :
    (optionalSites sites ds).length = (ds.filter (·.optional)).length := by
  have hds : (sites.zip ds).map (·.2) = ds := List.map_snd_zip (Nat.le_of_eq h.symm)
  rw [optionalSites, List.length_map, length_filter_eq_countP_map, length_filter_eq_countP_map]
  conv_rhs => rw [← hds, List.map_map]
  rfl

/-- Those of them are marked that have a type without a mark. -/
theorem toMark_eq_filter (sites : List Tree) (ds : List Decision) :
    toMark sites ds = (optionalSites sites ds).filter (·.needsMark) := by
  rw [toMark, optionalSites, List.filter_map, List.filter_filter]
  congr 2
  funext x
  exact Bool.and_comm _ _

/-! ## The command -/

theorem Run.run_bind {α β : Type} (m : Run α) (f : α → Run β) (s : Session) :
    (m >>= f).run.run s = match m.run.run s with
      | (.ok a, s') => (f a).run.run s'
      | (.error e, s') => (.error e, s') := by
  rw [ExceptT.run_bind, StateT.run_bind]
  generalize m.run.run s = result
  obtain ⟨result, s'⟩ := result
  cases result <;> rfl

theorem Run.run_tryCatch {α : Type} (m : Run α) (handle : WorkError → Run α) (s : Session) :
    (tryCatch m handle).run.run s = match m.run.run s with
      | (.ok a, s') => (.ok a, s')
      | (.error e, s') => (handle e).run.run s' := by
  show (ExceptT.tryCatch m handle).run.run s = _
  rw [ExceptT.tryCatch, ExceptT.run_mk, StateT.run_bind]
  show (StateT.run m s >>= _) = match StateT.run m s with | (.ok a, s') => _ | (.error e, s') => _
  generalize StateT.run m s = result
  obtain ⟨result, s'⟩ := result
  cases result <;> rfl

theorem Run.run_work {α : Type} (m : Work α) (s : Session) : (Run.work m).run.run s
    = ((m.run.run s.workspace).1, { s with workspace := (m.run.run s.workspace).2 }) := rfl

namespace CommandLine

theorem getLast?_decisionOutput (ds : List Decision) : (decisionOutput ds).lines.getLast?
    = some s!"{(ds.filter (·.optional)).length} declarations to annotate" := by
  rw [decisionOutput, List.getLast?_append]
  rfl

/-- The decisions for a file that is read, over references that are read. -/
theorem decisionsFor_run {paths names : List String} {defined : List (Option String)}
    {file source : String} {root : Tree} {references : SymbolTable} {env : Environment}
    {ds : List Decision} {w w' : Workspace} (hsource : w.files.readSource file = .ok source)
    (hnames : defined.mapM id = some names) (hroot : loadUnit source names = .ok root)
    (htable : (Work.referenceTable paths names).run.run w = (.ok references, w'))
    (henv : Environment.ofUnit references root = .ok env) (hds : env.decisions {} = .ok ds) :
    ∃ w'', (decisionsFor paths defined file).run.run w = (.ok ds, w'') := by
  obtain ⟨⟨ds', resolution⟩, hjudged, rfl⟩ := ok_of_map hds
  have hread : (Work.readSource file).run.run w = (.ok source, w) := by
    show ((w.files.readSource file).mapError WorkError.file, w) = _
    rw [hsource]
    rfl
  have hnamed : (Work.named defined).run.run w = (.ok names, w) := by
    rw [Work.named, hnames]
    rfl
  have henvironment : (Work.environment paths names source).run.run w = (.ok env, w') := by
    rw [Work.environment, hroot]
    show (Work.environmentOf paths names root).run.run w = _
    rw [Work.environmentOf, Work.run_bind, htable]
    show ((Environment.ofUnit references root).mapError WorkError.reference, w') = _
    rw [henv]
    rfl
  have hjudge : (Work.judge {} env).run.run w'
      = (.ok ds', { w' with log := w'.log ++ resolution.remarks.map (⟨.debug, ·⟩) }) := by
    rw [Work.judge, hjudged]
    rfl
  rw [decisionsFor, Work.run_bind, hread]
  dsimp only
  rw [Work.run_bind, hnamed]
  dsimp only
  rw [Work.run_bind, henvironment]
  exact ⟨_, hjudge⟩

/-- The command to list decisions comes to read a source, with some symbols defined and over the
types of some references. -/
def Reads (program g : Given) (s : Session) (source : String) (names : List String)
    (references : SymbolTable) : Prop :=
  ∃ config s₁ paths defined s₂ w, (settingsOf program).run.run s = (.ok config, s₁)
    ∧ (resolutionOf config g).run.run s₁ = (.ok (paths, defined), s₂)
    ∧ s₂.workspace.files.readSource (g.words.headD "") = .ok source
    ∧ defined.mapM id = some names
    ∧ (Work.referenceTable paths names).run.run s₂.workspace = (.ok references, w)

/-- The list of decisions for a source that is read. -/
theorem analyze_run {program g : Given} {s : Session} {names : List String} {source : String}
    {root : Tree} {references : SymbolTable} {env : Environment} {ds : List Decision}
    (hreads : Reads program g s source names references) (hroot : loadUnit source names = .ok root)
    (henv : Environment.ofUnit references root = .ok env) (hds : env.decisions {} = .ok ds) :
    ∃ s', (analyze program g).run.run s = (.ok (decisionOutput ds), s') := by
  obtain ⟨config, s₁, paths, defined, s₂, w, hconfig, hresolution, hsource, hnames, htable⟩ :=
    hreads
  obtain ⟨w', hdecisions⟩ := decisionsFor_run hsource hnames hroot htable henv hds
  refine ⟨{ s₂ with workspace := w' }, ?_⟩
  unfold analyze
  rw [Run.run_bind, hconfig]
  dsimp only
  rw [Run.run_bind, hresolution]
  dsimp only
  rw [Run.run_bind, Run.run_tryCatch, Run.run_bind, Run.run_work, hdecisions]
  rfl

end CommandLine

/-! ## What is announced -/

/-- As many marks are put in as there are declarations among the optional ones that need one, and
the number that is announced counts all of the optional ones. -/
theorem counts_of_decisions {references : SymbolTable} {names : List String} {source : String}
    {root : Tree} {env : Environment} {ds : List Decision}
    (hroot : loadUnit source names = .ok root)
    (henv : Environment.ofUnit references root = .ok env) (hds : env.decisions {} = .ok ds) :
    root.markCount (verdictsOf ds) = ((optionalSites root.sites ds).filter (·.needsMark)).length
      ∧ (CommandLine.decisionOutput ds).lines.getLast?
        = some s!"{(optionalSites root.sites ds).length} declarations to annotate" := by
  have hunit : root.IsUnitOf (withoutOrderMark source) := Tree.isUnitOf_of_parseUnit hroot
  have hsites := Environment.forall₂_sites hunit.toIsTreeOf henv hds
  constructor
  · rw [Tree.markCount_eq, marked_verdictsOf hunit hsites, toMark_eq_filter]
  · rw [CommandLine.getLast?_decisionOutput, length_optionalSites hsites.length_eq]

/-- The list of decisions for a source ends with the number of declarations that are decided to be
optional. Marking puts in as many marks as there are declarations among them that have a type
without a mark; so the numbers are the same exactly if all of them have such a type. -/
theorem announced_count {references : SymbolTable} {names : List String} {source : String}
    {root : Tree} {env : Environment} {ds : List Decision}
    (hroot : loadUnit source names = .ok root)
    (henv : Environment.ofUnit references root = .ok env) (hds : env.decisions {} = .ok ds) :
    (∀ program g s, CommandLine.Reads program g s source names references →
      ∃ o s', (CommandLine.analyze program g).run.run s = (.ok o, s')
        ∧ o.lines.getLast?
          = some s!"{(optionalSites root.sites ds).length} declarations to annotate")
      ∧ root.markCount (verdictsOf ds) = ((optionalSites root.sites ds).filter (·.needsMark)).length
      ∧ ((optionalSites root.sites ds).length = root.markCount (verdictsOf ds)
        ↔ ∀ n ∈ optionalSites root.sites ds, n.needsMark = true) := by
  obtain ⟨hcount, hlast⟩ := counts_of_decisions hroot henv hds
  refine ⟨?_, hcount, ?_⟩
  · intro program g s hreads
    obtain ⟨s', hrun⟩ := CommandLine.analyze_run hreads hroot henv hds
    exact ⟨_, s', hrun, hlast⟩
  · rw [hcount, eq_comm, List.length_filter_eq_length_iff]

/-- Two optional declarations, over the default types or none, one of them with a mark of its own. -/
theorem decisions_equals {T : SymbolTable} (hT : T = Defaults.table ∨ T = {}) :
    ∃ root env ds, loadUnit "class A{bool Equals(A? o);bool Equals(A o);}" [] = .ok root
      ∧ Environment.ofUnit T root = .ok env ∧ env.decisions {} = .ok ds
      ∧ (optionalSites root.sites ds).length = 2
      ∧ ((optionalSites root.sites ds).filter (·.needsMark)).length = 1 := by
  have hrun : ((loadUnit "class A{bool Equals(A? o);bool Equals(A o);}" []).toOption.bind
      fun root => (Environment.ofUnit T root).toOption.bind fun env =>
        (env.decisions {}).toOption.map fun ds => ((optionalSites root.sites ds).length,
          ((optionalSites root.sites ds).filter (·.needsMark)).length)) = some (2, 1) := by
    rcases hT with rfl | rfl
    · decide +kernel
    · decide +kernel
  obtain ⟨root, hroot, hrun⟩ := Option.bind_eq_some_iff.mp hrun
  obtain ⟨env, henv, hrun⟩ := Option.bind_eq_some_iff.mp hrun
  obtain ⟨ds, hds, hrun⟩ := Option.map_eq_some_iff.mp hrun
  obtain ⟨hlength, hneeds⟩ := Prod.mk.inj hrun
  exact ⟨root, env, ds, ok_of_toOption hroot, ok_of_toOption henv, ok_of_toOption hds, hlength,
    hneeds⟩

theorem announced_count_equals :
    ∃ o s' root env ds, (CommandLine.analyze {} { words := ["A.cs"] }).run.run
        { workspace := .ofSources [("A.cs", "class A{bool Equals(A? o);bool Equals(A o);}")],
          settings := some (0, {}) } = (.ok o, s')
      ∧ o.lines.getLast? = some "2 declarations to annotate"
      ∧ loadUnit "class A{bool Equals(A? o);bool Equals(A o);}" [] = .ok root
      ∧ Environment.ofUnit Defaults.table root = .ok env ∧ env.decisions {} = .ok ds
      ∧ root.markCount (verdictsOf ds) = 1 := by
  obtain ⟨root, env, ds, hroot, henv, hds, hlength, hneeds⟩ := decisions_equals (.inl rfl)
  obtain ⟨hprinted, hcount, -⟩ := announced_count hroot henv hds
  obtain ⟨o, s', hrun, hlast⟩ := hprinted {} { words := ["A.cs"] }
    { workspace := .ofSources [("A.cs", "class A{bool Equals(A? o);bool Equals(A o);}")],
      settings := some (0, {}) }
    ⟨{}, _, [], [], _, _, rfl, rfl, by decide +kernel, rfl, rfl⟩
  rw [hlength] at hlast
  rw [hneeds] at hcount
  exact ⟨o, s', root, env, ds, hrun, hlast, hroot, henv, hds, hcount⟩

/-- A declaration with a mark of its own is announced, but no mark is put in for it. -/
theorem announced_though_marked :
    ∃ root env ds, loadUnit "class A{bool Equals(A? o);bool Equals(A o);}" [] = .ok root
      ∧ Environment.ofUnit {} root = .ok env ∧ env.decisions {} = .ok ds
      ∧ (CommandLine.decisionOutput ds).lines.getLast? = some "2 declarations to annotate"
      ∧ root.markCount (verdictsOf ds) = 1 := by
  obtain ⟨root, env, ds, hroot, henv, hds, hlength, hneeds⟩ := decisions_equals (.inr rfl)
  obtain ⟨hcount, hlast⟩ := counts_of_decisions hroot henv hds
  rw [hlength] at hlast
  rw [hneeds] at hcount
  exact ⟨root, env, ds, hroot, henv, hds, hlast, hcount⟩

/-- Marking takes nothing from the number that is announced. -/
theorem announced_after_marking {references : SymbolTable} {names : List String} {source : String}
    {root : Tree} {env : Environment} {ds : List Decision}
    (hroot : loadUnit source names = .ok root)
    (henv : Environment.ofUnit references root = .ok env) (hds : env.decisions {} = .ok ds) :
    ∃ root' env' ds', loadUnit (env.annotatedBy ds).fullText names = .ok root'
      ∧ Environment.ofUnit references root' = .ok env' ∧ env'.decisions {} = .ok ds'
      ∧ (CommandLine.decisionOutput ds').lines.getLast?
        = (CommandLine.decisionOutput ds).lines.getLast? := by
  obtain ⟨w, env', ds', hload', henv', hds', hmoved, -⟩ := exists_reread (p := {}) (by decide) hroot
    henv hds
  refine ⟨w.tree root, env', ds', hload', henv', hds', ?_⟩
  have hoptional : ds'.map (·.optional) = ds.map (·.optional) :=
    map_eq_of_forall₂ hmoved fun _ _ h => h.optional
  rw [CommandLine.getLast?_decisionOutput, CommandLine.getLast?_decisionOutput,
    length_filter_eq_countP_map, hoptional, ← length_filter_eq_countP_map]

end NullableMarker
