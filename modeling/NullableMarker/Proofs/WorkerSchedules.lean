import NullableMarker.Proofs.FileRuns

/-!
# Schedules of workers

Workers annotate files in any order, and are seen to be done in any other. As long as no two paths
lead to one file, this makes no difference: each file is found as it was at the start, and is
written once, unless it is the order of the writes that decides which of them fail. A path that is
named twice has one result, though, where it has two when files are annotated one after another.

* `Work.annotateBySchedule` — annotating files by workers that follow a schedule
* `Work.annotateByWorkers_eq` — workers that do their tasks in order
* `Work.annotateBySchedule_alike` — the schedule makes no difference
* `Work.annotateByWorkers_repeated` — a path that is named twice
-/

namespace NullableMarker

/-! ## Schedules -/

/-- The order in which workers do a number of tasks, and the order in which these are seen to be
done. -/
structure Schedule (n : Nat) where
  running : List (Fin n)
  completing : List (Fin n)
  running_perm : running.Perm (List.finRange n)
  completing_perm : completing.Perm (List.finRange n)

/-- Tasks are done and seen to be done in their order. -/
def Schedule.inOrder (n : Nat) : Schedule n where
  running := List.finRange n
  completing := List.finRange n
  running_perm := .refl _
  completing_perm := .refl _

namespace Schedule

variable {n : Nat} (s : Schedule n)

theorem mem_running (i : Fin n) : i ∈ s.running := s.running_perm.mem_iff.mpr (List.mem_finRange i)

theorem mem_completing (i : Fin n) : i ∈ s.completing :=
  s.completing_perm.mem_iff.mpr (List.mem_finRange i)

/-- The outcomes of the tasks, which are given as they run, as they are seen to be done. -/
def collect {α : Type} (outcomes : List α) : List α :=
  s.completing.filterMap fun i => (s.running.zip outcomes).lookup i

theorem lookup_zip_map {α β : Type} [BEq α] [LawfulBEq α] {a : α} {as : List α} (f : α → β)
    (ha : a ∈ as) : (as.zip (as.map f)).lookup a = some (f a) := by
  induction as with
  | nil => cases ha
  | cons b as ih =>
    rw [List.map_cons, List.zip_cons_cons, List.lookup_cons]
    by_cases hab : a = b
    · rw [hab, beq_self_eq_true]
    · rw [beq_false_of_ne hab]
      exact ih ((List.mem_cons.mp ha).resolve_left hab)

/-- Each task has the outcome that it had when it ran. -/
theorem collect_map {α : Type} (f : Fin n → α) :
    s.collect (s.running.map f) = s.completing.map f := by
  have hfound : ∀ i ∈ s.completing,
      (s.running.zip (s.running.map f)).lookup i = (some ∘ f) i :=
    fun i _ => lookup_zip_map f (s.mem_running i)
  rw [collect, List.filterMap_congr hfound, List.filterMap_eq_map]

theorem collect_inOrder {α : Type} {outcomes : List α} (h : outcomes.length = n) :
    (inOrder n).collect outcomes = outcomes := by
  subst h
  have hcollect := (inOrder outcomes.length).collect_map outcomes.get
  have hrunning : (inOrder outcomes.length).running.map outcomes.get = outcomes :=
    List.map_get_finRange outcomes
  rw [hrunning] at hcollect
  exact hcollect.trans hrunning

end Schedule

namespace Work

/-- Annotates files by workers that follow a schedule. -/
def annotateBySchedule (o : Options) (paths : List String) (s : Schedule paths.length) :
    Work (List FileResult) := do
  let outcomes ← s.running.mapM fun i => detached (annotateFile o (paths.get i))
  let results ← (s.collect outcomes).mapM (ofExcept errorOfWorker)
  return paths.filterMap (lastResult results)

theorem run_detached {α : Type} (m : Work α) (w : Workspace) : (detached m).run.run w
    = (.ok (m.run.run w).1, { w with files := (m.run.run w).2.files }) := rfl

/-- Workers do all their tasks, also when one fails. -/
theorem run_mapM_detached {α β : Type} (f : α → Work β) (xs : List α) (w : Workspace) :
    ∃ outcomes w', (xs.mapM fun x => detached (f x)).run.run w = (.ok outcomes, w')
      ∧ outcomes.length = xs.length := by
  induction xs generalizing w with
  | nil => exact ⟨[], w, rfl, rfl⟩
  | cons x xs ih =>
    obtain ⟨outcomes, w', hrun, hlength⟩ := ih { w with files := ((f x).run.run w).2.files }
    refine ⟨((f x).run.run w).1 :: outcomes, w', ?_, congrArg Nat.succ hlength⟩
    rw [List.mapM_cons, run_bind, run_detached]
    dsimp only
    rw [run_bind, hrun]
    rfl

/-- Workers that do their tasks in order follow a schedule. -/
theorem annotateByWorkers_eq (o : Options) (paths : List String) :
    annotateByWorkers o paths = annotateBySchedule o paths (.inOrder paths.length) := by
  have htasks : (Schedule.inOrder paths.length).running.mapM
      (fun i => detached (annotateFile o (paths.get i)))
      = paths.mapM fun path => detached (annotateFile o path) := by
    conv_rhs => rw [← List.map_get_finRange paths, List.mapM_map]
    rfl
  unfold annotateByWorkers annotateBySchedule
  rw [htasks]
  refine ExceptT.ext (StateT.ext fun w => ?_)
  obtain ⟨outcomes, w', hrun, hlength⟩ := run_mapM_detached (annotateFile o) paths w
  rw [run_bind, run_bind, hrun]
  dsimp only
  rw [Schedule.collect_inOrder hlength]

end Work

/-! ## Writes that go alike at all times -/

namespace FileSystem

variable {fs fs' : FileSystem}

/-- Whether writing a file at one of the paths fails, and how, does not depend on when it is
written. -/
def Steady (fs : FileSystem) (paths : List String) : Prop :=
  ∀ path ∈ paths, ∀ location, fs.locate (Path.ofString path).text = .ok location →
    ∀ n m, fs.host.writing location n = fs.host.writing location m

/-- The same files with the same contents, whenever they were written. -/
structure SameContents (fs fs' : FileSystem) : Prop where
  shape : fs.SameShape fs'
  contents : ∀ path, (fs'.fileAt path).map (·.content) = (fs.fileAt path).map (·.content)

theorem SameShape.fileAt_of_locate_eq {start : FileSystem} (h : start.SameShape fs)
    {path path' : String} (hsame : start.locate path = start.locate path') {f : File}
    (hf : fs.fileAt path' = .ok f) : fs.fileAt path = .ok f := by
  obtain ⟨location, hlocate, hentry⟩ := fileAt_eq_ok_iff.mp hf
  refine fileAt_eq_ok_iff.mpr ⟨location, ?_, hentry⟩
  rw [h.locate, hsame, ← h.locate, hlocate]

end FileSystem

namespace Options

variable {o : Options} {start after after' : FileSystem} {path : String} {paths : List String}
  {outcome outcome' : Except WorkError FileResult}

/-- How annotating the file at a path ends, and what the file holds after, if writing it goes as it
does at the start. -/
def foreseen (o : Options) (fs : FileSystem) (path : String) :
    Except WorkError FileResult × Except FileError ByteArray :=
  let name := (Path.ofString path).text
  let content := (fs.fileAt name).map (·.content)
  match (Work.finding o path).answer fs with
  | .error e => (.error e, content)
  | .ok (r, none) => (.ok r, content)
  | .ok (r, some text) =>
    if o.check then (.ok r, content)
    else
      match (fs.locate name).toOption.bind fun location => fs.host.writing location 0 with
      | none => (.ok r, .ok (Encoding.encode text))
      | some ⟨reason, none⟩ =>
        (.ok ⟨path, .skipped, some s!"{reason.text}: {Text.quoted name}"⟩, content)
      | some ⟨reason, some size⟩ =>
        (.ok ⟨path, .skipped, some reason.text⟩, .ok ((Encoding.encode text).extract 0 size))

/-- All ends of steady writes are foreseen. -/
theorem Ends.eq_foreseen (h : o.Ends start after path outcome)
    (hsteady : start.Steady paths) (hpath : path ∈ paths) :
    (outcome, (after.fileAt (Path.ofString path).text).map (·.content))
      = o.foreseen start path := by
  have hwriting : ∀ {location n}, start.locate (Path.ofString path).text = .ok location →
      ((start.locate (Path.ofString path).text).toOption.bind fun location =>
        start.host.writing location 0) = start.host.writing location n := by
    intro location n hlocate
    rw [hlocate]
    exact hsteady path hpath location hlocate 0 n
  unfold foreseen
  cases h with
  | failed found left =>
    rw [found, left]
  | kept found idle left =>
    rename_i text?
    rw [found, left]
    cases text? with
    | none => rfl
    | some text => exact (if_pos (idle.resolve_left (Option.some_ne_none text))).symm
  | written found writes there done left =>
    rw [found, left]
    dsimp only
    rw [writes, if_neg Bool.false_ne_true, hwriting there, done]
    rfl
  | refused found writes there failed left =>
    rw [found, left]
    dsimp only
    rw [writes, if_neg Bool.false_ne_true, hwriting there, failed]
  | torn found writes there failed left =>
    rw [found, left]
    dsimp only
    rw [writes, if_neg Bool.false_ne_true, hwriting there, failed]
    rfl

/-- All outcomes of steady writes are foreseen. -/
theorem map_foreseen_of_ends {targets : List String} {outcomes : List (Except WorkError FileResult)}
    (h : List.Forall₂ (o.Ends start after) paths outcomes) (hsteady : start.Steady targets)
    (hpaths : paths ⊆ targets) : outcomes = paths.map fun path => (o.foreseen start path).1 := by
  induction h with
  | nil => rfl
  | cons hend _ ih =>
    obtain ⟨hpath, hpaths⟩ := List.cons_subset.mp hpaths
    rw [List.map_cons, ← hend.eq_foreseen hsteady hpath, ← ih hpaths]

/-- All results of steady writes are foreseen. -/
theorem mapM_foreseen_of_ends {targets : List String} {results : List FileResult}
    (h : List.Forall₂ (fun path r => o.Ends start after path (.ok r)) paths results)
    (hsteady : start.Steady targets) (hpaths : paths ⊆ targets) :
    (paths.mapM fun path => (o.foreseen start path).1) = .ok results := by
  induction h with
  | nil => rfl
  | cons hend _ ih =>
    obtain ⟨hpath, hpaths⟩ := List.cons_subset.mp hpaths
    rw [List.mapM_cons, ← hend.eq_foreseen hsteady hpath, ok_bind, ih hpaths]
    rfl

/-- A result is for the path. -/
theorem path_of_foreseen {r : FileResult} (h : (o.foreseen start path).1 = .ok r) :
    r.path = path := by
  unfold foreseen at h
  dsimp only at h
  split at h
  · cases h
  · next found =>
    cases h
    exact (Work.of_finding found).1
  · next found =>
    split at h
    · cases h
      exact (Work.of_finding found).1
    · split at h <;> cases h
      · exact (Work.of_finding found).1
      · rfl
      · rfl

/-- What cannot be found is not foreseen. -/
theorem mapM_foreseen_of_error {e : WorkError} (h : o.findings start paths = .error e) :
    (paths.mapM fun path => (o.foreseen start path).1) = .error e := by
  unfold findings at h
  induction paths with
  | nil => cases h
  | cons path paths ih =>
    rw [List.mapM_cons] at h ⊢
    rcases error_of_bind h with hfound | ⟨⟨r, text?⟩, hfound, h⟩
    · have hforeseen : (o.foreseen start path).1 = .error e := by
        unfold foreseen
        rw [hfound]
      rw [hforeseen, error_bind]
    · have hforeseen : ∃ r', (o.foreseen start path).1 = .ok r' := by
        unfold foreseen
        rw [hfound]
        cases text? with
        | none => exact ⟨r, rfl⟩
        | some text =>
          dsimp only
          split
          · exact ⟨r, rfl⟩
          · split <;> exact ⟨_, rfl⟩
      obtain ⟨r', hforeseen⟩ := hforeseen
      rcases error_of_bind h with hrest | ⟨rest, -, h⟩
      · rw [hforeseen, ok_bind, ih hrest, error_bind]
      · cases h

/-- What the files hold does not depend on the order in which they are written. -/
theorem sameContents_of_ends (hsteady : start.Steady paths)
    (hshape : start.SameShape after) (hshape' : start.SameShape after')
    (hends : ∀ path ∈ paths, ∃ outcome, o.Ends start after path outcome)
    (hends' : ∀ path ∈ paths, ∃ outcome, o.Ends start after' path outcome)
    (h : o.Rewrites start start after paths) (h' : o.Rewrites start start after' paths) :
    after.SameContents after' where
  shape := hshape.symm.trans hshape'
  contents path := by
    by_cases hwritten : ∃ path' ∈ paths, start.locate path = start.locate (Path.ofString path').text
        ∧ ∃ r text, (Work.finding o path').answer start = .ok (r, some text)
    · -- both ways this file holds what is foreseen
      obtain ⟨path', hpath', hsame, r, text, hfound⟩ := hwritten
      obtain ⟨source, hread, -⟩ := Work.written_of_finding hfound
      obtain ⟨location, f, hlocate, hentry, -⟩ := FileSystem.readSource_eq_ok_iff.mp hread
      have hthere : ∀ fs, start.SameShape fs → ∃ g,
          fs.fileAt (Path.ofString path').text = .ok g ∧ fs.fileAt path = .ok g := by
        intro fs hfs
        have hfile := hfs.fileAt (Path.ofString path').text
        rw [FileSystem.fileAt_eq_ok_iff.mpr ⟨location, hlocate, hentry⟩] at hfile
        rcases hfile with ⟨-, g, -, hg⟩ | hg
        · exact ⟨g, hg, hfs.fileAt_of_locate_eq hsame hg⟩
        · exact ⟨f, hg, hfs.fileAt_of_locate_eq hsame hg⟩
      obtain ⟨g, hg, hpath⟩ := hthere after hshape
      obtain ⟨g', hg', hpath'₂⟩ := hthere after' hshape'
      obtain ⟨outcome, hend⟩ := hends path' hpath'
      obtain ⟨outcome', hend'⟩ := hends' path' hpath'
      have hforeseen := (hend.eq_foreseen hsteady hpath').trans
        (hend'.eq_foreseen hsteady hpath').symm
      rw [hg, hg'] at hforeseen
      rw [hpath, hpath'₂]
      exact (Prod.mk.inj hforeseen).2.symm
    · have hleft : after'.fileAt path = after.fileAt path := by
        unfold FileSystem.fileAt
        rw [hshape.locate, hshape'.locate]
        cases hlocate : start.locate path with
        | error fault => rfl
        | ok location =>
          have hspares : ∀ path' ∈ paths, o.Spares start location path' :=
            fun path' hpath' hthere r text hfound =>
              hwritten ⟨path', hpath', hlocate.trans hthere.symm, r, text, hfound⟩
          dsimp only
          rw [h location hspares, h' location hspares]
      rw [hleft]

end Options

/-! ## Tasks that touch different files -/

namespace Workspace.Sound

variable {o : Options} {start : FileSystem} {w : Workspace} {paths targets : List String}

/-- Workers annotate files, none of which was written since the start: what is found in each is what
was to be found at the start. -/
theorem mapM_detached (hw : w.Sound) (h : o.Follows targets start w.files)
    (hmanifests : o.SparesManifests start targets) (hkeeps : o.KeepsSources start targets)
    (hpaths : paths ⊆ targets)
    (hdistinct : paths.Pairwise fun path path' =>
      ¬ start.SameFile (Path.ofString path).text (Path.ofString path').text)
    (hleft : ∀ path ∈ paths,
      w.files.fileAt (Path.ofString path).text = start.fileAt (Path.ofString path).text) :
    ∃ outcomes w', (paths.mapM fun path => Work.detached (Work.annotateFile o path)).run.run w
        = (.ok outcomes, w')
      ∧ o.Follows targets start w'.files ∧ o.Rewrites start w.files w'.files paths
      ∧ List.Forall₂ (o.Ends start w'.files) paths outcomes := by
  induction paths generalizing w with
  | nil => exact ⟨[], w, rfl, h, fun _ _ => rfl, .nil⟩
  | cons path paths ih =>
    obtain ⟨hpath, hpaths⟩ := List.cons_subset.mp hpaths
    obtain ⟨hfirst, hdistinct⟩ := List.pairwise_cons.mp hdistinct
    obtain ⟨hleft₁, hleft⟩ := List.forall_mem_cons.mp hleft
    obtain ⟨outcome, w₁, hrun, ⟨-, hw₁⟩, h₁, hends, hrewrites⟩ :=
      hw.annotateFile_first h hmanifests hkeeps hpath hleft₁
    have hsame : ∀ path' ∈ paths, w₁.files.fileAt (Path.ofString path').text
        = start.fileAt (Path.ofString path').text := by
      intro path' hpath'
      rw [hrewrites.fileAt h.shape h₁.shape, hleft path' hpath']
      exact List.forall_mem_singleton.mpr fun hsame => hfirst path' hpath' hsame.symm
    obtain ⟨outcomes, w₂, hrun₂, h₂, hrewrites₂, hall⟩ := ih hw₁ h₁ hpaths hdistinct hsame
    refine ⟨outcome :: outcomes, w₂, ?_, h₂, hrewrites.cons hrewrites₂,
      .cons (hends.later (hrewrites₂.fileAt h₁.shape h₂.shape hfirst)) hall⟩
    rw [List.mapM_cons, Work.run_bind, Work.run_detached, hrun]
    dsimp only
    rw [Work.run_bind, hrun₂]
    rfl

end Workspace.Sound

/-! ## Results of schedules -/

theorem mapM_total {ε α β : Type} {f : α → Except ε β} {as : List α}
    (h : ∀ a ∈ as, ∃ b, f a = .ok b) : ∃ bs, as.mapM f = .ok bs := by
  induction as with
  | nil => exact ⟨[], rfl⟩
  | cons a as ih =>
    obtain ⟨b, hb⟩ := h a List.mem_cons_self
    obtain ⟨bs, hbs⟩ := ih fun a' ha' => h a' (List.mem_cons_of_mem a ha')
    exact ⟨b :: bs, by rw [List.mapM_cons, hb, ok_bind, hbs]; rfl⟩

theorem filterMap_of_mapM {ε α β γ : Type} {f : α → Except ε β} {g : α → Option γ} {k : β → γ}
    {as : List α} {bs : List β} (h : as.mapM f = .ok bs)
    (hg : ∀ a ∈ as, ∀ b ∈ bs, f a = .ok b → g a = some (k b)) : as.filterMap g = bs.map k := by
  induction as generalizing bs with
  | nil =>
    cases h
    rfl
  | cons a as ih =>
    rw [List.mapM_cons] at h
    obtain ⟨b, hb, h⟩ := ok_of_bind h
    obtain ⟨bs', hbs', h⟩ := ok_of_bind h
    cases h
    rw [List.filterMap_cons, hg a List.mem_cons_self b List.mem_cons_self hb, List.map_cons,
      ih hbs' fun a' ha' b' hb' =>
        hg a' (List.mem_cons_of_mem a ha') b' (List.mem_cons_of_mem b hb')]

namespace Work

variable {o : Options} {fs : FileSystem}

/-- The last result for a path is what is foreseen for the path, whatever the order of the
results. -/
theorem lastResult_eq {results : List FileResult}
    (hresults : ∀ r ∈ results, ∃ path, (o.foreseen fs path).1 = .ok r) {path : String}
    {r : FileResult} (hr : (o.foreseen fs path).1 = .ok r) (hmem : r ∈ results) :
    lastResult results path = some r := by
  unfold lastResult
  cases hfind : results.reverse.find? (·.path == path) with
  | none =>
    have hnone := List.find?_eq_none.mp hfind r (List.mem_reverse.mpr hmem)
    rw [Options.path_of_foreseen hr, beq_self_eq_true] at hnone
    exact absurd rfl hnone
  | some r' =>
    obtain ⟨path', hr'⟩ := hresults r' (List.mem_reverse.mp (List.mem_of_find?_eq_some hfind))
    have hpath : r'.path = path := by simpa using List.find?_some hfind
    obtain rfl : path = path' := hpath.symm.trans (Options.path_of_foreseen hr')
    rw [hr] at hr'
    cases hr'
    rfl

variable {w : Workspace} {paths : List String}

/-- What workers tell of files, in the order in which it is seen. -/
def toldBy (s : Schedule paths.length) (o : Options) (fs : FileSystem) :
    Except WorkError (List FileResult) :=
  s.completing.mapM fun i => ((o.foreseen fs (paths.get i)).1).mapError errorOfWorker

/-- Each path gets what is foreseen for it, whatever the order in which it is told. -/
theorem toldBy_ok (s : Schedule paths.length) {foreseen : List FileResult}
    (h : paths.mapM (fun path => (o.foreseen fs path).1) = .ok foreseen) :
    ∃ results, toldBy s o fs = .ok results
      ∧ paths.filterMap (lastResult results) = foreseen := by
  have htotal : ∀ i ∈ s.completing, ∃ r,
      ((o.foreseen fs (paths.get i)).1).mapError errorOfWorker = .ok r := by
    intro i _
    obtain ⟨r, -, hr⟩ := exists_of_forall₂ (forall₂_of_ok_mapM h) (List.get_mem paths i)
    exact ⟨r, by rw [hr]; rfl⟩
  obtain ⟨results, hresults⟩ := mapM_total htotal
  refine ⟨results, hresults, ?_⟩
  rw [filterMap_of_mapM (k := id) h fun path hpath r _ hr => ?_, List.map_id]
  refine lastResult_eq (fun r' hr' => ?_) hr ?_
  · obtain ⟨i, -, hi⟩ := exists_of_mem_mapM hresults hr'
    exact ⟨_, ok_of_mapError hi⟩
  · obtain ⟨i, rfl⟩ := List.mem_iff_get.mp hpath
    obtain ⟨r', hr', hi⟩ := exists_of_forall₂ (forall₂_of_ok_mapM hresults) (s.mem_completing i)
    rw [hr] at hi
    cases hi
    exact hr'

/-- An error is told if there is one. -/
theorem toldBy_error (s : Schedule paths.length) {e : WorkError}
    (h : paths.mapM (fun path => (o.foreseen fs path).1) = .error e) :
    ∃ e', toldBy s o fs = .error e' := by
  cases htold : toldBy s o fs with
  | error e' => exact ⟨e', rfl⟩
  | ok results =>
    have htotal : ∀ path ∈ paths, ∃ r, (o.foreseen fs path).1 = .ok r := by
      intro path hpath
      obtain ⟨i, rfl⟩ := List.mem_iff_get.mp hpath
      obtain ⟨r, -, hi⟩ := exists_of_forall₂ (forall₂_of_ok_mapM htold) (s.mem_completing i)
      exact ⟨r, ok_of_mapError hi⟩
    obtain ⟨foreseen, hforeseen⟩ := mapM_total htotal
    rw [hforeseen] at h
    cases h

/-- What workers tell that follow a schedule, and what they write. -/
theorem run_annotateBySchedule (hw : w.Sound) (hmanifests : o.SparesManifests w.files paths)
    (hkeeps : o.KeepsSources w.files paths) (hsteady : w.files.Steady paths)
    (hdistinct : paths.Pairwise fun path path' =>
      ¬ w.files.SameFile (Path.ofString path).text (Path.ofString path').text)
    (s : Schedule paths.length) :
    ∃ w', (annotateBySchedule o paths s).run.run w
        = ((toldBy s o w.files).map fun results => paths.filterMap (lastResult results), w')
      ∧ w.files.SameShape w'.files ∧ o.Rewrites w.files w.files w'.files paths
      ∧ ∀ path ∈ paths, ∃ outcome, o.Ends w.files w'.files path outcome := by
  have horder : (s.running.map paths.get).Perm paths := by
    have hperm := s.running_perm.map paths.get
    rwa [List.map_get_finRange] at hperm
  obtain ⟨outcomes, w₁, hrun, hfollows, hrewrites, hends⟩ := hw.mapM_detached
    (.refl o paths w.files) hmanifests hkeeps horder.subset
    ((horder.pairwise_iff fun h hsame => h hsame.symm).mpr hdistinct) fun _ _ => rfl
  have houtcomes := Options.map_foreseen_of_ends hends hsteady horder.subset
  rw [List.mapM_map, houtcomes, List.map_map, Function.comp_def, Function.comp_def] at hrun
  obtain ⟨log, hlooks⟩ := Looks.mapM (looks_ofExcept errorOfWorker)
    (s.completing.map fun i => (o.foreseen w.files (paths.get i)).1) w₁
  have htold : ((s.completing.map fun i => (o.foreseen w.files (paths.get i)).1).mapM
      (ofExcept errorOfWorker)).answer w₁.files = toldBy s o w.files := by
    rw [answer_mapM (looks_ofExcept errorOfWorker), List.mapM_map, toldBy]
    exact congrArg (s.completing.mapM ·) (funext fun i => answer_ofExcept _ _ _)
  rw [htold] at hlooks
  refine ⟨{ w₁ with log := log }, ?_, hfollows.shape, fun location hspares => ?_,
    fun path hpath => ?_⟩
  · unfold annotateBySchedule
    rw [run_bind, hrun]
    dsimp only
    rw [s.collect_map, run_bind, hlooks]
    cases toldBy s o w.files <;> rfl
  · exact hrewrites location fun path hpath => hspares path (horder.mem_iff.mp hpath)
  · obtain ⟨outcome, -, hend⟩ := exists_of_forall₂ hends (horder.mem_iff.mpr hpath)
    exact ⟨outcome, hend⟩

/-- What one does who annotates files in order. -/
theorem run_annotateInOrder (hw : w.Sound) (hmanifests : o.SparesManifests w.files paths)
    (hkeeps : o.KeepsSources w.files paths) (hsteady : w.files.Steady paths)
    (hdistinct : paths.Pairwise fun path path' =>
      ¬ w.files.SameFile (Path.ofString path).text (Path.ofString path').text) :
    ∃ left, (annotateInOrder o paths).run.run w
        = (paths.mapM fun path => (o.foreseen w.files path).1, left)
      ∧ w.files.SameShape left.files ∧ o.Rewrites w.files w.files left.files paths
      ∧ ∀ results, paths.mapM (fun path => (o.foreseen w.files path).1) = .ok results →
        ∀ path ∈ paths, ∃ outcome, o.Ends w.files left.files path outcome := by
  obtain ⟨result, left, hrun, hfollows, hrewrites, herror, hok⟩ :=
    hw.annotateInOrder_distinct (.refl o paths w.files) hmanifests hkeeps
      (List.Subset.refl paths) hdistinct fun _ _ => rfl
  cases hfindings : o.findings w.files paths with
  | error e =>
    have hforeseen := Options.mapM_foreseen_of_error hfindings
    refine ⟨left, ?_, hfollows.shape, hrewrites, fun results hresults => ?_⟩
    · rw [hrun, herror e hfindings, hforeseen]
    · rw [hforeseen] at hresults
      cases hresults
  | ok found =>
    obtain ⟨results, rfl, hends⟩ := hok found hfindings
    have hforeseen := Options.mapM_foreseen_of_ends hends hsteady (List.Subset.refl paths)
    refine ⟨left, ?_, hfollows.shape, hrewrites, fun results _ path hpath => ?_⟩
    · rw [hrun, hforeseen]
    · obtain ⟨r, -, hend⟩ := exists_of_forall₂ hends hpath
      exact ⟨.ok r, hend⟩

/-- A file is annotated the same however many workers there are. -/
theorem annotateFile_jobs (o : Options) (jobs : Option Int) :
    annotateFile { o with jobs } = annotateFile o := by
  funext path
  unfold annotateFile
  dsimp only

/-- Workers do what one would do after another, whatever the schedule, if no two paths lead to one
file, none to a reference that is read as a manifest, no source among the references is cut off, and
the order of the writes does not decide which of them fail: the results are the same, in the order
of the paths, and so are the contents of all files; and there is an error if there would be one. -/
theorem annotateBySchedule_alike (hw : w.Sound) (hmanifests : o.SparesManifests w.files paths)
    (hkeeps : o.KeepsSources w.files paths) (hsteady : w.files.Steady paths)
    (hdistinct : paths.Pairwise fun path path' =>
      ¬ w.files.SameFile (Path.ofString path).text (Path.ofString path').text)
    (s : Schedule paths.length) :
    (∀ report left, (annotateFiles { o with jobs := some 1 } paths).run.run w = (.ok report, left) →
      ∃ left', (annotateBySchedule o paths s).run.run w = (.ok report.results, left')
        ∧ left.files.SameContents left'.files)
    ∧ ∀ e left, (annotateFiles { o with jobs := some 1 } paths).run.run w = (.error e, left) →
      ∃ e' left', (annotateBySchedule o paths s).run.run w = (.error e', left') := by
  obtain ⟨left, hrun, hshape, hrewrites, hends⟩ :=
    run_annotateInOrder (o := o) hw hmanifests hkeeps hsteady hdistinct
  have hinOrder : annotateInOrder { o with jobs := some 1 } paths = annotateInOrder o paths := by
    rw [annotateInOrder, annotateInOrder, annotateFile_jobs]
  obtain ⟨left', hrun', hshape', hrewrites', hends'⟩ :=
    run_annotateBySchedule (o := o) hw hmanifests hkeeps hsteady hdistinct s
  rw [annotateFiles_eq rfl, run_bind, hinOrder, hrun]
  cases hforeseen : paths.mapM fun path => (o.foreseen w.files path).1 with
  | error e =>
    refine ⟨fun report left hend => (by cases hend), fun _ _ _ => ?_⟩
    obtain ⟨e', htold⟩ := toldBy_error s hforeseen
    rw [hrun', htold]
    exact ⟨e', left', rfl⟩
  | ok results =>
    refine ⟨fun report left hend => ?_, fun _ _ hend => (by cases hend)⟩
    cases hend
    obtain ⟨told, htold, hresults⟩ := toldBy_ok s hforeseen
    refine ⟨left', ?_, Options.sameContents_of_ends hsteady hshape hshape'
      (hends results hforeseen) hends' hrewrites hrewrites'⟩
    rw [hrun', htold, ← hresults]
    rfl

/-- Two files, one of them a reference, that are annotated in the reverse order. -/
theorem annotateBySchedule_alike_reversed :
    let w := Workspace.ofSources [("A.cs", "class A{}"), ("B.cs", "class B:A{}")]
    let o : Options := { references := ["A.cs"] }
    let s : Schedule 2 := ⟨[1, 0], [1, 0], by decide, by decide⟩
    (∀ report left, (annotateFiles { o with jobs := some 1 } ["A.cs", "B.cs"]).run.run w
        = (.ok report, left) →
      ∃ left', (annotateBySchedule o ["A.cs", "B.cs"] s).run.run w = (.ok report.results, left')
        ∧ left.files.SameContents left'.files)
    ∧ ∀ e left, (annotateFiles { o with jobs := some 1 } ["A.cs", "B.cs"]).run.run w
        = (.error e, left) →
      ∃ e' left', (annotateBySchedule o ["A.cs", "B.cs"] s).run.run w = (.error e', left') :=
  annotateBySchedule_alike (o := { references := ["A.cs"] }) (Workspace.sound_ofSources _)
    Workspace.ofSources_apart.1 Workspace.ofSources_apart.2.1 (fun _ _ _ _ _ _ => rfl)
    Workspace.ofSources_apart.2.2 ⟨[1, 0], [1, 0], by decide, by decide⟩

/-- A path that is named twice has one result when workers do the work, and two when they do not. -/
theorem annotateByWorkers_repeated :
    let w := Workspace.ofSources [("A.cs", "")]
    ((annotateFiles { jobs := some 1 } ["A.cs", "A.cs"]).run.run w).1
        = .ok { results := [⟨"A.cs", .changed, none⟩, ⟨"A.cs", .unchanged, none⟩] }
      ∧ ((annotateFiles { jobs := some 2 } ["A.cs", "A.cs"]).run.run w).1
        = .ok { results := [⟨"A.cs", .unchanged, none⟩, ⟨"A.cs", .unchanged, none⟩] } :=
  ⟨ok_of_toOption (by decide +kernel), ok_of_toOption (by decide +kernel)⟩

end Work

end NullableMarker
