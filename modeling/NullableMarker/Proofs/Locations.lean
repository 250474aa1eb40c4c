import Mathlib.Data.List.TakeWhile
import Mathlib.Data.String.Basic
import NullableMarker.Proofs.Lookups
import NullableMarker.Workspace.References

/-!
# Where paths lead

A path leads to the same place when it is written in the one way. Where paths lead depends on what
is a file and what is a directory, and not on what the files hold: writing a file changes what is
found at its location, and nothing else.

* `FileSystem.fileAt_text` — a path and its one way to be written
* `FileSystem.locate_inj` — a path leads to one place, whatever else there is
* `FileSystem.SameShape` — one system with the same files and directories
* `FileSystem.fileAt_put` — what is found after a file was written
* `FileSystem.run_overwrite` — the ways in which a write ends
-/

namespace NullableMarker

/-! ## Texts in parts -/

section Parts

variable {mark : Char}

theorem splitAt_cons_mark (s : List Char) : splitAt mark (mark :: s) = [] :: splitAt mark s := by
  rw [splitAt, if_pos (beq_self_eq_true mark)]

theorem splitAt_ne_nil (mark : Char) (s : List Char) : splitAt mark s ≠ [] := by
  cases s with
  | nil => exact List.cons_ne_nil _ _
  | cons c s =>
    rw [splitAt]
    split
    · exact List.cons_ne_nil _ _
    · split <;> exact List.cons_ne_nil _ _

theorem splitAt_cons_of_ne {c : Char} (h : c ≠ mark) {s part : List Char} {parts : List (List Char)}
    (hs : splitAt mark s = part :: parts) : splitAt mark (c :: s) = (c :: part) :: parts := by
  rw [splitAt, if_neg (by simpa using h), hs]

/-- The parts of a text do not hold the mark. -/
theorem not_mem_of_mem_splitAt {s part : List Char} (h : part ∈ splitAt mark s) : mark ∉ part := by
  induction s generalizing part with
  | nil =>
    rw [splitAt, List.mem_singleton] at h
    rw [h]
    exact List.not_mem_nil
  | cons c s ih =>
    by_cases hc : c = mark
    · rw [hc, splitAt_cons_mark, List.mem_cons] at h
      rcases h with rfl | h
      · exact List.not_mem_nil
      · exact ih h
    · obtain ⟨first, parts, hs⟩ := List.exists_cons_of_ne_nil (splitAt_ne_nil mark s)
      rw [splitAt_cons_of_ne hc hs, List.mem_cons] at h
      rw [hs] at ih
      rcases h with rfl | h
      · have hfirst := ih List.mem_cons_self
        simp [Ne.symm hc, hfirst]
      · exact ih (List.mem_cons_of_mem first h)

/-- The parts of a text, put together again. -/
theorem intercalate_splitAt (s : List Char) : [mark].intercalate (splitAt mark s) = s := by
  induction s with
  | nil => rfl
  | cons c s ih =>
    obtain ⟨first, parts, hs⟩ := List.exists_cons_of_ne_nil (splitAt_ne_nil mark s)
    by_cases hc : c = mark
    · rw [hc, splitAt_cons_mark, hs]
      rw [hs] at ih
      rw [List.intercalate_cons_cons, ih]
      rfl
    · rw [splitAt_cons_of_ne hc hs]
      rw [hs] at ih
      cases parts with
      | nil =>
        rw [List.intercalate_singleton] at ih ⊢
        rw [ih]
      | cons second parts =>
        rw [List.intercalate_cons_cons] at ih ⊢
        rw [← ih]
        rfl

theorem splitAt_of_not_mem {s : List Char} (h : mark ∉ s) : splitAt mark s = [s] := by
  induction s with
  | nil => rfl
  | cons c s ih =>
    rw [List.mem_cons, not_or] at h
    exact splitAt_cons_of_ne (Ne.symm h.1) (ih h.2)

theorem splitAt_append {part : List Char} (h : mark ∉ part) (s : List Char) :
    splitAt mark (part ++ mark :: s) = part :: splitAt mark s := by
  induction part with
  | nil => exact splitAt_cons_mark s
  | cons c part ih =>
    rw [List.mem_cons, not_or] at h
    exact splitAt_cons_of_ne (Ne.symm h.1) (ih h.2)

/-- Parts without the mark are the parts of what they make up. -/
theorem splitAt_intercalate {parts : List (List Char)} (hne : parts ≠ [])
    (h : ∀ part ∈ parts, mark ∉ part) : splitAt mark ([mark].intercalate parts) = parts := by
  induction parts with
  | nil => exact absurd rfl hne
  | cons part parts ih =>
    have hpart := h part List.mem_cons_self
    cases parts with
    | nil => rw [List.intercalate_singleton, splitAt_of_not_mem hpart]
    | cons second parts =>
      rw [List.intercalate_cons_cons, List.append_assoc, List.singleton_append,
        splitAt_append hpart,
        ih (List.cons_ne_nil _ _) fun p hp => h p (List.mem_cons_of_mem part hp)]

/-- Some of the parts make up a part of the text. -/
theorem sublist_intercalate (mark : Char) {parts parts' : List (List Char)}
    (h : parts'.Sublist parts) :
    ([mark].intercalate parts').Sublist ([mark].intercalate parts) := by
  induction h with
  | slnil => exact List.Sublist.refl _
  | @cons parts' parts part h ih =>
    cases parts with
    | nil =>
      rw [List.sublist_nil.mp h]
      exact List.nil_sublist _
    | cons second parts =>
      rw [List.intercalate_cons_cons]
      exact ih.trans (List.sublist_append_right _ _)
  | @cons_cons parts' parts part h ih =>
    cases parts' with
    | nil =>
      rw [List.intercalate_singleton]
      cases parts with
      | nil => rw [List.intercalate_singleton]
      | cons second parts =>
        rw [List.intercalate_cons_cons, List.append_assoc]
        exact List.sublist_append_left _ _
    | cons second' parts' =>
      cases parts with
      | nil => cases h
      | cons second parts =>
        rw [List.intercalate_cons_cons, List.intercalate_cons_cons]
        exact (List.Sublist.refl _).append ih

end Parts

/-! ## Written paths -/

namespace Path

/-- A step that leads somewhere. -/
def isStep (step : String) : Bool := step != "" && step != "."

theorem parts_ofString (s : String) : (ofString s).parts = (rawSteps s).filter isStep := rfl

theorem rawSteps_slashes (n : Nat) (s : List Char) :
    rawSteps (String.ofList (List.replicate n '/' ++ s))
      = List.replicate n "" ++ rawSteps (String.ofList s) := by
  induction n with
  | zero => rfl
  | succ n ih =>
    rw [List.replicate_succ, List.cons_append, rawSteps, String.toList_ofList, splitAt_cons_mark,
      List.map_cons]
    rw [rawSteps, String.toList_ofList] at ih
    rw [ih]
    rfl

/-- A step of a path is not empty, and does not start with a slash. -/
theorem exists_cons_of_mem_parts {s step : String} (h : step ∈ (ofString s).parts) :
    '/' ∉ step.toList ∧ ∃ c cs, step.toList = c :: cs ∧ c ≠ '/' := by
  rw [parts_ofString, List.mem_filter] at h
  obtain ⟨hraw, hstep⟩ := h
  obtain ⟨part, hpart, rfl⟩ := List.mem_map.mp hraw
  have hslash := not_mem_of_mem_splitAt hpart
  rw [String.toList_ofList]
  refine ⟨hslash, ?_⟩
  cases part with
  | nil => exact absurd hstep (by decide)
  | cons c cs => exact ⟨c, cs, rfl, fun hc => hslash (hc ▸ List.mem_cons_self)⟩

/-- The slashes that a text starts with, and those of its root. -/
theorem exists_slashes (s : String) :
    ∃ n m rest, s.toList = List.replicate n '/' ++ rest ∧ rest.head? ≠ some '/'
      ∧ (ofString s).root = String.ofList (List.replicate m '/') ∧ m ≤ n ∧ (m = 0 → n = 0) := by
  have hall : s.toList.takeWhile (· == '/')
      = List.replicate (s.toList.takeWhile (· == '/')).length '/' := by
    refine List.eq_replicate_of_mem fun c hc => ?_
    simpa using List.mem_takeWhile_imp hc
  have hsplit : s.toList = List.replicate (s.toList.takeWhile (· == '/')).length '/'
      ++ s.toList.dropWhile (· == '/') := by
    rw [← hall, List.takeWhile_append_dropWhile]
  have hhead : (s.toList.dropWhile (· == '/')).head? ≠ some '/' := by
    intro h
    have hnot := List.head?_dropWhile_not (· == '/') s.toList
    rw [h] at hnot
    simp at hnot
  have hroot : (ofString s).root = rootOf s := rfl
  rw [hroot]
  unfold rootOf
  generalize (s.toList.takeWhile (· == '/')).length = n at hsplit
  match n with
  | 0 => exact ⟨0, 0, _, hsplit, hhead, rfl, Nat.le_refl 0, id⟩
  | 1 => exact ⟨1, 1, _, hsplit, hhead, rfl, Nat.le_refl 1, id⟩
  | 2 => exact ⟨2, 2, _, hsplit, hhead, rfl, Nat.le_refl 2, id⟩
  | n + 3 => exact ⟨n + 3, 1, _, hsplit, hhead, rfl, by omega, fun h => by cases h⟩

/-- What is written for a path: the slashes of its root and its steps, with slashes between them. -/
theorem text_form (s : String) :
    (ofString s).root = "" ∧ (ofString s).parts = [] ∧ (ofString s).text = "."
      ∨ ((ofString s).root ≠ "" ∨ (ofString s).parts ≠ [])
        ∧ (ofString s).text.toList = (ofString s).root.toList
          ++ ['/'].intercalate ((ofString s).parts.map String.toList) := by
  unfold text
  split
  · next h =>
    simp only [Bool.and_eq_true, String.isEmpty_iff, List.isEmpty_iff] at h
    exact .inl ⟨h.1, h.2, rfl⟩
  · next h =>
    simp only [Bool.and_eq_true, String.isEmpty_iff, List.isEmpty_iff, not_and_or] at h
    refine .inr ⟨h, ?_⟩
    rw [String.toList_append, String.toList_intercalate]
    rfl

/-- The text of a path is a part of the text that the path was read from. -/
theorem text_sublist (s : String) :
    (ofString s).text = "." ∨ (ofString s).text.toList.Sublist s.toList := by
  obtain ⟨n, m, rest, hs, -, hroot, hle, -⟩ := exists_slashes s
  -- the steps are some of those after the slashes
  have hparts : ((ofString s).parts.map String.toList).Sublist (splitAt '/' rest) := by
    have hnone : (List.replicate n "").filter isStep = [] := by
      rw [List.filter_eq_nil_iff]
      intro step hstep
      rw [List.eq_of_mem_replicate hstep]
      decide
    have hmap : (rawSteps (String.ofList rest)).map String.toList = splitAt '/' rest := by
      rw [rawSteps, String.toList_ofList, List.map_map]
      conv_rhs => rw [← List.map_id (splitAt '/' rest)]
      exact List.map_congr_left fun part _ => String.toList_ofList
    have hs' : s = String.ofList (List.replicate n '/' ++ rest) := by
      rw [← hs, String.ofList_toList]
    rw [parts_ofString, hs', rawSteps_slashes, List.filter_append, hnone, List.nil_append, ← hmap]
    exact List.filter_sublist.map _
  rcases text_form s with ⟨-, -, htext⟩ | ⟨-, htext⟩
  · exact .inl htext
  · refine .inr ?_
    rw [htext, hs, hroot, String.toList_ofList]
    have hrest := sublist_intercalate '/' hparts
    rw [intercalate_splitAt] at hrest
    exact ((List.replicate_sublist_replicate '/').mpr hle).append hrest

theorem text_ne_empty (s : String) : (ofString s).text ≠ "" := by
  intro hempty
  rcases text_form s with ⟨-, -, htext⟩ | ⟨hne, htext⟩
  · rw [htext] at hempty
    exact absurd hempty (by decide)
  · rw [hempty, String.toList_empty, eq_comm, List.append_eq_nil_iff] at htext
    rcases hne with hroot | hparts
    · exact hroot (by simpa using htext.1)
    · obtain ⟨step, steps, hcons⟩ := List.exists_cons_of_ne_nil hparts
      obtain ⟨-, c, cs, hstep, -⟩ := exists_cons_of_mem_parts (hcons ▸ List.mem_cons_self)
      rw [hcons, List.map_cons, hstep] at htext
      cases steps with
      | nil => exact absurd htext.2 (by simp)
      | cons second steps =>
        rw [List.map_cons, List.intercalate_cons_cons] at htext
        exact absurd htext.2 (by simp)

end Path

namespace FileSystem

variable {fs : FileSystem}

theorem entryAt?_startOf (path : String) : fs.entryAt? (startOf path) = some .directory := by
  unfold startOf
  split <;> rfl

theorem startOf_text (s : String) : startOf (Path.ofString s).text = startOf s := by
  obtain ⟨n, m, rest, hs, hrest, hroot, hle, hzero⟩ := Path.exists_slashes s
  have hhead : (Path.ofString s).text.toList.head? = some '/' ↔ s.toList.head? = some '/' := by
    rcases Path.text_form s with ⟨hempty, -, htext⟩ | ⟨hne, htext⟩
    · have hm : m = 0 := by simpa using hroot.symm.trans hempty
      rw [htext, hs, hzero hm]
      exact ⟨fun h => by simp at h, fun h => absurd h hrest⟩
    · rw [htext, hs, hroot, String.toList_ofList]
      cases m with
      | succ m =>
        obtain ⟨k, rfl⟩ := Nat.exists_eq_add_of_le hle
        rw [Nat.succ_add]
        exact ⟨fun _ => rfl, fun _ => rfl⟩
      | zero =>
        -- no slash comes first, neither before the steps nor in the first of them
        rw [hzero rfl]
        refine ⟨fun h => ?_, fun h => absurd h hrest⟩
        have hparts : (Path.ofString s).parts ≠ [] :=
          hne.resolve_left fun hne => hne (by rw [hroot]; rfl)
        obtain ⟨step, steps, hcons⟩ := List.exists_cons_of_ne_nil hparts
        obtain ⟨-, c, cs, hstep, hc⟩ := Path.exists_cons_of_mem_parts (hcons ▸ List.mem_cons_self)
        rw [hcons, List.map_cons, hstep] at h
        cases steps with
        | nil => exact absurd h (by simp [hc])
        | cons second steps =>
          rw [List.map_cons, List.intercalate_cons_cons] at h
          exact absurd h (by simp [hc])
  unfold startOf
  exact if_congr (by simpa using hhead) rfl rfl

theorem isClosed_startOf (path : String) : fs.isClosed (startOf path) = false := by
  unfold startOf
  split <;> rfl

theorem walk_skip {here : Location} (h : fs.entryAt? here = some .directory)
    (hopen : fs.isClosed here = false) {step : String} (hstep : Path.isStep step = false)
    (steps : List String) : fs.walk here (step :: steps) = fs.walk here steps := by
  rw [walk, h]
  dsimp only
  rw [hopen, if_neg Bool.false_ne_true]
  rw [Path.isStep, Bool.and_eq_false_iff] at hstep
  rcases hstep with hempty | hdot
  · rw [if_pos (by simpa using hempty)]
  · rw [if_pos (c := (step == ".") = true) (by simpa using hdot), ite_self]

/-- Steps that lead nowhere can be left out. -/
theorem walk_filter {here location : Location} {steps : List String}
    (h : fs.walk here steps = .ok location) :
    fs.walk here (steps.filter Path.isStep) = .ok location := by
  induction steps generalizing here with
  | nil => exact h
  | cons step steps ih =>
    rw [walk] at h
    split at h
    · cases h
    · cases h
    next hentry =>
    split at h
    · next hempty =>
      rw [List.filter_cons_of_neg (by simp_all [Path.isStep])]
      exact ih h
    split at h
    · cases h
    next hempty hclosed =>
    split at h
    · next hdot =>
      rw [List.filter_cons_of_neg (by simp_all [Path.isStep])]
      exact ih h
    next hdot =>
    rw [List.filter_cons_of_pos (by simp_all [Path.isStep]), walk, hentry]
    dsimp only
    rw [if_neg hempty, if_neg hclosed, if_neg hdot]
    split at h
    · next hup => rw [if_pos hup]; exact ih h
    split at h
    · cases h
    split at h
    · next hup hlong hsome => rw [if_neg hup, if_neg hlong, if_pos hsome]; exact ih h
    · cases h

/-- The text of a path leads along its steps. -/
theorem walk_text (s : String) :
    fs.walk (startOf s) (Path.rawSteps (Path.ofString s).text)
      = fs.walk (startOf s) (Path.ofString s).parts := by
  have hskip : ∀ step steps, Path.isStep step = false →
      fs.walk (startOf s) (step :: steps) = fs.walk (startOf s) steps :=
    fun step steps hstep => walk_skip (entryAt?_startOf s) (isClosed_startOf s) hstep steps
  have hslashes : ∀ (m : Nat) (steps : List String),
      fs.walk (startOf s) (List.replicate m "" ++ steps) = fs.walk (startOf s) steps := by
    intro m steps
    induction m with
    | zero => rfl
    | succ m ih => rw [List.replicate_succ, List.cons_append, hskip _ _ (by decide), ih]
  rcases Path.text_form s with ⟨-, hparts, htext⟩ | ⟨-, htext⟩
  · rw [htext, hparts]
    exact hskip _ [] (by decide)
  · obtain ⟨n, m, rest, -, -, hroot, -⟩ := Path.exists_slashes s
    rw [hroot, String.toList_ofList] at htext
    rw [← String.ofList_toList (s := (Path.ofString s).text), htext, Path.rawSteps_slashes,
      hslashes]
    cases hparts : (Path.ofString s).parts with
    | nil => exact hskip _ [] (by decide)
    | cons part parts =>
      refine congrArg (fs.walk (startOf s)) ?_
      rw [Path.rawSteps, String.toList_ofList, splitAt_intercalate (by simp)]
      · rw [List.map_map]
        conv_rhs => rw [← List.map_id (part :: parts)]
        exact List.map_congr_left fun step _ => String.ofList_toList
      · intro step hstep
        rw [← hparts, List.mem_map] at hstep
        obtain ⟨step, hstep, rfl⟩ := hstep
        exact (Path.exists_cons_of_mem_parts hstep).1

theorem pathFault?_text {s : String} (h : pathFault? s = none) :
    pathFault? (Path.ofString s).text = none := by
  unfold pathFault? at h
  split at h
  · cases h
  next hnul =>
  split at h
  · cases h
  next hlong =>
  rcases Path.text_sublist s with htext | hsublist
  · rw [htext]
    rfl
  · have hsize := String.utf8Len_le_of_sublist hsublist
    rw [← String.utf8ByteSize_ofList, ← String.utf8ByteSize_ofList, String.ofList_toList,
      String.ofList_toList] at hsize
    have hnul' : ¬ ((Path.ofString s).text.toList.contains '\x00' = true) := by
      rw [List.contains_iff_mem] at hnul ⊢
      exact fun hmem => hnul (hsublist.mem hmem)
    unfold pathFault?
    rw [if_neg hnul', if_neg (by omega), if_neg (by simpa using Path.text_ne_empty s)]

/-- A path that leads somewhere leads there also when it is written in the one way. -/
theorem locate_text {s : String} {location : Location} (h : fs.locate s = .ok location) :
    fs.locate (Path.ofString s).text = .ok location := by
  unfold locate at h ⊢
  cases hfault : pathFault? s with
  | some fault => rw [hfault] at h; cases h
  | none =>
    rw [hfault] at h
    rw [pathFault?_text hfault]
    dsimp only at h ⊢
    rw [startOf_text, walk_text]
    exact walk_filter h

/-- Steps lead to one place, whatever there is beside. -/
theorem walk_inj {fs' : FileSystem} {here location location' : Location} {steps : List String}
    (h : fs.walk here steps = .ok location) (h' : fs'.walk here steps = .ok location') :
    location = location' := by
  induction steps generalizing here with
  | nil =>
    cases h
    cases h'
    rfl
  | cons step steps ih =>
    have hstep : ∀ {fs : FileSystem} {location : Location},
        fs.walk here (step :: steps) = .ok location →
          fs.walk (if step == "" then here else if step == "." then here
            else if step == ".." then here.parent else here ++ [step]) steps = .ok location := by
      intro fs location h
      rw [walk] at h
      grind
    exact ih (hstep h) (hstep h')

/-- A path leads to one place, whatever else there is. -/
theorem locate_inj {fs' : FileSystem} {path : String} {location location' : Location}
    (h : fs.locate path = .ok location) (h' : fs'.locate path = .ok location') :
    location = location' := by
  unfold locate at h h'
  split at h
  · cases h
  · next hfault =>
    rw [hfault] at h'
    exact walk_inj h h'

/-- A file that is found stands at a location. -/
theorem fileAt_eq_ok_iff {path : String} {f : File} : fs.fileAt path = .ok f
    ↔ ∃ location, fs.locate path = .ok location ∧ fs.entryAt? location = some (.file f) := by
  unfold fileAt
  constructor
  · intro h
    split at h
    · cases h
    · next location hlocate =>
      refine ⟨location, hlocate, ?_⟩
      split at h
      · next hentry => cases h; exact hentry
      · cases h
      · cases h
  · rintro ⟨location, hlocate, hentry⟩
    rw [hlocate]
    dsimp only
    rw [hentry]

/-- Paths that lead to one location lead to one file. -/
theorem fileAt_text {s : String} {f : File} (h : fs.fileAt s = .ok f) :
    fs.fileAt (Path.ofString s).text = .ok f := by
  obtain ⟨location, hlocate, hentry⟩ := fileAt_eq_ok_iff.mp h
  exact fileAt_eq_ok_iff.mpr ⟨location, locate_text hlocate, hentry⟩

end FileSystem

/-! ## Shapes -/

/-- A file, whatever it holds. -/
def Entry.isFile : Entry → Bool
  | file _ => true
  | directory => false

namespace FileSystem

/-- What stands where, whatever the files hold. -/
def shape (fs : FileSystem) : List (Location × Bool) := fs.entries.map fun e => (e.1, e.2.isFile)

/-- The same files and directories on one system, whatever the files hold. -/
structure SameShape (fs fs' : FileSystem) : Prop where
  shape : fs'.shape = fs.shape
  host : fs'.host = fs.host

theorem lookup_shape (fs : FileSystem) (location : Location) :
    fs.shape.lookup location = (fs.entries.lookup location).map Entry.isFile := by
  unfold shape
  induction fs.entries with
  | nil => rfl
  | cons e entries ih =>
    rw [List.map_cons, List.lookup_cons, List.lookup_cons]
    split
    · rfl
    · exact ih

/-- What stands below a location, as far as the shape tells. -/
theorem map_below (fs : FileSystem) (location : Location) :
    (fs.below location).map (fun e => (e.1, e.2.isFile))
      = fs.shape.filterMap fun e =>
        ((location.below? e.1).filter (fs.isOpenAlong location)).map (·, e.2) := by
  rw [below, shape, List.map_filterMap, List.filterMap_map]
  refine List.filterMap_congr fun e _ => ?_
  obtain ⟨inner, entry⟩ := e
  exact Option.map_map _ _ _

theorem filterMap_eq_of_map_eq {α β γ : Type} {f : α → β} {g : α → Option γ} {as bs : List α}
    (h : bs.map f = as.map f) (hg : ∀ a b, f b = f a → g b = g a) :
    bs.filterMap g = as.filterMap g := by
  induction as generalizing bs with
  | nil =>
    rw [List.map_nil, List.map_eq_nil_iff] at h
    rw [h]
  | cons a as ih =>
    obtain ⟨b, bs, rfl, hb, hbs⟩ := List.map_eq_cons_iff.mp h
    rw [List.filterMap_cons, List.filterMap_cons, hg a b hb, ih hbs]

variable {fs fs' : FileSystem}

namespace SameShape

theorem refl (fs : FileSystem) : SameShape fs fs := ⟨rfl, rfl⟩

theorem symm (h : SameShape fs fs') : SameShape fs' fs := ⟨h.shape.symm, h.host.symm⟩

theorem trans {fs'' : FileSystem} (h : SameShape fs fs') (h' : SameShape fs' fs'') :
    SameShape fs fs'' := ⟨h'.shape.trans h.shape, h'.host.trans h.host⟩

theorem isClosed (h : SameShape fs fs') (location : Location) :
    fs'.isClosed location = fs.isClosed location := by
  rw [FileSystem.isClosed, FileSystem.isClosed, h.host]

theorem isOpenAlong (h : SameShape fs fs') (location : Location) :
    fs'.isOpenAlong location = fs.isOpenAlong location := by
  funext steps
  simp only [FileSystem.isOpenAlong, h.isClosed]

theorem entryAt? (h : SameShape fs fs') (location : Location) :
    (fs'.entryAt? location).map Entry.isFile = (fs.entryAt? location).map Entry.isFile := by
  unfold FileSystem.entryAt?
  split
  · rfl
  · rw [← lookup_shape, ← lookup_shape, h.shape]

/-- The entries at a location are files both, or directories both, or there is none. -/
theorem entries (h : SameShape fs fs') (location : Location) :
    (∃ f f', fs.entryAt? location = some (.file f) ∧ fs'.entryAt? location = some (.file f'))
      ∨ fs'.entryAt? location = fs.entryAt? location := by
  have hentry := h.entryAt? location
  cases hfs : fs.entryAt? location with
  | none =>
    rw [hfs] at hentry
    exact .inr (by simpa using hentry)
  | some entry =>
    rw [hfs] at hentry
    obtain ⟨entry', hfs', hkind⟩ := Option.map_eq_some_iff.mp hentry
    cases entry with
    | file f =>
      cases entry' with
      | file f' => exact .inl ⟨f, f', rfl, hfs'⟩
      | directory => cases hkind
    | directory =>
      cases entry' with
      | file f' => cases hkind
      | directory => exact .inr hfs'

theorem walk (h : SameShape fs fs') (here : Location) (steps : List String) :
    fs'.walk here steps = fs.walk here steps := by
  induction steps generalizing here with
  | nil => rfl
  | cons step steps ih =>
    have hnext : (fs'.entryAt? (here ++ [step])).isSome
        = (fs.entryAt? (here ++ [step])).isSome := by
      have hmap := congrArg Option.isSome (h.entryAt? (here ++ [step]))
      rwa [Option.isSome_map, Option.isSome_map] at hmap
    rw [FileSystem.walk, FileSystem.walk, h.isClosed, hnext, ih, ih, ih]
    rcases h.entries here with ⟨f, f', hf, hf'⟩ | heq
    · rw [hf, hf']
    · rw [heq]

theorem locate (h : SameShape fs fs') (path : String) : fs'.locate path = fs.locate path := by
  unfold FileSystem.locate
  split
  · rfl
  · exact h.walk _ _

theorem refusal? (h : SameShape fs fs') (path : String) : fs'.refusal? path = fs.refusal? path := by
  rw [FileSystem.refusal?, FileSystem.refusal?, h.locate, h.host]

/-- The same paths lead to files. -/
theorem fileAt (h : SameShape fs fs') (path : String) :
    (∃ f f', fs.fileAt path = .ok f ∧ fs'.fileAt path = .ok f')
      ∨ fs'.fileAt path = fs.fileAt path := by
  unfold FileSystem.fileAt
  rw [h.locate]
  cases fs.locate path with
  | error fault => exact .inr rfl
  | ok location =>
    dsimp only
    rcases h.entries location with ⟨f, f', hf, hf'⟩ | heq
    · exact .inl ⟨f, f', by rw [hf], by rw [hf']⟩
    · exact .inr (by rw [heq])

theorem probe (h : SameShape fs fs') (path : String) :
    (fs'.probe path).map (·.map Entry.isFile) = (fs.probe path).map (·.map Entry.isFile) := by
  unfold FileSystem.probe
  rw [h.locate]
  split
  · exact congrArg Except.ok (h.entryAt? _)
  · rfl
  · rfl
  · rfl

theorem isFile (h : SameShape fs fs') (path : String) : fs'.isFile path = fs.isFile path := by
  have hfile : ∀ fs : FileSystem, fs.isFile path
      = ((fs.probe path).map (·.map Entry.isFile)).map (· == some true) := by
    intro fs
    unfold FileSystem.isFile
    cases fs.probe path with
    | error e => rfl
    | ok found =>
      cases found with
      | none => rfl
      | some entry => cases entry <;> rfl
  rw [hfile, hfile, h.probe]

theorem isDirectory (h : SameShape fs fs') (path : String) :
    fs'.isDirectory path = fs.isDirectory path := by
  have hdirectory : ∀ fs : FileSystem, fs.isDirectory path
      = ((fs.probe path).map (·.map Entry.isFile)).map (· == some false) := by
    intro fs
    unfold FileSystem.isDirectory
    cases fs.probe path with
    | error e => rfl
    | ok found =>
      cases found with
      | none => rfl
      | some entry => cases entry <;> rfl
  rw [hdirectory, hdirectory, h.probe]

theorem exists? (h : SameShape fs fs') (path : String) : fs'.exists? path = fs.exists? path := by
  have hexists : ∀ fs : FileSystem, fs.exists? path
      = ((fs.probe path).map (·.map Entry.isFile)).map (·.isSome) := by
    intro fs
    unfold FileSystem.exists?
    cases fs.probe path with
    | error e => rfl
    | ok found => cases found <;> rfl
  rw [hexists, hexists, h.probe]

theorem listing (h : SameShape fs fs') (path : Path) :
    (fs'.listing path).map (fun e => (e.1, e.2.isFile))
      = (fs.listing path).map fun e => (e.1, e.2.isFile) := by
  unfold FileSystem.listing
  rw [h.locate]
  split
  · rw [map_below, map_below, h.shape, h.isOpenAlong]
  · rfl

/-- The same reference files stand below a directory. -/
theorem referencesBelow (h : SameShape fs fs') (path : Path) :
    fs'.referencesBelow path = fs.referencesBelow path := by
  unfold FileSystem.referencesBelow
  congr 1
  refine filterMap_eq_of_map_eq (h.listing path) ?_
  rintro ⟨location, entry⟩ ⟨location', entry'⟩ heq
  obtain ⟨rfl, hkind⟩ := Prod.mk.inj heq
  cases entry with
  | file f =>
    cases entry' with
    | file f' => rfl
    | directory => cases hkind
  | directory =>
    cases entry' with
    | file f' => cases hkind
    | directory => rfl

theorem referenceFiles (h : SameShape fs fs') (path : Path) :
    fs'.referenceFiles path = fs.referenceFiles path := by
  rw [FileSystem.referenceFiles, FileSystem.referenceFiles, h.isDirectory, h.referencesBelow]

end SameShape

/-! ## Writing -/

theorem map_upsert {α β γ : Type} [BEq α] [LawfulBEq α] {f : β → γ} {k : α} {v v' : β}
    {l : List (α × β)} (h : l.lookup k = some v) (hf : f v' = f v) :
    (upsert k v' l).map (fun e => (e.1, f e.2)) = l.map fun e => (e.1, f e.2) := by
  induction l with
  | nil => cases h
  | cons e l ih =>
    obtain ⟨k₁, v₁⟩ := e
    rw [upsert]
    by_cases hk : k₁ = k
    · rw [if_pos (beq_iff_eq.mpr hk)]
      rw [List.lookup_cons, hk, beq_self_eq_true] at h
      cases h
      rw [List.map_cons, List.map_cons, hf]
    · rw [if_neg (by simpa using hk), List.map_cons, List.map_cons, ih]
      rwa [List.lookup_cons, beq_false_of_ne (Ne.symm hk)] at h

section Put

variable {location : Location} {f : File} (h : fs.entryAt? location = some (.file f))
  (content : ByteArray) (stamp : Option Stamp)

include h

theorem sameShape_put : SameShape fs (fs.put location content stamp) := by
  unfold entryAt? at h
  split at h
  · cases h
  · exact ⟨map_upsert h rfl, rfl⟩

/-- What is found at a location after a file was written. -/
theorem entryAt?_put (location' : Location) : (fs.put location content stamp).entryAt? location'
    = if location' = location then some (.file ⟨content, stamp.getD (.write fs.writes)⟩)
      else fs.entryAt? location' := by
  unfold entryAt? at h ⊢
  split at h
  · cases h
  next habove =>
  by_cases hsame : location' = location
  · rw [if_pos hsame, hsame, if_neg habove]
    exact lookup_upsert_self _ _ _
  · rw [if_neg hsame]
    split
    · rfl
    · exact lookup_upsert_of_ne hsame _ _

/-- What is found at a path after a file was written: the new content if the path leads to that
file, and what was found before if it does not. -/
theorem fileAt_put (path : String) : (fs.put location content stamp).fileAt path
    = if fs.locate path = .ok location then .ok ⟨content, stamp.getD (.write fs.writes)⟩
      else fs.fileAt path := by
  unfold fileAt
  rw [(sameShape_put h content stamp).locate]
  cases fs.locate path with
  | error fault => rw [if_neg (by simp)]
  | ok there =>
    dsimp only
    rw [entryAt?_put h]
    by_cases hsame : there = location
    · rw [if_pos hsame, if_pos (congrArg Except.ok hsame)]
    · rw [if_neg hsame, if_neg (fun heq => hsame (Except.ok.inj heq))]

end Put

theorem Change.run_get_bind {α : Type} (k : FileSystem → Change α) (fs : FileSystem) :
    (get >>= k : Change α).run.run fs = (k fs).run.run fs := rfl

/-- The ways in which a write ends: the file is written, or it is not opened, or a beginning of what
was to be written is left. -/
theorem run_overwrite {name : String} {location : Location} {f : File}
    (hlocate : fs.locate name = .ok location) (h : fs.entryAt? location = some (.file f))
    (content : ByteArray) :
    fs.host.writing location fs.writes = none
        ∧ (Change.overwrite name content).run.run fs = (.ok (), fs.put location content none)
      ∨ (∃ reason, fs.host.writing location fs.writes = some ⟨reason, none⟩
        ∧ (Change.overwrite name content).run.run fs
          = (.error ⟨name, .refused ⟨reason, false⟩⟩, fs))
      ∨ ∃ reason written, fs.host.writing location fs.writes = some ⟨reason, some written⟩
        ∧ (Change.overwrite name content).run.run fs
          = (.error ⟨name, .refused ⟨reason, true⟩⟩,
            fs.put location (content.extract 0 written) none) := by
  cases hwriting : fs.host.writing location fs.writes with
  | none =>
    refine .inl ⟨rfl, ?_⟩
    simp only [Change.overwrite, Change.run_get_bind, hlocate, h, hwriting]
    rfl
  | some failed =>
    obtain ⟨reason, written⟩ := failed
    cases written with
    | none =>
      refine .inr (.inl ⟨reason, rfl, ?_⟩)
      simp only [Change.overwrite, Change.run_get_bind, hlocate, h, hwriting]
      rfl
    | some written =>
      refine .inr (.inr ⟨reason, written, rfl, ?_⟩)
      simp only [Change.overwrite, Change.run_get_bind, hlocate, h, hwriting]
      rfl

end FileSystem

end NullableMarker
