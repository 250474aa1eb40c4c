import NullableMarker.Proofs.AnnotatedUnits
import NullableMarker.Proofs.Scans

/-!
# Conditional groups along a scan

The directives of a scan open, switch and close groups, and the branches of the groups that are open
can be told from the steps taken so far. Whatever was scanned, the branch of a group that is active
is the first whose condition held when it was come to, and there is none in text that is not active.
Tokens are found and symbols changed only where every open group is active.

* `openBranches` — the branches of the open groups, by the steps taken
* `GroupsFollow` — the open groups and their branches obey the rule
* `Region.Moves` — what a directive can do
* `scan_follows_rule` — every state of every scan
-/

namespace NullableMarker

open Text

/-! ## Branches -/

/-- A branch that was come to. -/
structure Branch where
  /-- The condition of the branch; `#else` has none. -/
  condition : Option (List Char)
  /-- The symbols that were defined then. -/
  symbols : List String
  /-- The text after the directive was active. -/
  active : Bool

/-- The condition of the branch held when it was come to. -/
def Branch.holds (b : Branch) : Bool :=
  match b.condition with
  | none => true
  | some condition =>
    match Condition.ofText condition with
    | .ok condition => condition.eval b.symbols
    | .error _ => false

/-- The branches of the open groups after a directive. Both the groups and the branches of each come
with the latest first. -/
def Directive.branches (d : Directive) (before after : Region) (groups : List (List Branch)) :
    List (List Branch) :=
  if d.name == "if" then [⟨some d.argument, before.symbols, after.isActive⟩] :: groups
  else if d.name == "elif" then
    groups.modifyHead (⟨some d.argument, before.symbols, after.isActive⟩ :: ·)
  else if d.name == "else" then groups.modifyHead (⟨none, before.symbols, after.isActive⟩ :: ·)
  else if d.name == "endif" then groups.tail
  else groups

/-- The branches of the groups that are open after some steps. -/
def openBranches : List ScanStep → List (List Branch)
  | [] => []
  | step :: steps =>
    if step.lexeme.kind = .trivia .directive then
      (Directive.ofText step.lexeme.text).branches step.before.region step.after.region
        (openBranches steps)
    else openBranches steps

theorem Region.holds_branch {st : Region} {condition : List Char} {chosen : Bool}
    (h : st.holds condition = .ok chosen) (active : Bool) :
    (Branch.mk (some condition) st.symbols active).holds = chosen := by
  obtain ⟨k, hk, rfl⟩ := ok_of_map h
  rw [Branch.holds]
  dsimp only
  rw [hk]

/-! ## The rule -/

/-- A group obeys the rule, with the branches of it that were come to. -/
structure Group.Follows (g : Group) (branches : List Branch) : Prop where
  /-- The group is as active as its latest branch was. -/
  present : branches.head?.map (·.active) = some g.active
  active_parent : g.active = true → g.parentActive = true
  active_taken : g.active = true → g.taken = true
  /-- In active text, a branch is chosen if it is the first whose condition held. -/
  chosen : g.parentActive = true → ∀ later b earlier, branches = later ++ b :: earlier →
    (b.active = true ↔ b.holds = true ∧ ∀ e ∈ earlier, e.holds = false)
  taken_iff : g.parentActive = true → (g.taken = true ↔ ∃ b ∈ branches, b.holds = true)
  /-- Elsewhere none is. -/
  unchosen : g.parentActive = false → ∀ b ∈ branches, b.active = false

/-- Groups, the innermost first, and the branches of each: the text around a group is active if the
group around it is. -/
inductive GroupsFollow : List Group → List (List Branch) → Prop
  | none : GroupsFollow [] []
  | group {g : Group} {outer : List Group} {branches : List Branch} {rest : List (List Branch)}
      (parent : g.parentActive = outer.head?.all (·.active)) (rule : g.Follows branches)
      (below : GroupsFollow outer rest) : GroupsFollow (g :: outer) (branches :: rest)

namespace Group.Follows

variable {g : Group} {branches : List Branch}

/-- No branch is active after one that was. -/
theorem once (h : g.Follows branches) :
    branches.Pairwise fun later earlier => earlier.active = true → later.active = false := by
  cases hparent : g.parentActive with
  | false =>
    refine List.pairwise_of_forall_mem_list fun later hlater _ _ _ => ?_
    exact h.unchosen hparent later hlater
  | true =>
    have hchosen := h.chosen hparent
    clear h
    induction branches with
    | nil => exact .nil
    | cons b earlier ih =>
      refine .cons (fun e he hactive => ?_) (ih fun later b' earlier' heq => ?_)
      · -- what was active held, so what comes later is not the first that does
        obtain ⟨between, before, rfl⟩ := List.append_of_mem he
        have hholds := ((hchosen (b :: between) e before rfl).mp hactive).1
        rw [← Bool.not_eq_true]
        intro hb
        have hnone := ((hchosen [] b _ rfl).mp hb).2 e he
        rw [hholds] at hnone
        cases hnone
      · exact hchosen (b :: later) b' earlier' (by rw [heq]; rfl)

/-- One more branch of a group: it is chosen if its condition holds and no branch was taken. -/
theorem cons (h : g.Follows branches) {b : Branch} {seenElse : Bool}
    (hopen : g.parentActive = true → g.taken = false → b.active = b.holds)
    (htaken : g.taken = true → b.active = false) (hshut : g.parentActive = false → b.active = false)
    {taken : Bool} (hnext : g.parentActive = true → taken = (g.taken || b.holds))
    (hactive : b.active = true → taken = true) :
    Group.Follows ⟨g.parentActive, b.active, taken, seenElse⟩ (b :: branches) where
  present := rfl
  active_parent hb := by
    show g.parentActive = true
    rw [← Bool.not_eq_false]
    intro hparent
    rw [hshut hparent] at hb
    cases hb
  active_taken := hactive
  chosen hparent later b' earlier heq := by
    cases later with
    | cons _ later =>
      obtain ⟨-, heq⟩ := List.cons.inj heq
      exact h.chosen hparent later b' earlier heq
    | nil =>
      obtain ⟨rfl, rfl⟩ := List.cons.inj heq
      have hiff := h.taken_iff hparent
      cases hg : g.taken with
      | false =>
        rw [hopen hparent hg]
        refine ⟨fun hb => ⟨hb, fun e he => ?_⟩, And.left⟩
        rw [← Bool.not_eq_true]
        intro hholds
        rw [hiff.mpr ⟨e, he, hholds⟩] at hg
        cases hg
      | true =>
        obtain ⟨e, he, hholds⟩ := hiff.mp hg
        rw [htaken hg]
        refine ⟨fun hb => absurd hb Bool.false_ne_true, fun hb => ?_⟩
        have hnone := hb.2 e he
        rw [hholds] at hnone
        cases hnone
  taken_iff hparent := by
    show taken = true ↔ _
    rw [hnext hparent, Bool.or_eq_true, h.taken_iff hparent]
    constructor
    · rintro (⟨e, he, hholds⟩ | hb)
      · exact ⟨e, List.mem_cons_of_mem b he, hholds⟩
      · exact ⟨b, List.mem_cons_self, hb⟩
    · rintro ⟨e, he, hholds⟩
      rcases List.mem_cons.mp he with rfl | he
      · exact .inr hholds
      · exact .inl ⟨e, he, hholds⟩
  unchosen hparent b' hb' := by
    rcases List.mem_cons.mp hb' with rfl | hb'
    · exact hshut hparent
    · exact h.unchosen hparent b' hb'

/-- The first branch of a group. -/
theorem first {b : Branch} {parent seenElse : Bool} (hopen : parent = true → b.active = b.holds)
    (hshut : parent = false → b.active = false) :
    Group.Follows ⟨parent, b.active, b.active, seenElse⟩ [b] where
  present := rfl
  active_parent hb := by
    show parent = true
    rw [← Bool.not_eq_false]
    intro hparent
    rw [hshut hparent] at hb
    cases hb
  active_taken := id
  chosen hparent later b' earlier heq := by
    obtain ⟨rfl, hcons⟩ | ⟨-, hnil⟩ := List.append_eq_singleton_iff.mp heq.symm
    · obtain ⟨rfl, rfl⟩ := List.cons.inj hcons
      simp [hopen hparent]
    · cases hnil
  taken_iff hparent := by simp [hopen hparent]
  unchosen hparent b' hb' := by
    rw [List.mem_singleton.mp hb']
    exact hshut hparent

end Group.Follows

theorem Region.isActive_eq (st : Region) : st.isActive = st.groups.head?.all (·.active) := by
  unfold Region.isActive
  cases st.groups <;> rfl

/-- Where text is active, all open groups are. -/
theorem GroupsFollow.all_active {groups : List Group} {opened : List (List Branch)}
    (h : GroupsFollow groups opened) (hactive : groups.head?.all (·.active) = true) :
    ∀ g ∈ groups, g.active = true := by
  induction h with
  | none => exact fun g hg => by cases hg
  | group parent rule below ih =>
    intro g hg
    rcases List.mem_cons.mp hg with rfl | hg
    · exact hactive
    · exact ih (parent ▸ rule.active_parent hactive) g hg

/-! ## Directives -/

namespace Region

/-- What a directive can do: open a group, go on to another branch of the innermost group, close it,
change the symbols, or nothing. A condition is asked only if the branch may be chosen. -/
inductive Moves (st : Region) (d : Directive) : Region → Prop
  | opens (hname : d.name = "if") {chosen : Bool}
      (hasked : st.isActive = true → st.holds d.argument = .ok chosen)
      (hunasked : st.isActive = false → chosen = false) :
      Moves st d { st with groups := ⟨st.isActive, chosen, chosen, false⟩ :: st.groups }
  | switches (hname : d.name = "elif") {g : Group} {outer : List Group} {chosen : Bool}
      (hgroups : st.groups = g :: outer)
      (hasked : g.parentActive = true → g.taken = false → st.holds d.argument = .ok chosen)
      (hunasked : g.parentActive = false ∨ g.taken = true → chosen = false) :
      Moves st d
        { st with groups := { g with active := chosen, taken := g.taken || chosen } :: outer }
  | concludes (hname : d.name = "else") {g : Group} {outer : List Group}
      (hgroups : st.groups = g :: outer) :
      Moves st d { st with
        groups := ⟨g.parentActive, g.parentActive && !g.taken, true, true⟩ :: outer }
  | closes (hname : d.name = "endif") {g : Group} {outer : List Group}
      (hgroups : st.groups = g :: outer) : Moves st d { st with groups := outer }
  | defines (hname : d.name = "define" ∨ d.name = "undef") (hactive : st.isActive = true)
      (symbols : List String) : Moves st d { st with symbols }
  | stays (hname : d.name ∉ ["if", "elif", "else", "endif"]) : Moves st d st

theorem moves_of_openGroup {st st' : Region} {d : Directive} (hname : d.name = "if")
    (h : st.openGroup d.argument = .ok st') : st.Moves d st' := by
  unfold openGroup at h
  dsimp only at h
  split at h
  · next hactive =>
    obtain ⟨chosen, hchosen, h⟩ := ok_of_bind h
    cases h
    exact .opens hname (fun _ => hchosen) fun hinactive => by rw [hactive] at hinactive; cases hinactive
  · next hinactive =>
    cases h
    exact .opens hname (fun hactive => absurd hactive hinactive) fun _ => rfl

theorem moves_of_elifBranch {st st' : Region} {d : Directive} (hname : d.name = "elif")
    (h : st.elifBranch d.argument = .ok st') : st.Moves d st' := by
  unfold elifBranch at h
  split at h
  · cases h
  · next g outer hgroups =>
    dsimp only at h
    split at h
    · cases h
    split at h
    · next hasked =>
      obtain ⟨hparent, htaken⟩ := Bool.and_eq_true_iff.mp hasked
      obtain ⟨chosen, hchosen, h⟩ := ok_of_bind h
      cases h
      refine .switches hname hgroups (fun _ _ => hchosen) ?_
      rintro (hshut | hshut)
      · rw [hparent] at hshut
        cases hshut
      · rw [hshut] at htaken
        cases htaken
    · next hunasked =>
      cases h
      refine .switches hname hgroups (fun hparent htaken => ?_) fun _ => rfl
      rw [hparent, htaken] at hunasked
      exact absurd rfl hunasked

theorem moves_of_apply {st st' : Region} {d : Directive} (h : st.apply d = .ok st') :
    st.Moves d st' := by
  unfold apply at h
  split at h
  · next hname => exact moves_of_openGroup (eq_of_beq hname) h
  split at h
  · next hname => exact moves_of_elifBranch (eq_of_beq hname) h
  split at h
  · next hname =>
    unfold elseBranch at h
    split at h
    · cases h
    · next g outer hgroups =>
      split at h
      · cases h
      · cases h
        exact .concludes (eq_of_beq hname) hgroups
  split at h
  · next hname =>
    unfold closeGroup at h
    split at h
    · cases h
    · next g outer hgroups =>
      cases h
      exact .closes (eq_of_beq hname) hgroups
  split at h
  · next hname =>
    obtain ⟨hname, hactive⟩ := Bool.and_eq_true_iff.mp hname
    cases h
    have hdefine : st.define (String.ofList d.argument)
        = { st with symbols := (st.define (String.ofList d.argument)).symbols } := by
      unfold define
      split <;> rfl
    rw [hdefine]
    exact .defines (.inl (eq_of_beq hname)) hactive _
  split at h
  · next hname =>
    obtain ⟨hname, hactive⟩ := Bool.and_eq_true_iff.mp hname
    cases h
    exact .defines (.inr (eq_of_beq hname)) hactive _
  · next hif helif helse hendif _ _ =>
    cases h
    refine .stays ?_
    simp only [beq_iff_eq] at hif helif helse hendif
    simp [hif, helif, helse, hendif]

/-- A directive keeps to the rule. -/
theorem Moves.groupsFollow {st st' : Region} {d : Directive} (h : st.Moves d st')
    {groups : List (List Branch)} (hfollow : GroupsFollow st.groups groups) :
    GroupsFollow st'.groups (d.branches st st' groups) := by
  cases h with
  | @opens hname chosen hasked hunasked =>
    rw [Directive.branches, hname, if_pos (by decide)]
    refine .group st.isActive_eq (.first (b := ⟨some d.argument, st.symbols, chosen⟩)
      (fun hactive => ?_) hunasked) hfollow
    exact (holds_branch (hasked hactive) _).symm
  | @switches hname g outer chosen hgroups hasked hunasked =>
    rw [Directive.branches, hname, if_neg (by decide), if_pos (by decide)]
    rw [hgroups] at hfollow
    cases hfollow with
    | group parent rule below =>
      refine .group parent (rule.cons (b := ⟨some d.argument, st.symbols, chosen⟩)
        (fun hparent htaken => ?_) ?_ ?_ ?_ ?_) below
      · exact (holds_branch (hasked hparent htaken) _).symm
      · exact fun htaken => hunasked (.inr htaken)
      · exact fun hparent => hunasked (.inl hparent)
      · intro hparent
        cases htaken : g.taken with
        | true => simp
        | false => exact congrArg (false || ·) (holds_branch (hasked hparent htaken) _).symm
      · intro hactive
        show (g.taken || chosen) = true
        rw [show chosen = true from hactive, Bool.or_true]
  | @concludes hname g outer hgroups =>
    rw [Directive.branches, hname, if_neg (by decide), if_neg (by decide), if_pos (by decide)]
    rw [hgroups] at hfollow
    cases hfollow with
    | group parent rule below =>
      refine .group parent (rule.cons (b := ⟨none, st.symbols, g.parentActive && !g.taken⟩)
        (fun hparent htaken => ?_) ?_ ?_ ?_ ?_) below
      · show (g.parentActive && !g.taken) = true
        rw [hparent, htaken]
        rfl
      · intro htaken
        show (g.parentActive && !g.taken) = false
        rw [htaken, Bool.not_true, Bool.and_false]
      · intro hparent
        show (g.parentActive && !g.taken) = false
        rw [hparent, Bool.false_and]
      · intro _
        show true = (g.taken || true)
        rw [Bool.or_true]
      · exact fun _ => rfl
  | closes hname hgroups =>
    rw [Directive.branches, hname, if_neg (by decide), if_neg (by decide), if_neg (by decide),
      if_pos (by decide)]
    rw [hgroups] at hfollow
    cases hfollow with
    | group parent rule below => exact below
  | defines hname hactive symbols =>
    have hbranches : ∀ st', d.branches st st' groups = groups := by
      intro st'
      rcases hname with hname | hname <;> rw [Directive.branches, hname] <;> rfl
    rw [hbranches]
    exact hfollow
  | stays hname =>
    simp only [List.mem_cons, List.not_mem_nil, or_false, not_or] at hname
    obtain ⟨hif, helif, helse, hendif⟩ := hname
    rw [Directive.branches, if_neg (by simpa using hif), if_neg (by simpa using helif),
      if_neg (by simpa using helse), if_neg (by simpa using hendif)]
    exact hfollow

/-- Symbols change only where text is active. -/
theorem Moves.isActive {st st' : Region} {d : Directive} (h : st.Moves d st')
    (hne : st'.symbols ≠ st.symbols) : st.isActive = true := by
  cases h with
  | defines hname hactive symbols => exact hactive
  | _ => exact absurd rfl hne

/-- A group that is opened where text is not active asks for no condition. -/
theorem openGroup_unasked {st : Region} (h : st.isActive = false) (condition condition' : List Char) :
    st.openGroup condition = st.openGroup condition' := by
  unfold openGroup
  dsimp only
  rw [h]
  rfl

/-- Nor does a further branch of it. -/
theorem elifBranch_unasked {st : Region} {g : Group} {outer : List Group}
    (hgroups : st.groups = g :: outer) (h : g.parentActive = false)
    (condition condition' : List Char) : st.elifBranch condition = st.elifBranch condition' := by
  unfold elifBranch
  rw [hgroups]
  dsimp only
  rw [h]
  rfl

end Region

theorem GroupsFollow.once {groups : List Group} {opened : List (List Branch)}
    (h : GroupsFollow groups opened) : ∀ branches ∈ opened,
      branches.Pairwise fun later earlier => earlier.active = true → later.active = false := by
  induction h with
  | none => exact fun branches hbranches => by cases hbranches
  | group parent rule below ih =>
    intro branches hbranches
    rcases List.mem_cons.mp hbranches with rfl | hbranches
    · exact rule.once
    · exact ih branches hbranches

/-! ## States of scans -/

/-- What a step does to the region. -/
structure ScanStep.Sound (step : ScanStep) : Prop where
  directive : step.lexeme.kind = .trivia .directive →
    step.before.region.Moves (Directive.ofText step.lexeme.text) step.after.region
  other : step.lexeme.kind ≠ .trivia .directive → step.after.region = step.before.region
  token : ∀ kind, step.lexeme.kind = .token kind → step.before.region.isActive = true

theorem ScanState.apply_of_regionAfter {st : ScanState} {text : List Char} {region : Region}
    (h : st.regionAfter (.trivia .directive) text = .ok region) :
    st.region.apply (Directive.ofText text) = .ok region := by
  unfold regionAfter at h
  cases happly : st.region.apply (Directive.ofText text) with
  | ok region' =>
    rw [happly] at h
    exact congrArg Except.ok (Except.ok.inj h)
  | error cause =>
    rw [happly] at h
    cases h

theorem ScanState.step_sound {st : ScanState} {c : Char} {r rest : List Char} {step : ScanStep}
    (h : st.step c r = .ok (step, rest)) : step.before = st ∧ step.Sound := by
  obtain ⟨kind, extra, region, hahead, hregion, rfl, -⟩ := step_ok h
  refine ⟨rfl, fun hkind => ?_, fun hkind => ?_, fun token hkind => ?_⟩
  · obtain rfl : kind = .trivia .directive := hkind
    exact Region.moves_of_apply (apply_of_regionAfter hregion)
  · exact isActive_of_regionAfter hregion hkind
  · obtain rfl : kind = .token token := hkind
    exact active_of_token hahead

namespace Reaches

variable {start st : ScanState} {source rest : List Char} {steps : List ScanStep}

/-- Every step was taken in a state that the scan had come to. -/
theorem of_mem (h : Reaches start source steps st rest) {step : ScanStep} (hstep : step ∈ steps) :
    step.Sound ∧ ∃ earlier rest', Reaches start source earlier step.before rest' := by
  induction h with
  | start => cases hstep
  | @step steps st c r rest last h hlast ih =>
    rcases List.mem_cons.mp hstep with rfl | hstep
    · obtain ⟨hbefore, hsound⟩ := ScanState.step_sound hlast
      exact ⟨hsound, steps, c :: r, hbefore ▸ h⟩
    · exact ih hstep

/-- In every state the open groups obey the rule. -/
theorem groupsFollow (h : Reaches start source steps st rest) (hstart : start.region.groups = []) :
    GroupsFollow st.region.groups (openBranches steps) := by
  induction h with
  | start =>
    rw [hstart]
    exact .none
  | @step steps st c r rest step h hstep ih =>
    obtain ⟨rfl, hsound⟩ := ScanState.step_sound hstep
    rw [openBranches]
    split
    · next hkind => exact (hsound.directive hkind).groupsFollow ih
    · next hkind =>
      rw [hsound.other hkind]
      exact ih

/-- Tokens are found and symbols changed only where all open groups are active. -/
theorem all_active (h : Reaches start source steps st rest) (hstart : start.region.groups = [])
    {step : ScanStep} (hstep : step ∈ steps) (heffect : (∃ kind, step.lexeme.kind = .token kind)
      ∨ step.after.region.symbols ≠ step.before.region.symbols) :
    ∀ g ∈ step.before.region.groups, g.active = true := by
  obtain ⟨hsound, earlier, rest', hreaches⟩ := h.of_mem hstep
  refine (hreaches.groupsFollow hstart).all_active ?_
  rw [← Region.isActive_eq]
  rcases heffect with ⟨kind, hkind⟩ | hne
  · exact hsound.token kind hkind
  · by_cases hkind : step.lexeme.kind = .trivia .directive
    · exact (hsound.directive hkind).isActive hne
    · rw [hsound.other hkind] at hne
      exact absurd rfl hne

end Reaches

/-- The tokens of a source come from the steps of its scan, whatever part of it is done. -/
theorem exists_steps_of_ofSource {defined : List String} {source : String} {steps : List ScanStep}
    {st : ScanState} {rest : List Char}
    (h : Reaches { region := Region.start defined } source.toList steps st rest)
    {stream : TokenStream} (hstream : TokenStream.ofSource source defined = .ok stream) :
    ∃ more final, Reaches { region := Region.start defined } source.toList (more ++ steps) final []
      ∧ ∀ t ∈ stream.tokens, ∃ step ∈ more ++ steps, step.lexeme.kind = .token t.kind
        ∧ t.value = String.ofList step.lexeme.text ∧ t.offset = some step.lexeme.offset := by
  obtain ⟨pieces, hcut, rfl⟩ := ok_of_map hstream
  rw [h.cut_eq] at hcut
  obtain ⟨ahead, hahead, rfl⟩ := ok_of_map hcut
  obtain ⟨more, hmore, hlexemes⟩ := h.exists_end hahead
  refine ⟨more, ahead.final, hmore, fun t ht => ?_⟩
  obtain ⟨l, hl, hkind, hvalue, hoffset, -⟩ := exists_lexeme_of_mem_attach [] _ ht
  have hmem : l ∈ (more ++ steps).map (·.lexeme) := by
    rw [Cut.prepend, ← hlexemes, ← List.reverse_append, ← List.map_append, List.mem_reverse] at hl
    exact hl
  obtain ⟨step, hstep, rfl⟩ := List.mem_map.mp hmem
  exact ⟨step, hstep, hkind, hvalue, hoffset⟩

/-- Conditional compilation follows the rule in every state that a scan comes to, whether the scan
ends well or not: of each group the first branch whose condition held is active, and none where the
text around the group is not; no branch is active after another one was; conditions are not asked in
text that is not active; and tokens are found, and symbols changed, only in steps from states in which
all open groups are active. -/
theorem scan_follows_rule {defined : List String} {source : String} {steps : List ScanStep}
    {st : ScanState} {rest : List Char}
    (h : Reaches { region := Region.start defined } source.toList steps st rest) :
    GroupsFollow st.region.groups (openBranches steps)
      ∧ (∀ branches ∈ openBranches steps,
        branches.Pairwise fun later earlier => earlier.active = true → later.active = false)
      ∧ (st.region.isActive = false →
        ∀ condition condition', st.region.openGroup condition = st.region.openGroup condition')
      ∧ (∀ g outer, st.region.groups = g :: outer → g.parentActive = false →
        ∀ condition condition', st.region.elifBranch condition = st.region.elifBranch condition')
      ∧ (∀ step ∈ steps, (∃ kind, step.lexeme.kind = .token kind)
          ∨ step.after.region.symbols ≠ step.before.region.symbols →
        ∀ g ∈ step.before.region.groups, g.active = true)
      ∧ ∀ stream, TokenStream.ofSource source defined = .ok stream → ∃ more final,
        Reaches { region := Region.start defined } source.toList (more ++ steps) final []
          ∧ ∀ t ∈ stream.tokens, ∃ step ∈ more ++ steps, step.lexeme.kind = .token t.kind
            ∧ t.value = String.ofList step.lexeme.text ∧ t.offset = some step.lexeme.offset
            ∧ ∀ g ∈ step.before.region.groups, g.active = true := by
  have hfollow := h.groupsFollow rfl
  refine ⟨hfollow, hfollow.once, fun hinactive => Region.openGroup_unasked hinactive,
    fun g outer hgroups hparent => Region.elifBranch_unasked hgroups hparent,
    fun step hstep heffect => h.all_active rfl hstep heffect, fun stream hstream => ?_⟩
  obtain ⟨more, final, hmore, htokens⟩ := exists_steps_of_ofSource h hstream
  refine ⟨more, final, hmore, fun t ht => ?_⟩
  obtain ⟨step, hstep, hkind, hvalue, hoffset⟩ := htokens t ht
  exact ⟨step, hstep, hkind, hvalue, hoffset, hmore.all_active rfl hstep (.inl ⟨_, hkind⟩)⟩

/-- The token of a branch whose condition holds. -/
theorem scan_follows_rule_if :
    ∃ steps st, Reaches { region := Region.start ["A"] } "#if A\nx\n#endif".toList steps st []
      ∧ (steps.map fun step => (step.lexeme.kind, step.lexeme.text)).reverse
        = [(.trivia .directive, "#if A".toList), (.trivia .endOfLine, ['\n']),
          (.token .identifier, ['x']), (.trivia .endOfLine, ['\n']),
          (.trivia .directive, "#endif".toList)]
      ∧ GroupsFollow st.region.groups (openBranches steps)
      ∧ ∀ step ∈ steps, step.lexeme.kind = .token .identifier →
        ∀ g ∈ step.before.region.groups, g.active = true := by
  have hcut : ((cut { region := Region.start ["A"] } "#if A\nx\n#endif".toList).toOption.map
      fun pieces => pieces.lexemes.map fun l => (l.kind, l.text))
      = some [(.trivia .directive, "#if A".toList), (.trivia .endOfLine, ['\n']),
          (.token .identifier, ['x']), (.trivia .endOfLine, ['\n']),
          (.trivia .directive, "#endif".toList)] := by
    decide +kernel
  obtain ⟨pieces, hcut, hpieces⟩ := Option.map_eq_some_iff.mp hcut
  obtain ⟨steps, hreaches, hlexemes⟩ := Reaches.start.exists_end (ok_of_toOption hcut)
  rw [List.append_nil] at hreaches
  obtain ⟨hfollow, -, -, -, heffect, -⟩ := scan_follows_rule hreaches
  refine ⟨steps, pieces.final, hreaches, ?_, hfollow, fun step hstep hkind => ?_⟩
  · rw [← hpieces, ← hlexemes, List.map_reverse, List.map_map]
    rfl
  · exact heffect step hstep (.inl ⟨_, hkind⟩)

end NullableMarker
