import Mathlib.Data.List.Forall2
import Mathlib.Data.List.Nodup
import NullableMarker.Annotate
import NullableMarker.Proofs.Marking

/-!
# The annotated text

The annotated text of a source is the source with a question mark put in after the type of each
declaration that is decided to be optional and has no mark yet, behind the header if that was
missing. Nothing else changes.

* `withMarks` — a text with question marks put in
* `Environment.marked_verdictsOf` — a declaration is marked by its own decision
* `annotate_exact` — the text
-/

namespace NullableMarker

/-! ## Texts with marks -/

/-- The text from offset `n` on, with a question mark put in at each of some offsets. -/
def withMarks (offsets : List Nat) (n : Nat) : List Char → List Char
  | [] => if n ∈ offsets then ['?'] else []
  | c :: cs =>
    if n ∈ offsets then '?' :: c :: withMarks offsets (n + 1) cs
    else c :: withMarks offsets (n + 1) cs

section Marks

variable {offsets offsets' : List Nat} {n : Nat}

/-- Offsets before the text do not matter. -/
theorem withMarks_congr (cs : List Char)
    (h : ∀ s, n ≤ s → (s ∈ offsets ↔ s ∈ offsets')) :
    withMarks offsets n cs = withMarks offsets' n cs := by
  induction cs generalizing n with
  | nil => simp only [withMarks, h n (Nat.le_refl n)]
  | cons c cs ih =>
    rw [withMarks, withMarks, ih fun s hs => h s (by omega)]
    simp only [h n (Nat.le_refl n)]

/-- Text without a mark is kept. -/
theorem withMarks_append (as bs : List Char)
    (h : ∀ s, n ≤ s → s < n + as.length → s ∉ offsets) :
    withMarks offsets n (as ++ bs) = as ++ withMarks offsets (n + as.length) bs := by
  induction as generalizing n with
  | nil => rfl
  | cons a as ih =>
    have hn : n ∉ offsets := h n (Nat.le_refl n) (by simp)
    rw [List.cons_append, withMarks, if_neg hn, ih, List.length_cons, List.cons_append]
    · congr 3
      omega
    · intro s hs hlt
      exact h s (by omega) (by rw [List.length_cons]; omega)

theorem withMarks_nil (n : Nat) (cs : List Char) : withMarks [] n cs = cs := by
  induction cs generalizing n with
  | nil => rfl
  | cons c cs ih => rw [withMarks, if_neg List.not_mem_nil, ih]

/-- Each offset in the text puts in one mark. -/
theorem length_withMarks (cs : List Char) (hincreasing : offsets.Pairwise (· < ·))
    (hbound : ∀ s ∈ offsets, n ≤ s ∧ s ≤ n + cs.length) :
    (withMarks offsets n cs).length = cs.length + offsets.length := by
  induction cs generalizing n offsets with
  | nil =>
    cases offsets with
    | nil => rfl
    | cons s later =>
      obtain ⟨hs, -⟩ := List.pairwise_cons.mp hincreasing
      have hbound : ∀ u ∈ s :: later, u = n := fun u hu => Nat.le_antisymm (hbound u hu).2
        (hbound u hu).1
      cases later with
      | nil =>
        obtain rfl := hbound s List.mem_cons_self
        simp [withMarks]
      | cons u later =>
        have hlt := hs u List.mem_cons_self
        rw [hbound s List.mem_cons_self, hbound u (by simp)] at hlt
        exact absurd hlt (Nat.lt_irrefl n)
  | cons c cs ih =>
    rw [List.length_cons] at hbound
    cases offsets with
    | nil => rw [withMarks_nil]; rfl
    | cons s later =>
      obtain ⟨hs, hlater⟩ := List.pairwise_cons.mp hincreasing
      have hn := hbound s List.mem_cons_self
      rcases Nat.eq_or_lt_of_le hn.1 with rfl | hlt
      · -- the mark comes first, and the others come in the text after `c`
        have hsame : withMarks (n :: later) (n + 1) cs = withMarks later (n + 1) cs := by
          refine withMarks_congr cs fun u hu => ?_
          rw [List.mem_cons, or_iff_right]
          omega
        have hbound : ∀ u ∈ later, n + 1 ≤ u ∧ u ≤ n + 1 + cs.length := by
          intro u hu
          have := hs u hu
          have := hbound u (List.mem_cons_of_mem n hu)
          omega
        rw [withMarks, if_pos List.mem_cons_self, hsame]
        simp only [List.length_cons, ih hlater hbound]
        omega
      · have hlt : ∀ u ∈ s :: later, n < u := by
          intro u hu
          rcases List.mem_cons.mp hu with rfl | hu
          · exact hlt
          · exact Nat.lt_trans hlt (hs u hu)
        have hbound : ∀ u ∈ s :: later, n + 1 ≤ u ∧ u ≤ n + 1 + cs.length := by
          intro u hu
          have := hlt u hu
          have := hbound u hu
          omega
        rw [withMarks, if_neg fun hmem => Nat.lt_irrefl n (hlt n hmem), List.length_cons,
          ih hincreasing hbound, Nat.add_right_comm]
        rfl

/-- A mark comes before the text at its offset. -/
theorem withMarks_of_mem (cs : List Char) (h : n ∈ offsets) :
    withMarks offsets n cs = '?' :: withMarks (offsets.filter (n < ·)) n cs := by
  have hnot : n ∉ offsets.filter (n < ·) := by simp
  cases cs with
  | nil => rw [withMarks, withMarks, if_pos h, if_neg hnot]
  | cons c cs =>
    rw [withMarks, withMarks, if_pos h, if_neg hnot]
    congr 2
    refine withMarks_congr cs ?_
    intro s hs
    rw [List.mem_filter]
    simp only [decide_eq_true_eq]
    exact ⟨fun hm => ⟨hm, by omega⟩, fun hm => hm.1⟩

/-- A mark between two stretches of text without marks. -/
theorem withMarks_between (later : List Nat) (as bs cs : List Char)
    (hoffsets : ∀ s, n ≤ s → (s ∈ offsets ↔ s = n + as.length ∨ s ∈ later))
    (hlater : ∀ s ∈ later, n + as.length + bs.length < s) :
    withMarks offsets n (as ++ (bs ++ cs))
      = as ++ '?' :: (bs ++ withMarks later (n + as.length + bs.length) cs) := by
  have hmem : n + as.length ∈ offsets := (hoffsets _ (by omega)).mpr (.inl rfl)
  have hafter : ∀ s, n + as.length ≤ s →
      (s ∈ offsets.filter (n + as.length < ·) ↔ s ∈ later) := by
    intro s hs
    rw [List.mem_filter, hoffsets s (by omega), decide_eq_true_eq]
    refine ⟨?_, fun hm => ⟨.inr hm, by have := hlater s hm; omega⟩⟩
    rintro ⟨rfl | hm, hlt⟩
    · omega
    · exact hm
  rw [withMarks_append, withMarks_of_mem _ hmem, withMarks_congr _ hafter, withMarks_append]
  · intro s hs hlt hm
    have := hlater s hm
    omega
  · intro s hs hlt hm
    rcases (hoffsets s hs).mp hm with rfl | hm
    · omega
    · have := hlater s hm
      omega

end Marks

/-- The offset right after a token. -/
def Token.endOffset? (t : Token) : Option Nat := t.offset.map (· + t.value.length)

theorem Token.PlacedFrom.endOffset_gt {n : Nat} {ts : List Token} (h : Token.PlacedFrom n ts)
    {flagged : List Token} (hsub : flagged.Sublist ts) (hvalue : ∀ t ∈ flagged, t.value ≠ "") :
    ∀ s ∈ flagged.filterMap Token.endOffset?, n < s := by
  intro s hs
  obtain ⟨t, ht, hend⟩ := List.mem_filterMap.mp hs
  obtain ⟨i, hi, hle⟩ := h.offset_ge t (hsub.mem ht)
  have hpos : 0 < t.value.length := by
    rw [Nat.pos_iff_ne_zero, ne_eq, String.length_eq_zero_iff]
    exact hvalue t ht
  rw [Token.endOffset?, hi] at hend
  cases hend
  show n < i + t.value.length
  omega

theorem flaggedTokens_sublist (fs : List (Token × Bool)) :
    (flaggedTokens fs).Sublist (fs.map (·.1)) :=
  List.filter_sublist.map _

/-- The text of tokens with marks is their text, marked where the tokens that have marks end. -/
theorem fullTextOf_expand {n : Nat} {offsets : List Nat} (fs : List (Token × Bool))
    (hplaced : Token.PlacedFrom n (fs.map (·.1))) (hvalue : ∀ t ∈ flaggedTokens fs, t.value ≠ "")
    (hoffsets : ∀ s, n ≤ s →
      (s ∈ offsets ↔ s ∈ (flaggedTokens fs).filterMap Token.endOffset?)) :
    (Token.fullTextOf (expand fs)).toList
      = withMarks offsets n (Token.fullTextOf (fs.map (·.1))).toList := by
  induction fs generalizing n offsets with
  | nil =>
    have hn : n ∉ offsets := by simp [hoffsets n (Nat.le_refl n)]
    simp [withMarks, hn]
  | cons f fs ih =>
    obtain ⟨t, flag⟩ := f
    obtain ⟨hoffset, hrest⟩ := hplaced
    -- the marks of the tokens after `t` come after its full text
    have hlater : (∀ u ∈ flaggedTokens fs, u.value ≠ "") →
        ∀ s ∈ (flaggedTokens fs).filterMap Token.endOffset?, n + t.fullText.length < s :=
      hrest.endOffset_gt (flaggedTokens_sublist fs)
    rw [List.map_cons, Token.fullTextOf_cons, String.toList_append]
    cases flag with
    | false =>
      have hlater := hlater hvalue
      have hoffsets : ∀ s, n ≤ s →
          (s ∈ offsets ↔ s ∈ (flaggedTokens fs).filterMap Token.endOffset?) := hoffsets
      show (Token.fullTextOf (t :: expand fs)).toList
        = withMarks offsets n (t.fullText.toList ++ _)
      rw [Token.fullTextOf_cons, String.toList_append, withMarks_append, String.length_toList,
        ih hrest hvalue fun s hs => hoffsets s (by omega)]
      intro s hs hlt hmem
      have := hlater s ((hoffsets s hs).mp hmem)
      rw [String.length_toList] at hlt
      omega
    | true =>
      rw [flaggedTokens_flagged] at hvalue hoffsets
      have hvalue' : ∀ u ∈ flaggedTokens fs, u.value ≠ "" := fun u hu => hvalue u (by simp [hu])
      have hend : t.endOffset?
          = some (n + ((Trivia.textOf t.leading).toList ++ t.value.toList).length) := by
        have hoffset : t.offset = some (n + (Trivia.textOf t.leading).length) := hoffset
        rw [Token.endOffset?, hoffset, List.length_append, String.length_toList,
          String.length_toList, Option.map_some, Nat.add_assoc]
      have hfull : n + t.fullText.length
          = n + ((Trivia.textOf t.leading).toList ++ t.value.toList).length
            + (Trivia.textOf t.trailing).toList.length := by
        simp only [Token.fullText, String.length_append, List.length_append, String.length_toList]
        omega
      have htext : (Token.fullTextOf (expand ((t, true) :: fs))).toList
          = ((Trivia.textOf t.leading).toList ++ t.value.toList) ++ '?' ::
            ((Trivia.textOf t.trailing).toList ++ (Token.fullTextOf (expand fs)).toList) := by
        simp [Token.withMark, Token.fullText, Tree.questionMark]
      have hsource : t.fullText.toList = ((Trivia.textOf t.leading).toList ++ t.value.toList)
          ++ (Trivia.textOf t.trailing).toList := by
        simp [Token.fullText]
      show _ = withMarks offsets n (t.fullText.toList ++ _)
      rw [htext, hsource, List.append_assoc _ (Trivia.textOf t.trailing).toList,
        withMarks_between ((flaggedTokens fs).filterMap Token.endOffset?), ← hfull,
        ih hrest hvalue' fun s _ => Iff.rfl]
      · intro s hs
        rw [hoffsets s hs, List.filterMap_cons, hend]
        exact List.mem_cons
      · intro s hs
        rw [← hfull]
        exact hlater hvalue' s hs

/-! ## Decisions and verdicts -/

theorem lookup_of_mem {α β : Type} [BEq α] [LawfulBEq α] {l : List (α × β)} {k : α} {b : β}
    (hnodup : (l.map (·.1)).Nodup) (h : (k, b) ∈ l) : l.lookup k = some b := by
  induction l with
  | nil => cases h
  | cons e l ih =>
    obtain ⟨k', b'⟩ := e
    rw [List.map_cons, List.nodup_cons] at hnodup
    rcases List.mem_cons.mp h with heq | hmem
    · cases heq
      simp
    · have hne : k ≠ k' := by
        intro heq
        subst heq
        exact hnodup.1 (List.mem_map.mpr ⟨_, hmem, rfl⟩)
      rw [List.lookup_cons, beq_false_of_ne hne]
      exact ih hnodup.2 hmem

theorem upsert_of_notMem {k : Nat} {b : Bool} {l : List (Nat × Bool)} (h : k ∉ l.map (·.1)) :
    upsert k b l = l ++ [(k, b)] := by
  induction l with
  | nil => rfl
  | cons e l ih =>
    obtain ⟨k', b'⟩ := e
    rw [List.map_cons, List.mem_cons, not_or] at h
    have hne : (k' == k) = false := beq_false_of_ne (Ne.symm h.1)
    rw [upsert, hne, ih h.2]
    rfl

/-- What a decision says of its offset. -/
def Decision.verdict? (d : Decision) : Option (Nat × Bool) := d.offset.map (·, d.optional)

/-- Decisions for offsets that are new and different are put after those there are. -/
theorem foldl_upsert (ds : List Decision) (v : Verdicts)
    (h : (v.map (·.1) ++ ds.filterMap (·.offset)).Nodup) :
    ds.foldl (fun v d => match d.offset with
      | some offset => upsert offset d.optional v
      | none => v) v = v ++ ds.filterMap Decision.verdict? := by
  induction ds generalizing v with
  | nil => simp
  | cons d ds ih =>
    rw [List.foldl_cons, List.filterMap_cons, Decision.verdict?]
    rw [List.filterMap_cons] at h
    cases hd : d.offset with
    | none =>
      rw [hd] at h
      exact ih v h
    | some offset =>
      rw [hd] at h
      dsimp only at h ⊢
      have hnot : offset ∉ v.map (·.1) := by
        intro hmem
        exact (List.nodup_append.mp h).2.2 offset hmem offset (by simp) rfl
      rw [upsert_of_notMem hnot, ih]
      · simp
      · simpa using h

/-- Decisions for different offsets are kept as they are. -/
theorem verdictsOf_eq {ds : List Decision} (h : (ds.filterMap (·.offset)).Nodup) :
    verdictsOf ds = ds.filterMap Decision.verdict? := foldl_upsert ds [] h

/-- The verdict for an offset is what was decided for it. -/
theorem isOptional_verdictsOf {ds : List Decision} (h : (ds.filterMap (·.offset)).Nodup)
    {d : Decision} (hd : d ∈ ds) {n : Nat} (hn : d.offset = some n) :
    (verdictsOf ds).isOptional (some n) = d.optional := by
  have hkeys : ∀ ds : List Decision,
      (ds.filterMap Decision.verdict?).map (·.1) = ds.filterMap (·.offset) := by
    intro ds
    rw [List.map_filterMap]
    congr 1
    funext d
    cases hd : d.offset <;> simp [Decision.verdict?, hd]
  rw [verdictsOf_eq h, Verdicts.isOptional]
  rw [lookup_of_mem (b := d.optional)]
  · rfl
  · rw [List.map_reverse, List.nodup_reverse, hkeys]
    exact h
  · rw [List.mem_reverse, List.mem_filterMap]
    exact ⟨d, hd, by rw [Decision.verdict?, hn]; rfl⟩

theorem ok_of_run_bind {σ ε α β : Type} {x : StateT σ (Except ε) α} {f : α → StateT σ (Except ε) β}
    {st st' : σ} {b : β} (h : (x >>= f).run st = .ok (b, st')) :
    ∃ a st₁, x.run st = .ok (a, st₁) ∧ (f a).run st₁ = .ok (b, st') := by
  obtain ⟨⟨a, st₁⟩, ha, hb⟩ := ok_of_bind h
  exact ⟨a, st₁, ha, hb⟩

theorem exists_of_forall₂ {α β : Type} {R : α → β → Prop} {as : List α} {bs : List β}
    (h : List.Forall₂ R as bs) {a : α} (ha : a ∈ as) : ∃ b ∈ bs, R a b := by
  induction h with
  | nil => cases ha
  | cons hab _ ih =>
    rcases List.mem_cons.mp ha with rfl | ha
    · exact ⟨_, List.mem_cons_self, hab⟩
    · obtain ⟨b, hb, hab⟩ := ih ha
      exact ⟨b, List.mem_cons_of_mem _ hb, hab⟩

/-- A computation over a list gives one result for each element, in order. -/
theorem forall₂_of_ok_mapM {α β ε : Type} {f : α → Except ε β} {xs : List α} {ys : List β}
    (h : xs.mapM f = .ok ys) : List.Forall₂ (fun x y => f x = .ok y) xs ys := by
  induction xs generalizing ys with
  | nil =>
    rw [List.mapM_nil] at h
    cases h
    exact .nil
  | cons x xs ih =>
    rw [List.mapM_cons] at h
    obtain ⟨y, hy, h⟩ := ok_of_bind h
    obtain ⟨zs, hzs, h⟩ := ok_of_bind h
    cases h
    exact .cons hy (ih hzs)

/-- A run over a list gives one result for each element, in order. -/
theorem forall₂_of_mapM {α β σ ε : Type} {f : α → StateT σ (Except ε) β} {xs : List α}
    {ys : List β} {st st' : σ} (h : (xs.mapM f).run st = .ok (ys, st')) :
    List.Forall₂ (fun x y => ∃ st st', (f x).run st = .ok (y, st')) xs ys := by
  induction xs generalizing ys st with
  | nil =>
    rw [List.mapM_nil] at h
    cases h
    exact .nil
  | cons x xs ih =>
    rw [List.mapM_cons] at h
    obtain ⟨y, st₁, hy, h⟩ := ok_of_run_bind h
    obtain ⟨zs, st₂, hzs, h⟩ := ok_of_run_bind h
    cases h
    exact .cons ⟨st, st₁, hy⟩ (ih hzs)

/-- A decision is about its site. -/
theorem Site.judgeAloud_ok {p : Profile} {s : Site} {st st' : Resolution} {d : Decision}
    (h : (s.judgeAloud p).run st = .ok (d, st')) :
    d.kind = s.kind ∧ d.name = s.name ∧ d.offset = s.offset? ∧ d.line = s.line := by
  obtain ⟨d', st₁, hjudge, h⟩ := ok_of_run_bind h
  obtain ⟨u, st₂, -, h⟩ := ok_of_run_bind h
  cases h
  obtain ⟨ruling, st₃, -, hjudge⟩ := ok_of_run_bind hjudge
  cases ruling with
  | none =>
    cases hjudge
    exact ⟨rfl, rfl, rfl, rfl⟩
  | some ruling =>
    obtain ⟨optional, st₄, -, hjudge⟩ := ok_of_run_bind hjudge
    cases hjudge
    exact ⟨rfl, rfl, rfl, rfl⟩

namespace Environment

variable {env : Environment} {p : Profile} {ds : List Decision}

/-- There is one decision for each site, in order. -/
theorem forall₂_decisions (h : env.decisions p = .ok ds) :
    List.Forall₂ (fun s d => d.kind = s.kind ∧ d.name = s.name ∧ d.offset = s.offset?
      ∧ d.line = s.line) env.sites ds := by
  obtain ⟨⟨ds', st⟩, hrun, rfl⟩ := ok_of_map h
  refine (forall₂_of_mapM hrun).imp ?_
  rintro s d ⟨st, st', hd⟩
  exact Site.judgeAloud_ok hd

end Environment

namespace Tree

/-- The offset right after the declared type. -/
def typeEndOffset? (t : Tree) : Option Nat := t.typeEnd?.bind (·.endOffset?)

end Tree

/-- The declarations that are decided to be optional and have a type without a mark, given the
decisions for all. -/
def toMark (sites : List Tree) (ds : List Decision) : List Tree :=
  ((sites.zip ds).filter fun x => x.2.optional && x.1.needsMark).map (·.1)

/-- A declaration is marked by its own decision. -/
theorem marked_eq_toMark {v : Verdicts} {sites : List Tree} {ds : List Decision}
    (h : List.Forall₂ (fun n d => v.isOptional n.offset? = d.optional) sites ds) :
    Tree.marked v sites = toMark sites ds := by
  induction h with
  | nil => rfl
  | @cons n d sites ds hd hrest ih =>
    rw [Tree.marked, List.filter_cons, hd, toMark, List.zip_cons_cons, List.filter_cons]
    dsimp only
    split
    · rw [List.map_cons, ← toMark, ← ih, Tree.marked]
    · rw [← toMark, ← ih, Tree.marked]

/-- The offsets of declarations that start one after another increase. -/
theorem offsets_increasing {sites : List Tree} (h : sites.Pairwise Tree.StartsBefore) :
    (sites.filterMap (·.offset?)).Pairwise (· < ·) := by
  rw [List.pairwise_filterMap]
  refine h.imp ?_
  rintro a b ⟨i, j, hi, hj, hlt⟩ i' hi' j' hj'
  rw [hi] at hi'
  rw [hj] at hj'
  cases hi'
  cases hj'
  exact hlt

theorem filterMap_offset {sites : List Tree} {ds : List Decision}
    (h : List.Forall₂ (fun n d => d.offset = n.offset?) sites ds) :
    ds.filterMap (·.offset) = sites.filterMap (·.offset?) := by
  induction h with
  | nil => rfl
  | cons hd _ ih => rw [List.filterMap_cons, List.filterMap_cons, hd, ih]

/-- Decisions for the declarations of a source have different offsets. -/
theorem nodup_offsets {root : Tree} {source : String} (hroot : root.IsTreeOf source)
    {ds : List Decision} (h : List.Forall₂ (fun n d => d.offset = n.offset?) root.sites ds) :
    (ds.filterMap (·.offset)).Nodup := by
  rw [filterMap_offset h]
  exact (offsets_increasing hroot.sites_startsBefore).imp Nat.ne_of_lt

/-- The verdict found for a declaration is what was decided for it. -/
theorem forall₂_isOptional {root : Tree} {source : String} (hroot : root.IsTreeOf source)
    {ds : List Decision} (h : List.Forall₂ (fun n d => d.offset = n.offset?) root.sites ds) :
    List.Forall₂ (fun n d => (verdictsOf ds).isOptional n.offset? = d.optional) root.sites ds := by
  have hnodup := nodup_offsets hroot h
  rw [List.forall₂_iff_get] at h ⊢
  obtain ⟨hlen, hget⟩ := h
  refine ⟨hlen, ?_⟩
  intro i h₁ h₂
  obtain ⟨n, hn⟩ := hroot.exists_offset _ (List.get_mem root.sites ⟨i, h₁⟩)
  have hd := hget i h₁ h₂
  rw [hn] at hd ⊢
  exact isOptional_verdictsOf hnodup (List.get_mem ds ⟨i, h₂⟩) hd

theorem marked_verdictsOf {root : Tree} {source : String} (hroot : root.IsUnitOf source)
    {ds : List Decision} (h : List.Forall₂ (fun n d => d.offset = n.offset?) root.sites ds) :
    Tree.marked (verdictsOf ds) root.sites = toMark root.sites ds :=
  marked_eq_toMark (forall₂_isOptional hroot.toIsTreeOf h)

/-! ## The header -/

theorem trivia_expand (fs : List (Token × Bool)) :
    ((expand fs).flatMap fun t => t.leading ++ t.trailing)
      = (fs.map (·.1)).flatMap fun t => t.leading ++ t.trailing := by
  induction fs with
  | nil => rfl
  | cons f fs ih =>
    obtain ⟨t, flag⟩ := f
    cases flag with
    | false =>
      show ((t :: expand fs).flatMap _) = _
      rw [List.flatMap_cons, ih]
      rfl
    | true =>
      rw [expand_flagged, List.flatMap_append, ih]
      simp [Token.withMark, Tree.questionMark]

theorem leading_expand (fs : List (Token × Bool)) :
    (expand fs).head?.map (·.leading) = (fs.map (·.1)).head?.map (·.leading) := by
  cases fs with
  | nil => rfl
  | cons f fs =>
    obtain ⟨t, flag⟩ := f
    cases flag <;> rfl

namespace Tree

mutual

/-- Other leading trivia changes the first token only. -/
theorem tokens_withLeading (trivia : List Trivia) : (t : Tree) → {first : Token} →
    {rest : List Token} → t.tokens = first :: rest →
    (t.withLeading trivia).tokens = { first with leading := trivia } :: rest
  | token t, first, rest, h => by
    rw [tokens_token] at h
    cases h
    simp [withLeading]
  | node k cs, first, rest, h => by
    rw [withLeading, tokens_node]
    exact tokensAll_withLeadingOf trivia cs (by simpa using h)

theorem tokensAll_withLeadingOf (trivia : List Trivia) : (ts : List Tree) → {first : Token} →
    {rest : List Token} → tokensAll ts = first :: rest →
    tokensAll (withLeadingOf trivia ts) = { first with leading := trivia } :: rest
  | [], first, rest, h => by simp at h
  | t :: ts, first, rest, h => by
    rw [withLeadingOf, firstToken?_eq]
    rw [tokensAll_cons] at h
    split
    · next hsome =>
      obtain ⟨u, hu⟩ := Option.isSome_iff_exists.mp hsome
      obtain ⟨us, hus⟩ := List.head?_eq_some_iff.mp hu
      rw [hus, List.cons_append] at h
      cases h
      rw [tokensAll_cons, tokens_withLeading trivia t hus, List.cons_append]
    · next hnone =>
      have hempty : t.tokens = [] := by
        rw [Option.not_isSome_iff_eq_none, List.head?_eq_none_iff] at hnone
        exact hnone
      rw [hempty, List.nil_append] at h
      rw [tokensAll_cons, hempty, List.nil_append]
      exact tokensAll_withLeadingOf trivia ts h

end

/-- The text that a unit gets before its own. -/
def headerText (t : Tree) : String :=
  if t.hasHeader then "" else nullableDirective ++ t.newline

theorem headerText_of_isUnit {t : Tree} (h : t.isNode (· == .compilationUnit) = true) :
    t.headerText = if t.needsHeader then nullableDirective ++ t.newline else "" := by
  rw [headerText, needsHeader, h]
  cases t.hasHeader <;> rfl

/-- The header comes before the text, and nothing else changes. -/
theorem fullText_addHeader {t : Tree} (htokens : t.tokens ≠ []) :
    t.addHeader.fullText
      = (if t.needsHeader then nullableDirective ++ t.newline else "") ++ t.fullText := by
  obtain ⟨first, rest, hfirst⟩ := List.exists_cons_of_ne_nil htokens
  unfold addHeader
  cases t.needsHeader with
  | false => simp
  | true =>
    have hleading : t.leading = first.leading := by
      rw [leading, firstToken?_eq, hfirst]
      rfl
    show (t.withLeading (headerTrivia t.newline ++ t.leading)).fullText
      = (nullableDirective ++ t.newline) ++ t.fullText
    rw [fullText, tokens_withLeading _ t hfirst, fullText, hfirst, hleading]
    simp [headerTrivia, Token.fullText, String.append_assoc]

/-- Marks change neither the header nor the way lines end. -/
theorem header_of_expand {t u : Tree} {fs : List (Token × Bool)} (ht : t.tokens = fs.map (·.1))
    (hu : u.tokens = expand fs) : u.hasHeader = t.hasHeader ∧ u.newline = t.newline := by
  have hleading : u.leading = t.leading := by
    rw [leading, leading, firstToken?_eq, firstToken?_eq, ht, hu, leading_expand]
  have hnewline : u.newline = t.newline := by
    rw [newline, newline, firstNewline?, firstNewline?, ht, hu, trivia_expand]
  rw [hasHeader, hasHeader, hleading]
  exact ⟨rfl, hnewline⟩

end Tree

/-! ## The text -/

/-- Each token ends where the tokens after it may start. -/
theorem Token.PlacedFrom.endOffset_le {n : Nat} {ts : List Token} (h : Token.PlacedFrom n ts) :
    ts.Pairwise fun a b => ∀ i j, a.endOffset? = some i → b.offset = some j → i ≤ j := by
  induction ts generalizing n with
  | nil => exact .nil
  | cons t ts ih =>
    obtain ⟨hoffset, hrest⟩ := h
    refine List.pairwise_cons.mpr ⟨?_, ih hrest⟩
    intro u hu i j hi hj
    obtain ⟨k, hk, hle⟩ := hrest.offset_ge u hu
    rw [hj] at hk
    cases hk
    rw [Token.endOffset?, hoffset] at hi
    cases hi
    rw [Token.fullText, String.length_append, String.length_append] at hle
    show n + (Trivia.textOf t.leading).length + t.value.length ≤ j
    omega

theorem Token.PlacedFrom.endOffset_bound {n : Nat} {ts : List Token} (h : Token.PlacedFrom n ts) :
    ∀ t ∈ ts, ∃ i, t.endOffset? = some i ∧ i ≤ n + (Token.fullTextOf ts).length := by
  induction ts generalizing n with
  | nil => simp
  | cons t ts ih =>
    obtain ⟨hoffset, hrest⟩ := h
    rw [Token.fullTextOf_cons, String.length_append]
    intro u hu
    rcases List.mem_cons.mp hu with rfl | hu
    · refine ⟨n + (Trivia.textOf u.leading).length + u.value.length, ?_, ?_⟩
      · rw [Token.endOffset?, hoffset]
        rfl
      · rw [Token.fullText, String.length_append, String.length_append]
        omega
    · obtain ⟨i, hi, hle⟩ := ih hrest u hu
      exact ⟨i, hi, by omega⟩

/-- The ends of tokens that have text come one after another. -/
theorem Token.PlacedFrom.endOffsets_increasing {ts flagged : List Token} {n : Nat}
    (h : Token.PlacedFrom n ts) (hsub : flagged.Sublist ts) (hvalue : ∀ t ∈ flagged, t.value ≠ "") :
    (flagged.filterMap Token.endOffset?).Pairwise (· < ·) := by
  rw [List.pairwise_filterMap]
  refine (h.endOffset_le.sublist hsub).imp_of_mem ?_
  intro a b _ hb hab i hi j hj
  obtain ⟨k, hk, -⟩ := h.offset_ge b (hsub.mem hb)
  have hle := hab i k hi hk
  have hpos : 0 < b.value.length := by
    rw [Nat.pos_iff_ne_zero, ne_eq, String.length_eq_zero_iff]
    exact hvalue b hb
  rw [Token.endOffset?, hk] at hj
  cases hj
  show i < k + b.value.length
  omega

theorem Token.kind_ne_eof_of_endsType {t : Token} (h : t.endsType = true) : t.kind ≠ .eof := by
  intro heof
  rw [Token.endsType, Token.isKeyword, heof] at h
  simp at h

theorem map_eq_map_some {α β : Type} {f : α → Option β} {l : List α}
    (h : ∀ a ∈ l, ∃ b, f a = some b) : l.map f = (l.filterMap f).map some := by
  induction l with
  | nil => rfl
  | cons a l ih =>
    obtain ⟨b, hb⟩ := h a (by simp)
    rw [List.map_cons, List.filterMap_cons, hb, List.map_cons, ih fun c hc => h c (by simp [hc])]

namespace Tree.IsTreeOf

variable {root : Tree} {source : String} {v : Verdicts} {fs : List (Token × Bool)}

theorem needsHeader_mark (h : root.IsTreeOf source)
    (hfs : MarkedAs v root.tokens (root.mark v).tokens root.sites fs) :
    (root.mark v).needsHeader = root.needsHeader := by
  have hheader := (header_of_expand hfs.tokens.symm hfs.expanded).1
  rw [needsHeader, needsHeader, hheader]
  obtain ⟨kind, cs, rfl, rfl | rfl, -⟩ := h.form <;> rw [mark] <;> rfl

/-- The text of a marked tree with its header: that of its tokens with their marks, behind the header
if that is missing. -/
theorem fullText_annotated (h : root.IsTreeOf source)
    (hfs : MarkedAs v root.tokens (root.mark v).tokens root.sites fs) :
    (root.mark v).addHeader.fullText
      = (if root.needsHeader then nullableDirective ++ root.newline else "")
        ++ Token.fullTextOf (expand fs) := by
  have hne : (root.mark v).tokens ≠ [] := by
    intro hnil
    obtain ⟨t, ts, htokens⟩ := List.exists_cons_of_ne_nil h.tokens_ne_nil
    have hleading := leading_expand fs
    rw [← hfs.expanded, hnil, hfs.tokens, htokens] at hleading
    cases hleading
  rw [fullText_addHeader hne, h.needsHeader_mark hfs,
    (header_of_expand hfs.tokens.symm hfs.expanded).2, Tree.fullText, hfs.expanded]

end Tree.IsTreeOf

/-- The text of a marked unit with its header, for any verdicts: the source behind the header, with a
mark after the type of each declaration that is marked. -/
theorem Tree.IsUnitOf.annotated_text {root : Tree} {source : String} (h : root.IsUnitOf source)
    (v : Verdicts) :
    ∃ offsets : List Nat, (Tree.marked v root.sites).map Tree.typeEndOffset? = offsets.map some
      ∧ offsets.Pairwise (· < ·) ∧ (∀ n ∈ offsets, n ≤ source.length)
      ∧ (root.mark v).addHeader.fullText.toList
        = root.headerText.toList ++ withMarks offsets 0 source.toList := by
  obtain ⟨fs, hfs⟩ := h.orderly.marks v
  have hplaced := h.placed
  rw [← hfs.tokens] at hplaced
  have hsub : (flaggedTokens fs).Sublist (fs.map (·.1)) := flaggedTokens_sublist fs
  have hvalue : ∀ t ∈ flaggedTokens fs, t.value ≠ "" := by
    intro t ht
    refine h.proper t ?_ (Token.kind_ne_eof_of_endsType (hfs.sound.endsType t ht))
    rw [← hfs.tokens]
    exact hsub.mem ht
  refine ⟨(flaggedTokens fs).filterMap Token.endOffset?, ?_, ?_, ?_, ?_⟩
  · have hends : (Tree.marked v root.sites).map Tree.typeEndOffset?
        = ((Tree.marked v root.sites).map Tree.typeEnd?).map (·.bind Token.endOffset?) := by
      rw [List.map_map]
      rfl
    rw [hends, hfs.ends, List.map_map]
    refine map_eq_map_some ?_
    intro t ht
    obtain ⟨i, hi, -⟩ := hplaced.endOffset_bound t (hsub.mem ht)
    exact ⟨i, hi⟩
  · exact hplaced.endOffsets_increasing hsub hvalue
  · intro n hn
    obtain ⟨t, ht, hend⟩ := List.mem_filterMap.mp hn
    obtain ⟨i, hi, hle⟩ := hplaced.endOffset_bound t (hsub.mem ht)
    rw [hend] at hi
    cases hi
    rw [hfs.tokens, Nat.zero_add] at hle
    rw [← h.fullText]
    exact hle
  · rw [h.fullText_annotated hfs, Tree.headerText_of_isUnit h.isUnit, String.toList_append,
      fullTextOf_expand fs hplaced hvalue fun s _ => Iff.rfl, hfs.tokens, ← h.fullText]
    rfl

/-- The tree of an environment is the one that it was made for. -/
theorem Environment.annotatedBy_eq {references : SymbolTable} {root : Tree} {env : Environment}
    (henv : Environment.ofUnit references root = .ok env) (ds : List Decision) :
    env.annotatedBy ds = (root.mark (verdictsOf ds)).addHeader := by
  rw [annotatedBy, (root_of_ofTree henv).1]

/-- What an annotation is made of. -/
theorem annotate_ok {references : SymbolTable} {defined : List String} {p : Profile}
    {source text : String} (h : annotate references defined p source = .ok text) :
    ∃ root env ds, loadUnit source defined = .ok root
      ∧ Environment.ofUnit references root = .ok env ∧ env.decisions p = .ok ds
      ∧ text = (root.mark (verdictsOf ds)).addHeader.fullText := by
  obtain ⟨root, hroot, h⟩ := ok_of_bind h
  obtain ⟨env, henv, h⟩ := ok_of_bind h
  obtain ⟨tree, htree, h⟩ := ok_of_bind h
  obtain ⟨ds, hds, rfl⟩ := ok_of_map (ok_of_mapError htree)
  have henv := ok_of_mapError henv
  refine ⟨root, env, ds, ok_of_mapError hroot, henv, hds, ?_⟩
  cases h
  rw [Environment.annotatedBy_eq henv]

/-- The decisions for the declarations of a source, one for each and in order. -/
theorem Environment.forall₂_sites {references : SymbolTable} {origin : String} {root : Tree}
    {env : Environment} {p : Profile} {ds : List Decision} {source : String}
    (hroot : root.IsTreeOf source) (henv : ofTree references origin root = .ok env)
    (h : env.decisions p = .ok ds) :
    List.Forall₂ (fun n d => d.offset = n.offset?) root.sites ds := by
  rw [← node_sites hroot henv, List.forall₂_map_left_iff]
  exact (forall₂_decisions h).imp fun s d hd => hd.2.2.1

/-- The annotated text of a source: the source without a mark of byte order, behind the header if it
lacks one, with one question mark right after the declared type of each property, field and
parameter that is decided to be optional and has a type without a mark. -/
theorem annotate_exact {references : SymbolTable} {defined : List String} {p : Profile}
    {source text : String} (h : annotate references defined p source = .ok text) :
    ∃ root env ds offsets, loadUnit source defined = .ok root
      ∧ Environment.ofUnit references root = .ok env ∧ env.decisions p = .ok ds
      ∧ env.sites.map (·.node) = root.sites
      ∧ List.Forall₂ (fun n d => d.offset = n.offset?) root.sites ds
      ∧ (toMark root.sites ds).map Tree.typeEndOffset? = offsets.map some
      ∧ offsets.Pairwise (· < ·) ∧ (∀ n ∈ offsets, n ≤ (withoutOrderMark source).length)
      ∧ text.toList = root.headerText.toList
          ++ withMarks offsets 0 (withoutOrderMark source).toList := by
  obtain ⟨root, env, ds, hload, henv, hds, rfl⟩ := annotate_ok h
  have hroot : root.IsUnitOf (withoutOrderMark source) := Tree.isUnitOf_of_parseUnit hload
  have hsites := Environment.forall₂_sites hroot.toIsTreeOf henv hds
  obtain ⟨offsets, hoffsets, hincreasing, hbound, htext⟩ := hroot.annotated_text (verdictsOf ds)
  rw [marked_verdictsOf hroot hsites] at hoffsets
  exact ⟨root, env, ds, offsets, hload, henv, hds, Environment.node_sites hroot.toIsTreeOf henv, hsites,
    hoffsets, hincreasing, hbound, htext⟩

theorem annotate_exact_equals :
    ∃ root offsets, loadUnit "class A { bool Equals(A o); }" [] = .ok root
      ∧ "#nullable enable annotations\nclass A { bool Equals(A? o); }".toList
        = root.headerText.toList
          ++ withMarks offsets 0 (withoutOrderMark "class A { bool Equals(A o); }").toList := by
  have h : annotate {} [] {} "class A { bool Equals(A o); }"
      = .ok "#nullable enable annotations\nclass A { bool Equals(A? o); }" :=
    ok_of_toOption (by decide +kernel)
  obtain ⟨root, env, ds, offsets, hroot, -, -, -, -, -, -, -, htext⟩ := annotate_exact h
  exact ⟨root, offsets, hroot, htext⟩

end NullableMarker
