import Mathlib.Data.List.DropRight
import NullableMarker.Proofs.Relexing
import NullableMarker.Proofs.WrittenConditions

/-!
# The names of directives

Where text is not active, a look at the start of a line tells whether it holds a conditional
directive; the directive itself is split into words. The two tell the same name of a directive if its
line starts with few blanks, all of them in ASCII, and if white space or the end of the line follows
the name.

* `Directive.ActsAs` — a directive is treated as one of a name
* `name_ofText_eq_iff` — the name that a directive is split into
* `directiveName_eq_iff` — the name that a line is told by
* `directiveName_actsAs` — where the two agree
-/

namespace NullableMarker

open Text

/-! ## The first word of a text -/

/-- The characters that a text starts with. -/
theorem takeWhile_eq_iff {p : Char → Bool} {s t : List Char} :
    s.takeWhile p = t ↔
      ∃ r, s = t ++ r ∧ (∀ c ∈ t, p c = true) ∧ r.head?.all (!p ·) = true := by
  constructor
  · rintro rfl
    refine ⟨s.dropWhile p, List.takeWhile_append_dropWhile.symm,
      fun c hc => List.mem_takeWhile_imp hc, ?_⟩
    have hnot := List.head?_dropWhile_not p s
    cases hhead : (s.dropWhile p).head? with
    | none => rfl
    | some c =>
      rw [hhead] at hnot
      rw [Option.all_some, hnot]
      rfl
  · rintro ⟨r, rfl, ht, hr⟩
    rw [List.takeWhile_append_of_pos ht]
    cases r with
    | nil => exact List.append_nil t
    | cons c r =>
      have hc : ¬ p c = true := by simpa using hr
      rw [List.takeWhile_cons_of_neg hc, List.append_nil]

section Words

variable {p q : Char → Bool} {s n gap after : List Char}

theorem dropWhile_gap (hgap : ∀ c ∈ gap, p c = true) (hne : n ≠ []) (hp : ∀ c ∈ n, p c = false) :
    (gap ++ (n ++ after)).dropWhile p = n ++ after := by
  obtain ⟨c, r, rfl⟩ := List.exists_cons_of_ne_nil hne
  rw [List.dropWhile_append_of_pos hgap, List.cons_append,
    List.dropWhile_cons_of_neg (by rw [hp c List.mem_cons_self]; exact Bool.false_ne_true)]

theorem takeWhile_gap (hgap : ∀ c ∈ gap, p c = true) (hne : n ≠ []) (hp : ∀ c ∈ n, p c = false) :
    (gap ++ (n ++ after)).takeWhile p = gap := by
  obtain ⟨c, r, rfl⟩ := List.exists_cons_of_ne_nil hne
  refine takeWhile_eq_iff.mpr ⟨_, rfl, hgap, ?_⟩
  rw [List.cons_append, List.head?_cons, Option.all_some, hp c List.mem_cons_self]
  rfl

/-- A word after a gap. -/
theorem takeWhile_dropWhile_eq_iff (hne : n ≠ []) (hp : ∀ c ∈ n, p c = false)
    (hq : ∀ c ∈ n, q c = true) :
    (s.dropWhile p).takeWhile q = n ↔ ∃ gap after, s = gap ++ (n ++ after)
      ∧ (∀ c ∈ gap, p c = true) ∧ after.head?.all (!q ·) = true := by
  constructor
  · intro h
    obtain ⟨after, hdrop, -, hafter⟩ := takeWhile_eq_iff.mp h
    refine ⟨s.takeWhile p, after, ?_, fun c hc => List.mem_takeWhile_imp hc, hafter⟩
    rw [← hdrop, List.takeWhile_append_dropWhile]
  · rintro ⟨gap, after, rfl, hgap, hafter⟩
    rw [dropWhile_gap hgap hne hp]
    exact takeWhile_eq_iff.mpr ⟨after, rfl, hq, hafter⟩

end Words

/-- The first word of a text. -/
theorem firstWord_fst (s : List Char) :
    (firstWord s).1 = (s.dropWhile isWhite).takeWhile (!isWhite ·) := rfl

theorem firstWord_trimLeft (s : List Char) : (firstWord (trimLeft s)).1 = (firstWord s).1 := by
  rw [firstWord_fst, firstWord_fst, trimLeft, List.dropWhile_idempotent]

theorem firstWord_append_white (s : List Char) {ws : List Char} (hws : ∀ c ∈ ws, isWhite c = true) :
    (firstWord (s ++ ws)).1 = (firstWord s).1 := by
  rw [firstWord_fst, firstWord_fst]
  cases ws with
  | nil => rw [List.append_nil]
  | cons e ws =>
    rw [List.dropWhile_append]
    split
    · next hempty =>
      rw [List.isEmpty_iff.mp hempty, List.dropWhile_eq_nil_iff.mpr hws]
    · exact takeWhile_before (by rw [hws e List.mem_cons_self]; rfl) _ ws

theorem firstWord_trimRight (s : List Char) : (firstWord (trimRight s)).1 = (firstWord s).1 := by
  obtain ⟨ws, hs, hws⟩ := exists_trimRight s
  exact (firstWord_append_white (trimRight s) hws).symm.trans (by rw [← hs])

/-! ## The name of a directive -/

theorem trim_directive (body : List Char) : trim ('#' :: body) = '#' :: trimRight body := by
  have hleft : trimLeft ('#' :: body) = '#' :: body := rfl
  rw [trim, hleft]
  unfold trimRight
  rw [List.reverse_cons, List.dropWhile_append]
  split
  · next hempty =>
    rw [List.isEmpty_iff.mp hempty]
    rfl
  · rw [List.reverse_append]
    rfl

/-- The name of a directive is the first word after the `#`. -/
theorem name_ofText (body : List Char) :
    (Directive.ofText ('#' :: body)).name = String.ofList (firstWord body).1 := by
  show String.ofList (firstWord (trim ((trim ('#' :: body)).drop 1))).1 = _
  rw [trim_directive, List.drop_one, List.tail_cons, trim, firstWord_trimRight, firstWord_trimLeft,
    firstWord_trimRight]

/-- A name is letters. -/
theorem conditionalNames_letters : ∀ n ∈ conditionalNames,
    n ≠ [] ∧ ∀ c ∈ n, c.isAlpha = true ∧ isWhite c = false ∧ inLine c = true := by
  have hall : conditionalNames.all (fun n =>
      n ≠ [] && n.all fun c => c.isAlpha && (!isWhite c && inLine c)) = true := by decide
  simpa using List.all_eq_true.mp hall

/-- The name that a directive is split into stands between white space. -/
theorem name_ofText_eq_iff {body n : List Char} (hn : n ∈ conditionalNames) :
    (Directive.ofText ('#' :: body)).name = String.ofList n ↔
      ∃ gap after, body = gap ++ (n ++ after) ∧ (∀ c ∈ gap, isWhite c = true)
        ∧ after.head?.all isWhite = true := by
  obtain ⟨hne, hletters⟩ := conditionalNames_letters n hn
  rw [name_ofText, String.ofList_inj, firstWord_fst,
    takeWhile_dropWhile_eq_iff hne (fun c hc => (hletters c hc).2.1)
      (fun c hc => by rw [(hletters c hc).2.1]; rfl)]
  simp only [Bool.not_not]

/-! ## The name that a line is told by -/

theorem lineName_eq_iff {s n : List Char} (hn : n ∈ conditionalNames) :
    lineName s = n ↔ ∃ margin gap after, s = margin ++ '#' :: (gap ++ (n ++ after))
      ∧ (∀ c ∈ margin, isMargin c = true) ∧ (∀ c ∈ gap, c = ' ' ∨ c = '\t')
      ∧ after.head?.all (!Char.isAlpha ·) = true := by
  obtain ⟨hne, hletters⟩ := conditionalNames_letters n hn
  have hspace : ∀ c ∈ n, (c == ' ' || c == '\t') = false := by
    intro c hc
    have halpha := (hletters c hc).1
    rw [← Bool.not_eq_true, Bool.or_eq_true, beq_iff_eq, beq_iff_eq]
    rintro (rfl | rfl) <;> exact absurd halpha (by decide)
  constructor
  · intro h
    unfold lineName at h
    split at h
    · next r hline =>
      obtain ⟨gap, after, rfl, hgap, hafter⟩ :=
        (takeWhile_dropWhile_eq_iff hne hspace fun c hc => (hletters c hc).1).mp h
      refine ⟨s.takeWhile isMargin, gap, after, ?_, fun c hc => List.mem_takeWhile_imp hc,
        by simpa using hgap, hafter⟩
      rw [← hline, List.takeWhile_append_dropWhile]
    · exact absurd h.symm hne
  · rintro ⟨margin, gap, after, rfl, hmargin, hgap, hafter⟩
    have hline : (margin ++ '#' :: (gap ++ (n ++ after))).dropWhile isMargin
        = '#' :: (gap ++ (n ++ after)) :=
      dropWhile_gap (n := ['#']) hmargin (List.cons_ne_nil _ _) (List.forall_mem_singleton.mpr rfl)
    unfold lineName
    rw [hline]
    exact (takeWhile_dropWhile_eq_iff hne hspace fun c hc => (hletters c hc).1).mpr
      ⟨gap, after, rfl, by simpa using hgap, hafter⟩

theorem take_line {margin gap n : List Char} {window : Nat}
    (hlen : margin.length + 1 + gap.length + n.length ≤ window) (after : List Char) :
    (margin ++ '#' :: (gap ++ (n ++ after))).take window = margin ++ '#' :: (gap ++
      (n ++ after.take (window - (margin.length + 1 + gap.length + n.length)))) := by
  have hflat : ∀ x, margin ++ '#' :: (gap ++ (n ++ x)) = (margin ++ '#' :: (gap ++ n)) ++ x := by
    simp
  have hcount : (margin ++ '#' :: (gap ++ n)).length
      = margin.length + 1 + gap.length + n.length := by
    simp
    omega
  rw [hflat, hflat, ← hcount, List.take_append, List.take_of_length_le (hcount ▸ hlen)]

/-- The name that a line is told by stands after the `#` with spaces and tabs in between, and the
window shows it whole; no letter that the window shows follows it. -/
theorem directiveName_eq_iff {s n : List Char} (hn : n ∈ conditionalNames) :
    directiveName s = n ↔ ∃ margin gap after, s = margin ++ '#' :: (gap ++ (n ++ after))
      ∧ (∀ c ∈ margin, isMargin c = true) ∧ (∀ c ∈ gap, c = ' ' ∨ c = '\t')
      ∧ margin.length + 1 + gap.length + n.length ≤ directiveWindow
      ∧ (after.take (directiveWindow - (margin.length + 1 + gap.length + n.length))).head?.all
        (!Char.isAlpha ·) = true := by
  show lineName (s.take directiveWindow) = n ↔ _
  rw [lineName_eq_iff hn]
  constructor
  · rintro ⟨margin, gap, after, hshown, hmargin, hgap, hafter⟩
    have hlen : margin.length + 1 + gap.length + n.length ≤ directiveWindow := by
      have := congrArg List.length hshown
      simp only [List.length_take, List.length_append, List.length_cons] at this
      omega
    have hs : s = margin ++ '#' :: (gap ++ (n ++ (after ++ s.drop directiveWindow))) := by
      conv => lhs; rw [← List.take_append_drop directiveWindow s, hshown]
      simp
    refine ⟨margin, gap, after ++ s.drop directiveWindow, hs, hmargin, hgap, hlen, ?_⟩
    have htake := take_line hlen (after ++ s.drop directiveWindow)
    rw [← hs, hshown] at htake
    rwa [← List.append_cancel_left (List.append_cancel_left (List.cons.inj
      (List.append_cancel_left htake)).2)]
  · rintro ⟨margin, gap, after, rfl, hmargin, hgap, hlen, hafter⟩
    exact ⟨margin, gap, _, take_line hlen after, hmargin, hgap, hafter⟩

/-! ## What a directive does -/

/-- The directive is treated as one named `n`, whatever groups are open. -/
def Directive.ActsAs (d : Directive) (n : List Char) : Prop :=
  ∀ st : Region, st.apply d = st.apply { d with name := String.ofList n }

namespace Region

/-- Other directives than the conditional ones leave the groups alone. -/
theorem apply_of_other {d : Directive} (hname : ∀ n ∈ conditionalNames, d.name ≠ String.ofList n)
    (st : Region) : ∃ symbols, st.apply d = .ok { st with symbols } := by
  have hif : ¬ (d.name == "if") = true := fun h => hname _ (by decide) (eq_of_beq h)
  have helif : ¬ (d.name == "elif") = true := fun h => hname _ (by decide) (eq_of_beq h)
  have helse : ¬ (d.name == "else") = true := fun h => hname _ (by decide) (eq_of_beq h)
  have hendif : ¬ (d.name == "endif") = true := fun h => hname _ (by decide) (eq_of_beq h)
  unfold apply
  rw [if_neg hif, if_neg helif, if_neg helse, if_neg hendif]
  split
  · unfold define
    split
    · exact ⟨st.symbols, rfl⟩
    · exact ⟨_, rfl⟩
  · split
    · exact ⟨_, rfl⟩
    · exact ⟨st.symbols, rfl⟩

/-- In the `#else` branch of a group that is not active, where no condition is read. -/
def inElse : Region := { symbols := [], groups := [⟨false, false, true, true⟩] }

/-- In an `#else` branch every conditional directive does something of its own. -/
theorem apply_inElse (argument : List Char) :
    inElse.apply ⟨"if", argument⟩
        = .ok { inElse with groups := ⟨false, false, false, false⟩ :: inElse.groups }
      ∧ inElse.apply ⟨"elif", argument⟩ = .error .elifAfterElse
      ∧ inElse.apply ⟨"else", argument⟩ = .error .duplicateElse
      ∧ inElse.apply ⟨"endif", argument⟩ = .ok { inElse with groups := [] } :=
  ⟨rfl, rfl, rfl, rfl⟩

theorem eq_of_apply_inElse {m n : List Char} (hm : m ∈ conditionalNames) (hn : n ∈ conditionalNames)
    {argument : List Char} (h : inElse.apply ⟨String.ofList m, argument⟩
      = inElse.apply ⟨String.ofList n, argument⟩) : m = n := by
  obtain ⟨hif, helif, helse, hendif⟩ := apply_inElse argument
  simp only [conditionalNames, List.mem_cons, List.not_mem_nil, or_false] at hm hn
  rcases hm with rfl | rfl | rfl | rfl <;> rcases hn with rfl | rfl | rfl | rfl
  all_goals first
    | simp only [String.ofList_toList, hif, helif, helse, hendif] at h
      cases h
      done
    | rfl

theorem apply_inElse_ne {n : List Char} (hn : n ∈ conditionalNames) (argument : List Char)
    (symbols : List String) :
    inElse.apply ⟨String.ofList n, argument⟩ ≠ .ok { inElse with symbols } := by
  obtain ⟨hif, helif, helse, hendif⟩ := apply_inElse argument
  simp only [conditionalNames, List.mem_cons, List.not_mem_nil, or_false] at hn
  intro h
  rcases hn with rfl | rfl | rfl | rfl
  all_goals
    simp only [String.ofList_toList, hif, helif, helse, hendif] at h
    cases h

end Region

/-- A directive is treated as a conditional directive of a name only if the name is its own. -/
theorem Directive.actsAs_iff {d : Directive} {n : List Char} (hn : n ∈ conditionalNames) :
    d.ActsAs n ↔ d.name = String.ofList n := by
  constructor
  · intro h
    by_cases hother : ∀ m ∈ conditionalNames, d.name ≠ String.ofList m
    · obtain ⟨symbols, happly⟩ := Region.apply_of_other hother Region.inElse
      exact absurd ((h Region.inElse).symm.trans happly) (Region.apply_inElse_ne hn d.argument symbols)
    · push Not at hother
      obtain ⟨m, hm, hname⟩ := hother
      have hsame := h Region.inElse
      rw [show d = ⟨String.ofList m, d.argument⟩ by rw [← hname]] at hsame
      rw [hname, Region.eq_of_apply_inElse hm hn hsame]
  · intro hname st
    rw [← hname]

/-! ## Where the names agree -/

theorem not_isAlpha_of_isWhite {c : Char} (h : isWhite c = true) : c.isAlpha = false := by
  rw [← Bool.not_eq_true]
  intro halpha
  have hpart : Condition.isWordPart c = true := by
    rw [Condition.isWordPart, Char.isAlphanum, halpha]
    rfl
  rw [Condition.not_isWhite_of_isWordPart hpart] at h
  cases h

theorem not_isAlpha_of_isLineEnd {c : Char} (h : isLineEnd c = true) : c.isAlpha = false := by
  rw [isLineEnd, Bool.or_eq_true, beq_iff_eq, beq_iff_eq] at h
  rcases h with rfl | rfl <;> rfl

theorem isWhite_of_space {gap : List Char} (hgap : ∀ c ∈ gap, c = ' ' ∨ c = '\t') :
    ∀ c ∈ gap, isWhite c = true := by
  intro c hc
  rcases hgap c hc with rfl | rfl <;> rfl

/-- The `#` of a line is the first character that is no blank. -/
theorem margin_unique {margin margin' x x' : List Char} (hmargin : ∀ c ∈ margin, isBlank c = true)
    (hmargin' : ∀ c ∈ margin', isBlank c = true)
    (h : margin ++ '#' :: x = margin' ++ '#' :: x') : margin = margin' ∧ x = x' := by
  have hblank : ∀ c ∈ ['#'], isBlank c = false := List.forall_mem_singleton.mpr rfl
  have heq : margin = margin' := by
    have hleft : (margin ++ '#' :: x).takeWhile isBlank = margin :=
      takeWhile_gap hmargin (List.cons_ne_nil _ _) hblank
    have hright : (margin' ++ '#' :: x').takeWhile isBlank = margin' :=
      takeWhile_gap hmargin' (List.cons_ne_nil _ _) hblank
    rw [← hleft, h, hright]
  subst heq
  exact ⟨rfl, (List.cons.inj (List.append_cancel_left h)).2⟩

theorem isBlank_of_isMargin {c : Char} (h : isMargin c = true) : isBlank c = true := by
  rw [isBlank, h]
  rfl

section Line

variable {margin body rest n : List Char}

/-- The name that a line is told by stands in the line. -/
theorem exists_of_directiveName (hmargin : ∀ c ∈ margin, isBlank c = true)
    (hbody : ∀ c ∈ body, inLine c = true) (hrest : rest.head?.all isLineEnd = true)
    (hn : n ∈ conditionalNames) (h : directiveName (margin ++ '#' :: (body ++ rest)) = n) :
    ∃ gap after, body = gap ++ (n ++ after) ∧ (∀ c ∈ margin, isMargin c = true)
      ∧ (∀ c ∈ gap, c = ' ' ∨ c = '\t')
      ∧ margin.length + 1 + gap.length + n.length ≤ directiveWindow := by
  obtain ⟨-, hletters⟩ := conditionalNames_letters n hn
  obtain ⟨margin', gap, after, hline, hmargin', hgap, hlen, -⟩ := (directiveName_eq_iff hn).mp h
  obtain ⟨rfl, htext⟩ := margin_unique hmargin (fun c hc => isBlank_of_isMargin (hmargin' c hc)) hline
  refine ⟨gap, after.takeWhile inLine, ?_, hmargin', hgap, hlen⟩
  -- the end of the line is found in both texts
  have hstop : (body ++ rest).takeWhile inLine = body :=
    takeWhile_eq_iff.mpr ⟨rest, rfl, hbody, by simpa only [inLine, Bool.not_not] using hrest⟩
  have hgapLine : ∀ c ∈ gap, inLine c = true := by
    intro c hc
    rcases hgap c hc with rfl | rfl <;> rfl
  rw [← hstop, htext, List.takeWhile_append_of_pos hgapLine,
    List.takeWhile_append_of_pos fun c hc => (hletters c hc).2.2]

/-- A name that the window shows after spaces and tabs, and white space or the end of the line after
it. -/
theorem directiveName_of_named {gap after : List Char} (hrest : rest.head?.all isLineEnd = true)
    (hn : n ∈ conditionalNames) (hafter : after.head?.all isWhite = true)
    (hmargin : ∀ c ∈ margin, isMargin c = true) (hgap : ∀ c ∈ gap, c = ' ' ∨ c = '\t')
    (hlen : margin.length + 1 + gap.length + n.length ≤ directiveWindow) :
    directiveName (margin ++ '#' :: (gap ++ (n ++ after) ++ rest)) = n := by
  refine (directiveName_eq_iff hn).mpr
    ⟨margin, gap, after ++ rest, by simp only [List.append_assoc], hmargin, hgap, hlen, ?_⟩
  rw [List.head?_take]
  split
  · rfl
  · cases after with
    | cons c after =>
      have hc := not_isAlpha_of_isWhite (c := c) hafter
      rw [List.cons_append, List.head?_cons, Option.all_some, hc]
      rfl
    | nil =>
      cases rest with
      | nil => rfl
      | cons c rest =>
        have hc := not_isAlpha_of_isLineEnd (c := c) hrest
        rw [List.nil_append, List.head?_cons, Option.all_some, hc]
        rfl

/-- A line that is split into a name is told by it exactly if spaces and tabs come before the name and
the window shows it. -/
theorem directiveName_of_name (hmargin : ∀ c ∈ margin, isBlank c = true)
    (hbody : ∀ c ∈ body, inLine c = true) (hrest : rest.head?.all isLineEnd = true)
    (hn : n ∈ conditionalNames) (hname : (Directive.ofText ('#' :: body)).name = String.ofList n) :
    directiveName (margin ++ '#' :: (body ++ rest)) = n ↔
      (∀ c ∈ margin, isMargin c = true) ∧ (∀ c ∈ body.takeWhile isWhite, c = ' ' ∨ c = '\t')
        ∧ margin.length + 1 + (body.takeWhile isWhite).length + n.length ≤ directiveWindow := by
  obtain ⟨hne, hletters⟩ := conditionalNames_letters n hn
  have hwhite : ∀ c ∈ n, isWhite c = false := fun c hc => (hletters c hc).2.1
  obtain ⟨gap, after, rfl, hgap, hafter⟩ := (name_ofText_eq_iff hn).mp hname
  rw [takeWhile_gap hgap hne hwhite]
  constructor
  · intro htold
    obtain ⟨gap', after', htext, hmargin', hgap', hlen⟩ :=
      exists_of_directiveName hmargin hbody hrest hn htold
    have heq : gap = gap' := by
      have := congrArg (List.takeWhile isWhite) htext
      rwa [takeWhile_gap hgap hne hwhite, takeWhile_gap (isWhite_of_space hgap') hne hwhite] at this
    subst heq
    exact ⟨hmargin', hgap', hlen⟩
  · rintro ⟨hmargin', hgap', hlen⟩
    exact directiveName_of_named hrest hn hafter hmargin' hgap' hlen

/-- A line that is told by a name is split into it exactly if white space or the end of the line
follows the name. -/
theorem name_of_directiveName (hmargin : ∀ c ∈ margin, isBlank c = true)
    (hbody : ∀ c ∈ body, inLine c = true) (hrest : rest.head?.all isLineEnd = true)
    (hn : n ∈ conditionalNames) (htold : directiveName (margin ++ '#' :: (body ++ rest)) = n) :
    (Directive.ofText ('#' :: body)).name = String.ofList n ↔
      ((body.dropWhile isWhite).drop n.length).head?.all isWhite = true := by
  obtain ⟨hne, hletters⟩ := conditionalNames_letters n hn
  have hwhite : ∀ c ∈ n, isWhite c = false := fun c hc => (hletters c hc).2.1
  obtain ⟨gap, after, rfl, -, hgap, -⟩ := exists_of_directiveName hmargin hbody hrest hn htold
  rw [dropWhile_gap (isWhite_of_space hgap) hne hwhite, List.drop_left, name_ofText_eq_iff hn]
  constructor
  · rintro ⟨gap', after', htext, hgap', hafter'⟩
    have := congrArg (List.dropWhile isWhite) htext
    rw [dropWhile_gap (isWhite_of_space hgap) hne hwhite, dropWhile_gap hgap' hne hwhite] at this
    rwa [List.append_cancel_left this]
  · exact fun hafter => ⟨gap, after, rfl, isWhite_of_space hgap, hafter⟩

/-- A directive that acts as a conditional one is told by its name in the line if only spaces, tabs
and the ASCII blanks of a margin stand before the name, and the window shows it. A line that is told
by a conditional name acts as that directive if white space or the end of the line follows the name.
A directive that acts as no conditional one leaves the groups alone, and is no fault. -/
theorem directiveName_actsAs (hmargin : ∀ c ∈ margin, isBlank c = true)
    (hbody : ∀ c ∈ body, inLine c = true) (hrest : rest.head?.all isLineEnd = true) :
    (∀ n ∈ conditionalNames,
        ((Directive.ofText ('#' :: body)).ActsAs n →
          (directiveName (margin ++ '#' :: (body ++ rest)) = n ↔
            (∀ c ∈ margin, isMargin c = true) ∧ (∀ c ∈ body.takeWhile isWhite, c = ' ' ∨ c = '\t')
              ∧ margin.length + 1 + (body.takeWhile isWhite).length + n.length ≤ directiveWindow))
        ∧ (directiveName (margin ++ '#' :: (body ++ rest)) = n →
          ((Directive.ofText ('#' :: body)).ActsAs n ↔
            ((body.dropWhile isWhite).drop n.length).head?.all isWhite = true)))
      ∧ ((∀ n ∈ conditionalNames, ¬ (Directive.ofText ('#' :: body)).ActsAs n) →
        ∀ st : Region, ∃ symbols,
          st.apply (Directive.ofText ('#' :: body)) = .ok { st with symbols }) := by
  refine ⟨fun n hn => ?_, fun hother => ?_⟩
  · rw [Directive.actsAs_iff hn]
    exact ⟨directiveName_of_name hmargin hbody hrest hn, name_of_directiveName hmargin hbody hrest hn⟩
  · exact Region.apply_of_other fun n hn hname =>
      hother n hn ((Directive.actsAs_iff hn).mpr hname)

end Line

theorem directiveName_actsAs_if :
    (∀ c ∈ "  ".toList, isBlank c = true) ∧ (∀ c ∈ "if A".toList, inLine c = true)
      ∧ "\nx".toList.head?.all isLineEnd = true
      ∧ directiveName "  #if A\nx".toList = "if".toList
      ∧ (Directive.ofText "#if A".toList).ActsAs "if".toList := by
  have hmargin : ∀ c ∈ "  ".toList, isBlank c = true := List.all_eq_true.mp (by decide)
  have hbody : ∀ c ∈ "if A".toList, inLine c = true := List.all_eq_true.mp (by decide)
  have hrest : "\nx".toList.head?.all isLineEnd = true := by decide
  have hname : directiveName "  #if A\nx".toList = "if".toList := by decide
  exact ⟨hmargin, hbody, hrest, hname,
    (((directiveName_actsAs hmargin hbody hrest).1 _ (by decide)).2 hname).mpr (by decide)⟩

/-- A condition in parentheses and a comment may follow a name that a line is told by. The directive
is split into longer words, opens or closes nothing, and another `#endif` is a fault. -/
theorem directiveName_without_space :
    directiveName "#if(A)".toList = "if".toList
      ∧ ¬ (Directive.ofText "#if(A)".toList).ActsAs "if".toList
      ∧ directiveName "#endif//x".toList = "endif".toList
      ∧ ¬ (Directive.ofText "#endif//x".toList).ActsAs "endif".toList
      ∧ TokenStream.ofSource "#if(A)\nx\n#endif\n" ["A"]
        = .error ⟨.unmatchedDirective "endif", ⟨3, 1⟩⟩ := by
  refine ⟨by decide, ?_, by decide, ?_, by decide +kernel⟩
  · rw [Directive.actsAs_iff (by decide)]
    decide
  · rw [Directive.actsAs_iff (by decide)]
    decide

end NullableMarker
