import Mathlib.Data.List.Chain
import Mathlib.Data.List.Infix
import Mathlib.Data.List.TakeWhile
import NullableMarker.Proofs.ConditionSentences

/-!
# Conditions as they are written

A text is a condition if it is made up of the marks of a sentence, with white space wherever one
likes. No two marks of a sentence run together when they are written side by side, so that the marks
found in the text are those of the sentence. Parentheses need only stand where an operator of a
higher level is an operand.

* `Spaced` — a text made up of marks
* `Sentence.shut` — the marks of a sentence do not run together
* `ofText_eq_ok_iff` — the texts that are conditions
* `written` — a condition with the parentheses that it needs
* `Region.holds_exact` — the truth of a condition
-/

namespace NullableMarker

open Text

/-- What is trimmed at the end of a text is white space. -/
theorem Text.exists_trimRight (s : List Char) :
    ∃ ws, s = trimRight s ++ ws ∧ ∀ c ∈ ws, isWhite c = true := by
  refine ⟨(s.reverse.takeWhile isWhite).reverse, ?_, fun c hc => ?_⟩
  · rw [trimRight, ← List.reverse_append, List.takeWhile_append_dropWhile, List.reverse_reverse]
  · exact List.mem_takeWhile_imp (List.mem_reverse.mp hc)

namespace Condition

/-! ## Marks in a text -/

namespace Mark

/-- How a mark is written. -/
def text : Mark → List Char
  | left => ['(']
  | right => [')']
  | same => ['=', '=']
  | differ => ['!', '=']
  | and => ['&', '&']
  | or => ['|', '|']
  | not => ['!']
  | word name => name.toList

end Mark

/-- An identifier of ASCII characters. -/
def IsIdentifier (name : String) : Prop :=
  ∃ c r, name.toList = c :: r ∧ isWordPart c = true ∧ c.isDigit = false
    ∧ ∀ d ∈ r, isWordPart d = true

/-- A word is an identifier. -/
def Mark.IsProper : Mark → Prop
  | word name => IsIdentifier name
  | _ => True

/-- A text is made up of marks, with optional white space before, between and after them. -/
inductive Spaced : List Char → List Mark → Prop
  | nil {ws : List Char} (hws : ∀ c ∈ ws, isWhite c = true) : Spaced ws []
  | cons {ws s : List Char} {m : Mark} {ts : List Mark} (hws : ∀ c ∈ ws, isWhite c = true)
      (hm : m.IsProper) (h : Spaced s ts) : Spaced (ws ++ (m.text ++ s)) (m :: ts)

theorem Spaced.white {c : Char} {s : List Char} {ts : List Mark} (hc : isWhite c = true)
    (h : Spaced s ts) : Spaced (c :: s) ts := by
  cases h with
  | nil hws => exact .nil (List.forall_mem_cons.mpr ⟨hc, hws⟩)
  | cons hws hm h => exact .cons (List.forall_mem_cons.mpr ⟨hc, hws⟩) hm h

theorem Spaced.mark (m : Mark) {s : List Char} {ts : List Mark} (hm : m.IsProper)
    (h : Spaced s ts) : Spaced (m.text ++ s) (m :: ts) :=
  have hnone : ∀ c ∈ ([] : List Char), isWhite c = true := List.forall_mem_nil _
  .cons hnone hm h

/-- A mark that is found before marks that make up the text after it. -/
theorem Spaced.found (m : Mark) {s : List Char} {marks : Option (List Mark)} {ts : List Mark}
    (hm : m.IsProper) (h : marks.map (m :: ·) = some ts)
    (hs : ∀ {us}, marks = some us → Spaced s us) : Spaced (m.text ++ s) ts := by
  obtain ⟨us, hus, rfl⟩ := Option.map_eq_some_iff.mp h
  exact .mark m hm (hs hus)

/-- The marks that are found in a text make it up. -/
theorem spaced_of_marks? {s : List Char} {ts : List Mark} (h : marks? s = some ts) :
    Spaced s ts := by
  fun_induction marks? s generalizing ts with
  | case1 =>
    cases h
    exact .nil (by simp)
  | case2 r ih => exact .found .left trivial h ih
  | case3 r ih => exact .found .right trivial h ih
  | case4 r ih => exact .found .same trivial h ih
  | case5 r ih => exact .found .differ trivial h ih
  | case6 r ih => exact .found .and trivial h ih
  | case7 r ih => exact .found .or trivial h ih
  | case8 r hnext ih => exact .found .not trivial h ih
  | case9 c r _ _ _ _ _ _ _ hwhite ih => exact (ih h).white hwhite
  | case10 c r _ _ _ _ _ _ _ hwhite hword more =>
    rename_i ih
    rw [Bool.and_eq_true, Bool.not_eq_true'] at hword
    have hproper : (Mark.word (String.ofList (c :: more))).IsProper :=
      ⟨c, more, String.toList_ofList, hword.1, hword.2, fun d hd => List.mem_takeWhile_imp hd⟩
    have hsplit : c :: r = (Mark.word (String.ofList (c :: more))).text ++ r.drop more.length := by
      rw [Mark.text, String.toList_ofList, List.cons_append]
      exact congrArg (c :: ·) (List.prefix_append_drop (List.takeWhile_prefix isWordPart))
    rw [hsplit]
    exact .found _ hproper h ih
  | case11 => cases h

/-! ## Marks that do not run together -/

theorem isWordPart_iff {c : Char} : isWordPart c = true ↔
    (((65 ≤ c.toNat ∧ c.toNat ≤ 90) ∨ (97 ≤ c.toNat ∧ c.toNat ≤ 122))
      ∨ (48 ≤ c.toNat ∧ c.toNat ≤ 57)) ∨ c = '_' := by
  show (((decide (65 ≤ c.val ∧ c.val ≤ 90) || (decide (97 ≤ c.val) && decide (c.val ≤ 122)))
      || (decide (48 ≤ c.val) && decide (c.val ≤ 57))) || c == '_') = true ↔ _
  simp only [Bool.or_eq_true, Bool.and_eq_true, decide_eq_true_eq, beq_iff_eq]
  exact Iff.rfl

theorem not_isWhite_of_isWordPart {c : Char} (h : isWordPart c = true) : isWhite c = false := by
  have hrange : (65 ≤ c.toNat ∧ c.toNat ≤ 90) ∨ (97 ≤ c.toNat ∧ c.toNat ≤ 122)
      ∨ (48 ≤ c.toNat ∧ c.toNat ≤ 57) ∨ c.toNat = 95 := by
    rcases isWordPart_iff.mp h with ((h | h) | h) | rfl
    · exact .inl h
    · exact .inr (.inl h)
    · exact .inr (.inr (.inl h))
    · exact .inr (.inr (.inr rfl))
  rw [← Bool.not_eq_true]
  intro hwhite
  simp only [isWhite, Bool.or_eq_true, Bool.and_eq_true, decide_eq_true_eq, beq_iff_eq] at hwhite
  omega

theorem ne_of_isWhite {c d : Char} (h : isWhite c = true) (hd : isWhite d = false) : c ≠ d := by
  rintro rfl
  rw [h] at hd
  cases hd

/-- The characters that marks other than words are made of. -/
def signs : List Char := ['(', ')', '=', '!', '&', '|']

theorem isWhite_of_signs : ∀ c ∈ signs, isWhite c = false := by
  have hall : signs.all (!isWhite ·) = true := by decide
  simpa using List.all_eq_true.mp hall

theorem isWordPart_of_signs : ∀ c ∈ signs, isWordPart c = false := by
  have hall : signs.all (!isWordPart ·) = true := by decide
  simpa using List.all_eq_true.mp hall

/-- The second mark may be written right after the first. -/
def Clear : Mark → Mark → Prop
  | .word _, .word _ => False
  | .not, .same => False
  | _, _ => True

/-- The mark is found before `s`: `s` does not go on with it. -/
def Mark.EndsBefore : Mark → List Char → Prop
  | word _, s => s.head?.all (!isWordPart ·) = true
  | not, s => s.head? ≠ some '='
  | _, _ => True

theorem endsBefore_of_isWhite {c : Char} (hc : isWhite c = true) (m : Mark) (s : List Char) :
    m.EndsBefore (c :: s) := by
  cases m with
  | word name =>
    have hword : isWordPart c = false := by
      rw [← Bool.not_eq_true]
      intro hword
      rw [not_isWhite_of_isWordPart hword] at hc
      cases hc
    show (!isWordPart c) = true
    rw [hword]
    rfl
  | not => exact fun h => ne_of_isWhite hc (by decide) (Option.some.inj h)
  | _ => trivial

theorem endsBefore_nil (m : Mark) : m.EndsBefore [] := by
  cases m with
  | word name => rfl
  | not => exact nofun
  | _ => trivial

/-- A mark ends before another that is clear of it. -/
theorem endsBefore_of_clear {m n : Mark} (hn : n.IsProper) (hclear : Clear m n) (s : List Char) :
    m.EndsBefore (n.text ++ s) := by
  cases n with
  | word name =>
    obtain ⟨c, r, hname, hc, -, -⟩ := hn
    rw [Mark.text, hname]
    cases m with
    | word name' => exact hclear.elim
    | not =>
      intro h
      obtain rfl : c = '=' := Option.some.inj h
      exact absurd hc (by decide)
    | _ => trivial
  | same =>
    cases m with
    | not => exact hclear.elim
    | word name => rfl
    | _ => trivial
  | _ =>
    cases m with
    | not => simp [Mark.EndsBefore, Mark.text]
    | word name => rfl
    | _ => trivial

theorem Spaced.endsBefore {s : List Char} {ts : List Mark} (h : Spaced s ts) {m : Mark}
    (hclear : ∀ n ∈ ts.head?, Clear m n) : m.EndsBefore s := by
  cases h with
  | nil hws =>
    cases s with
    | nil => exact endsBefore_nil m
    | cons c s => exact endsBefore_of_isWhite (hws c List.mem_cons_self) m s
  | @cons ws s n ts hws hn h =>
    cases ws with
    | nil => exact endsBefore_of_clear hn (hclear n rfl) s
    | cons c ws => exact endsBefore_of_isWhite (hws c List.mem_cons_self) m _

/-! ## One mark -/

/-- An exclamation mark is found by itself unless it makes up a mark with what follows. -/
theorem marks?_not {r : List Char} (h : r.head? ≠ some '=') :
    marks? ('!' :: r) = (marks? r).map (.not :: ·) := by
  rw [marks?.eq_def]
  split
  case h_5 r' heq => exact absurd (by rw [(List.cons.inj heq).2]; rfl) h
  case h_8 heq => rw [(List.cons.inj heq).2]
  case h_9 hne heq => exact absurd (List.cons.inj heq).1.symm hne
  all_goals next heq => simp at heq

/-- Any other character is white space or starts a word. -/
theorem marks?_other {c : Char} (hc : c ∉ signs) (r : List Char) :
    marks? (c :: r) = if isWhite c then marks? r
      else if isWordPart c && !c.isDigit then
        (marks? (r.drop (r.takeWhile isWordPart).length)).map
          (.word (String.ofList (c :: r.takeWhile isWordPart)) :: ·)
      else none := by
  rw [marks?.eq_def]
  split
  case h_9 heq =>
    obtain ⟨rfl, rfl⟩ := List.cons.inj heq
    rfl
  all_goals simp_all [signs]

theorem marks?_white {ws : List Char} (hws : ∀ c ∈ ws, isWhite c = true) (s : List Char) :
    marks? (ws ++ s) = marks? s := by
  induction ws with
  | nil => rfl
  | cons c ws ih =>
    have hc := hws c List.mem_cons_self
    have hsign : c ∉ signs := fun h => ne_of_isWhite hc (isWhite_of_signs c h) rfl
    rw [List.cons_append, marks?_other hsign, if_pos hc,
      ih fun d hd => hws d (List.mem_cons_of_mem c hd)]

theorem marks?_mark {m : Mark} {s : List Char} (hm : m.IsProper) (hs : m.EndsBefore s) :
    marks? (m.text ++ s) = (marks? s).map (m :: ·) := by
  cases m with
  | word name =>
    obtain ⟨c, r, hname, hc, hdigit, hr⟩ := hm
    have hsign : c ∉ signs := by
      intro h
      rw [isWordPart_of_signs c h] at hc
      cases hc
    have hstop : (r ++ s).takeWhile isWordPart = r := by
      rw [List.takeWhile_append_of_pos hr]
      cases s with
      | nil => simp
      | cons d s =>
        have hd : ¬ isWordPart d = true := by simpa [Mark.EndsBefore] using hs
        rw [List.takeWhile_cons_of_neg hd, List.append_nil]
    rw [Mark.text, hname, List.cons_append, marks?_other hsign,
      if_neg (by rw [not_isWhite_of_isWordPart hc]; exact Bool.false_ne_true),
      if_pos (by simp [hc, hdigit]), hstop, List.drop_left, ← hname, String.ofList_toList]
  | not => exact marks?_not hs
  | _ => exact marks?.eq_def _

/-- Marks that are clear of each other are found in a text made up of them. -/
theorem marks?_of_spaced {s : List Char} {ts : List Mark} (h : Spaced s ts)
    (hclear : ts.IsChain Clear) : marks? s = some ts := by
  induction h with
  | nil hws =>
    have hnil := marks?_white hws []
    rw [List.append_nil] at hnil
    exact hnil.trans (marks?.eq_def [])
  | @cons ws s m ts hws hm h ih =>
    rw [List.isChain_cons] at hclear
    rw [marks?_white hws, marks?_mark hm (h.endsBefore hclear.1), ih hclear.2]
    rfl

/-- Marks that are clear of each other, with marks before and after them that join sentences. -/
structure Shut (ts : List Mark) : Prop where
  ne_nil : ts ≠ []
  clear : ts.IsChain Clear
  head : ts.head? ≠ some .same
  last : ts.getLast? ≠ some .not

theorem Shut.last_cons {ts : List Mark} (h : Shut ts) (m : Mark) :
    (m :: ts).getLast? ≠ some .not := by
  have hlast := h.last
  rw [List.getLast?_eq_some_getLast h.ne_nil] at hlast
  rwa [List.getLast?_cons, List.getLast?_eq_some_getLast h.ne_nil]

theorem Shut.word (name : String) : Shut [.word name] where
  ne_nil := List.cons_ne_nil _ _
  clear := .singleton _
  head := by simp
  last := by simp

theorem Shut.group {ts : List Mark} (h : Shut ts) : Shut (.left :: (ts ++ [.right])) where
  ne_nil := List.cons_ne_nil _ _
  clear := by
    rw [List.isChain_cons, List.isChain_append]
    refine ⟨fun n _ => by cases n <;> trivial, h.clear, .singleton _, fun m _ n hn => ?_⟩
    obtain rfl : Mark.right = n := Option.some.inj hn
    cases m <;> trivial
  head := by simp
  last := by
    rw [← List.cons_append, List.getLast?_concat]
    simp

theorem Shut.not {ts : List Mark} (h : Shut ts) : Shut (.not :: ts) where
  ne_nil := List.cons_ne_nil _ _
  clear := by
    rw [List.isChain_cons]
    refine ⟨fun n hn => ?_, h.clear⟩
    cases n with
    | same => exact absurd hn h.head
    | _ => trivial
  head := by simp
  last := h.last_cons .not

theorem Shut.join {ts us : List Mark} {m : Mark} (h : Shut ts) (h' : Shut us)
    (hword : ∀ name, m ≠ .word name) (hnot : m ≠ .not) : Shut (ts ++ m :: us) where
  ne_nil := by simp
  clear := by
    rw [List.isChain_append, List.isChain_cons]
    refine ⟨h.clear, ⟨fun n _ => ?_, h'.clear⟩, fun n hn k hk => ?_⟩
    · cases m with
      | word name => exact absurd rfl (hword name)
      | not => exact absurd rfl hnot
      | _ => cases n <;> trivial
    · obtain rfl : m = k := Option.some.inj hk
      cases n with
      | word name =>
        cases m with
        | word name' => exact absurd rfl (hword name')
        | _ => trivial
      | not => exact absurd hn h.last
      | _ => cases m <;> trivial
  head := by
    rw [List.head?_append_of_ne_nil _ h.ne_nil]
    exact h.head
  last := by
    rw [List.getLast?_append_of_ne_nil _ (List.cons_ne_nil _ _)]
    exact h'.last_cons m

/-- The marks of a sentence do not run together. -/
theorem Sentence.shut {level : Nat} {ts : List Mark} {c : Condition} (h : Sentence level ts c) :
    Shut ts := by
  induction h with
  | trueWord => exact .word _
  | falseWord => exact .word _
  | symbol _ _ => exact .word _
  | group _ ih => exact ih.group
  | not _ ih => exact ih.not
  | lone _ ih => exact ih
  | same _ _ ih ih' => exact ih.join ih' nofun nofun
  | differ _ _ ih ih' => exact ih.join ih' nofun nofun
  | and _ _ ih ih' => exact ih.join ih' nofun nofun
  | or _ _ ih ih' => exact ih.join ih' nofun nofun

/-! ## White space at the end -/

theorem Mark.text_ne_nil {m : Mark} (hm : m.IsProper) : m.text ≠ [] := by
  cases m with
  | word name =>
    obtain ⟨c, r, hname, -⟩ := hm
    rw [text, hname]
    exact List.cons_ne_nil c r
  | _ => exact List.cons_ne_nil _ _

/-- A mark ends with no white space. -/
theorem Mark.not_isWhite_text {m : Mark} (hm : m.IsProper) : ∀ c ∈ m.text, isWhite c = false := by
  cases m with
  | word name =>
    obtain ⟨c, r, hname, hc, -, hr⟩ := hm
    rw [text, hname]
    exact List.forall_mem_cons.mpr
      ⟨not_isWhite_of_isWordPart hc, fun d hd => not_isWhite_of_isWordPart (hr d hd)⟩
  | _ =>
    simp only [text, List.forall_mem_cons, List.not_mem_nil, false_imp_iff, implies_true, and_true]
    decide

theorem Spaced.append_white {s ws : List Char} {ts : List Mark} (hws : ∀ c ∈ ws, isWhite c = true)
    (h : Spaced s ts) : Spaced (s ++ ws) ts := by
  induction h with
  | nil hws' => exact .nil (List.forall_mem_append.mpr ⟨hws', hws⟩)
  | cons hws' hm h ih =>
    rw [List.append_assoc, List.append_assoc]
    exact .cons hws' hm ih

theorem Spaced.of_concat {s : List Char} {c : Char} {ts : List Mark} (hc : isWhite c = true)
    (h : Spaced (s ++ [c]) ts) : Spaced s ts := by
  generalize htext : s ++ [c] = text at h
  induction h generalizing s with
  | nil hws =>
    subst htext
    exact .nil fun d hd => hws d (List.mem_append_left _ hd)
  | @cons ws s' m ts hws hm h ih =>
    rcases List.eq_nil_or_concat s' with rfl | ⟨s', d, rfl⟩
    · -- the last character is one of the mark
      obtain ⟨init, d, htext'⟩ : ∃ init d, m.text = init ++ [d] := by
        rcases List.eq_nil_or_concat m.text with hnil | ⟨init, d, hcons⟩
        · exact absurd hnil (Mark.text_ne_nil hm)
        · exact ⟨init, d, by rw [hcons, List.concat_eq_append]⟩
      have hd := Mark.not_isWhite_text hm d (by rw [htext']; simp)
      rw [htext', List.append_nil, ← List.append_assoc] at htext
      obtain rfl : c = d := (List.cons.inj (List.append_inj' htext rfl).2).1
      rw [hc] at hd
      cases hd
    · rw [List.concat_eq_append, ← List.append_assoc, ← List.append_assoc] at htext
      obtain ⟨rfl, hd⟩ := List.append_inj' htext rfl
      rw [List.append_assoc]
      exact .cons hws hm (ih (by rw [List.concat_eq_append, hd]))

theorem Spaced.of_append {s ws : List Char} {ts : List Mark} (hws : ∀ c ∈ ws, isWhite c = true)
    (h : Spaced (s ++ ws) ts) : Spaced s ts := by
  induction ws generalizing s with
  | nil => rwa [List.append_nil] at h
  | cons c ws ih =>
    rw [List.append_cons] at h
    exact (ih (fun d hd => hws d (List.mem_cons_of_mem c hd)) h).of_concat
      (hws c List.mem_cons_self)

/-- White space at the end of a text does not count. -/
theorem spaced_trimRight {s : List Char} {ts : List Mark} :
    Spaced (trimRight s) ts ↔ Spaced s ts := by
  obtain ⟨ws, hs, hws⟩ := exists_trimRight s
  constructor
  · intro h
    rw [hs]
    exact h.append_white hws
  · intro h
    rw [hs] at h
    exact h.of_append hws

/-! ## Texts -/

/-- A text is a condition exactly if it is made up of the marks of a sentence. -/
theorem ofText_eq_ok_iff {s : List Char} {c : Condition} :
    ofText s = .ok c ↔ ∃ ts, Spaced s ts ∧ Sentence 3 ts c := by
  constructor
  · intro h
    unfold ofText at h
    dsimp only at h
    split at h
    · cases h
    · cases h
    · next marks hne hmarks =>
      split at h
      · cases h
      · cases h
      · next r hr =>
        split at h
        · next hrest =>
          cases h
          obtain ⟨us, hus, hsentence⟩ := reads_sentence.1 3 marks r hr
          rw [List.isEmpty_iff.mp hrest, List.append_nil] at hus
          subst hus
          exact ⟨marks, spaced_trimRight.mp (spaced_of_marks? hmarks), hsentence⟩
        · cases h
  · rintro ⟨ts, hspaced, hsentence⟩
    have hmarks := marks?_of_spaced (spaced_trimRight.mpr hspaced) hsentence.shut.clear
    have hread := hsentence.leads.reads [] (by simp [Stops])
    rw [List.append_nil] at hread
    obtain ⟨r, hr, rfl, hrest⟩ := hread
    obtain ⟨m, us, rfl⟩ := List.exists_cons_of_ne_nil hsentence.shut.ne_nil
    unfold ofText
    dsimp only
    rw [hmarks]
    dsimp only
    rw [hr]
    dsimp only
    rw [hrest]
    rfl

/-- Every fault of a text is about the text. -/
theorem ofText_error {s : List Char} {cause : LexCause} (h : ofText s = .error cause) :
    cause = .missingCondition ∨ cause = .invalidCondition (String.ofList (trimRight s))
      ∨ cause = .unbalancedCondition (String.ofList (trimRight s)) := by
  unfold ofText at h
  dsimp only at h
  split at h
  · cases h
    exact .inr (.inl rfl)
  · cases h
    exact .inl rfl
  · split at h
    · cases h
      exact .inr (.inr rfl)
    · cases h
      exact .inr (.inl rfl)
    · split at h
      · cases h
      · cases h
        exact .inr (.inl rfl)

/-! ## Writing conditions -/

/-- The marks of a condition where operators up to a level may stand: with parentheses around an
operator of a higher level. -/
def fence (level own : Nat) (ts : List Mark) : List Mark :=
  if own ≤ level then ts else .left :: (ts ++ [.right])

/-- The marks of a condition, with parentheses where operators of the levels above `level` stand. -/
def marksAt (level : Nat) : Condition → List Mark
  | constant value => [.word (if value then "true" else "false")]
  | symbol name => [.word name]
  | not c => .not :: c.marksAt 0
  | same c d => fence level 1 (c.marksAt 1 ++ .same :: d.marksAt 0)
  | differ c d => fence level 1 (c.marksAt 1 ++ .differ :: d.marksAt 0)
  | and c d => fence level 2 (c.marksAt 2 ++ .and :: d.marksAt 1)
  | or c d => fence level 3 (c.marksAt 3 ++ .or :: d.marksAt 2)

/-- The text of a condition, with parentheses only where the precedence of the operators needs
them. -/
def written (c : Condition) : List Char := (c.marksAt 3).flatMap Mark.text

/-- The symbols of a condition are identifiers other than `true` and `false`. -/
def IsNamed : Condition → Prop
  | constant _ => True
  | symbol name => IsIdentifier name ∧ name ≠ "true" ∧ name ≠ "false"
  | not c => c.IsNamed
  | same c d | differ c d | and c d | or c d => c.IsNamed ∧ d.IsNamed

theorem Sentence.mono {level level' : Nat} {ts : List Mark} {c : Condition}
    (h : Sentence level ts c) (hle : level ≤ level') : Sentence level' ts c := by
  induction hle with
  | refl => exact h
  | step _ ih => exact ih.lone

theorem Sentence.fence {level own : Nat} {ts : List Mark} {c : Condition} (hown : own ≤ 3)
    (h : Sentence own ts c) : Sentence level (fence level own ts) c := by
  unfold Condition.fence
  split
  · next hle => exact h.mono hle
  · exact (Sentence.group (h.mono hown)).mono (Nat.zero_le level)

/-- A condition is written as a sentence that means it. -/
theorem sentence_marksAt (c : Condition) (h : c.IsNamed) (level : Nat) :
    Sentence level (c.marksAt level) c := by
  induction c generalizing level with
  | constant value =>
    cases value with
    | true => exact Sentence.trueWord.mono (Nat.zero_le level)
    | false => exact Sentence.falseWord.mono (Nat.zero_le level)
  | symbol name => exact (Sentence.symbol h.2.1 h.2.2).mono (Nat.zero_le level)
  | not c ih => exact (ih h 0).not.mono (Nat.zero_le level)
  | same c d ihc ihd => exact ((ihc h.1 1).same (ihd h.2 0)).fence (by decide)
  | differ c d ihc ihd => exact ((ihc h.1 1).differ (ihd h.2 0)).fence (by decide)
  | and c d ihc ihd => exact ((ihc h.1 2).and (ihd h.2 1)).fence (by decide)
  | or c d ihc ihd => exact ((ihc h.1 3).or (ihd h.2 2)).fence (by decide)

/-! ## Written conditions are read -/

theorem isProper_fence {level own : Nat} {ts : List Mark} (h : ∀ m ∈ ts, m.IsProper) :
    ∀ m ∈ fence level own ts, m.IsProper := by
  unfold fence
  split
  · exact h
  · intro m hm
    rcases List.mem_cons.mp hm with rfl | hm
    · trivial
    · rcases List.mem_append.mp hm with hm | hm
      · exact h m hm
      · rw [List.mem_singleton.mp hm]
        trivial

theorem isProper_joined {ts us : List Mark} {m : Mark} (h : ∀ n ∈ ts, n.IsProper) (hm : m.IsProper)
    (h' : ∀ n ∈ us, n.IsProper) : ∀ n ∈ ts ++ m :: us, n.IsProper :=
  List.forall_mem_append.mpr ⟨h, List.forall_mem_cons.mpr ⟨hm, h'⟩⟩

theorem isIdentifier_constant (value : Bool) : IsIdentifier (if value then "true" else "false") := by
  cases value with
  | true => exact ⟨'t', "rue".toList, rfl, rfl, rfl, List.all_eq_true.mp (by decide)⟩
  | false => exact ⟨'f', "alse".toList, rfl, rfl, rfl, List.all_eq_true.mp (by decide)⟩

theorem isProper_marksAt (c : Condition) (h : c.IsNamed) (level : Nat) :
    ∀ m ∈ c.marksAt level, m.IsProper := by
  induction c generalizing level with
  | constant value => exact List.forall_mem_singleton.mpr (isIdentifier_constant value)
  | symbol name => exact List.forall_mem_singleton.mpr h.1
  | not c ih => exact List.forall_mem_cons.mpr ⟨trivial, ih h 0⟩
  | same c d ihc ihd => exact isProper_fence (isProper_joined (ihc h.1 1) trivial (ihd h.2 0))
  | differ c d ihc ihd => exact isProper_fence (isProper_joined (ihc h.1 1) trivial (ihd h.2 0))
  | and c d ihc ihd => exact isProper_fence (isProper_joined (ihc h.1 2) trivial (ihd h.2 1))
  | or c d ihc ihd => exact isProper_fence (isProper_joined (ihc h.1 3) trivial (ihd h.2 2))

theorem spaced_text {ts : List Mark} (h : ∀ m ∈ ts, m.IsProper) :
    Spaced (ts.flatMap Mark.text) ts := by
  induction ts with
  | nil => exact .nil (by simp)
  | cons m ts ih =>
    exact .mark m (h m List.mem_cons_self) (ih fun n hn => h n (List.mem_cons_of_mem m hn))

/-- A condition that is written is read as itself. -/
theorem ofText_written {c : Condition} (h : c.IsNamed) : ofText c.written = .ok c :=
  ofText_eq_ok_iff.mpr ⟨c.marksAt 3, spaced_text (isProper_marksAt c h 3), sentence_marksAt c h 3⟩

end Condition

/-! ## The truth of conditions -/

namespace Region

open Condition

/-- Conditions are read exactly: a text has a truth value if it is made up of the marks of a
sentence, and then that of the sentence; every other text is a fault, which names the text. A
condition that is written with the parentheses that the precedence needs has its own truth value. -/
theorem holds_exact (st : Region) (s : List Char) :
    (∀ value, st.holds s = .ok value ↔
        ∃ ts c, Spaced s ts ∧ Sentence 3 ts c ∧ c.eval st.symbols = value)
      ∧ ((∃ cause, st.holds s = .error cause) ↔ ∀ ts c, Spaced s ts → ¬ Sentence 3 ts c)
      ∧ (∀ cause, st.holds s = .error cause →
        cause = .missingCondition ∨ cause = .invalidCondition (String.ofList (Text.trimRight s))
          ∨ cause = .unbalancedCondition (String.ofList (Text.trimRight s)))
      ∧ ∀ c : Condition, c.IsNamed → st.holds c.written = .ok (c.eval st.symbols) := by
  have hvalue : ∀ value, st.holds s = .ok value ↔
      ∃ ts c, Spaced s ts ∧ Sentence 3 ts c ∧ c.eval st.symbols = value := by
    intro value
    constructor
    · intro h
      obtain ⟨c, hc, rfl⟩ := ok_of_map h
      obtain ⟨ts, hspaced, hsentence⟩ := ofText_eq_ok_iff.mp hc
      exact ⟨ts, c, hspaced, hsentence, rfl⟩
    · rintro ⟨ts, c, hspaced, hsentence, rfl⟩
      rw [holds, ofText_eq_ok_iff.mpr ⟨ts, hspaced, hsentence⟩]
      rfl
  refine ⟨hvalue, ⟨?_, ?_⟩, ?_, ?_⟩
  · rintro ⟨cause, hcause⟩ ts c hspaced hsentence
    rw [(hvalue _).mpr ⟨ts, c, hspaced, hsentence, rfl⟩] at hcause
    cases hcause
  · intro hnone
    cases h : st.holds s with
    | error cause => exact ⟨cause, rfl⟩
    | ok value =>
      obtain ⟨ts, c, hspaced, hsentence, -⟩ := (hvalue value).mp h
      exact absurd hsentence (hnone ts c hspaced)
  · intro cause h
    cases htext : Condition.ofText s with
    | error cause' =>
      rw [holds, htext] at h
      cases h
      exact ofText_error htext
    | ok c =>
      rw [holds, htext] at h
      cases h
  · intro c hc
    rw [holds, ofText_written hc]
    rfl

theorem holds_exact_group :
    (Condition.or (.symbol "A") (.not (.and (.symbol "B") (.symbol "C")))).IsNamed
      ∧ (start ["B"]).holds "A||!(B&&C)".toList = .ok true := by
  have hnamed : (Condition.or (.symbol "A") (.not (.and (.symbol "B") (.symbol "C")))).IsNamed := by
    have hnone : ∀ d ∈ ([] : List Char), Condition.isWordPart d = true := List.forall_mem_nil _
    exact ⟨⟨⟨'A', [], rfl, rfl, rfl, hnone⟩, by decide⟩, ⟨⟨'B', [], rfl, rfl, rfl, hnone⟩, by decide⟩,
      ⟨'C', [], rfl, rfl, rfl, hnone⟩, by decide⟩
  exact ⟨hnamed, (holds_exact (start ["B"]) []).2.2.2 _ hnamed⟩

end Region

end NullableMarker
