import NullableMarker.Proofs.Forms
import NullableMarker.Region

/-!
# The grammar of conditions

Conditions have four levels: words, groups and negations; what is joined by `==` and `!=`; what is
joined by `&&`; what is joined by `||`. Reading goes from level to level with one mark of lookahead,
and finds a condition exactly where the grammar has a sentence.

* `Sentence` — the marks of a condition at a level
* `reads_sentence` — what is read is a sentence
* `Sentence.leads` — a sentence is read, whatever follows that does not go on with it
-/

namespace NullableMarker

namespace Condition

/-! ## The grammar -/

/-- The marks of a condition at a level of the grammar. At level 0 stands a word, a group in
parentheses or a negation; at level 1 what is joined by `==` and `!=`; at level 2 what is joined by
`&&`; at level 3 what is joined by `||`. Operators of one level join from the left. -/
inductive Sentence : Nat → List Mark → Condition → Prop
  | trueWord : Sentence 0 [.word "true"] (.constant true)
  | falseWord : Sentence 0 [.word "false"] (.constant false)
  | symbol {name : String} (htrue : name ≠ "true") (hfalse : name ≠ "false") :
      Sentence 0 [.word name] (.symbol name)
  | group {ts : List Mark} {c : Condition} (h : Sentence 3 ts c) :
      Sentence 0 (.left :: (ts ++ [.right])) c
  | not {ts : List Mark} {c : Condition} (h : Sentence 0 ts c) : Sentence 0 (.not :: ts) (.not c)
  | lone {level : Nat} {ts : List Mark} {c : Condition} (h : Sentence level ts c) :
      Sentence (level + 1) ts c
  | same {ts us : List Mark} {c d : Condition} (h : Sentence 1 ts c) (h' : Sentence 0 us d) :
      Sentence 1 (ts ++ .same :: us) (.same c d)
  | differ {ts us : List Mark} {c d : Condition} (h : Sentence 1 ts c) (h' : Sentence 0 us d) :
      Sentence 1 (ts ++ .differ :: us) (.differ c d)
  | and {ts us : List Mark} {c d : Condition} (h : Sentence 2 ts c) (h' : Sentence 1 us d) :
      Sentence 2 (ts ++ .and :: us) (.and c d)
  | or {ts us : List Mark} {c d : Condition} (h : Sentence 3 ts c) (h' : Sentence 2 us d) :
      Sentence 3 (ts ++ .or :: us) (.or c d)

theorem Sentence.join {level : Nat} {m : Mark} {join : Condition → Condition → Condition}
    {ts us : List Mark} {c d : Condition} (hjoin : joint? level m = some join)
    (h : Sentence (level + 1) ts c) (h' : Sentence level us d) :
    Sentence (level + 1) (ts ++ m :: us) (join c d) := by
  unfold joint? at hjoin
  split at hjoin
  · cases hjoin
    exact .same h h'
  · cases hjoin
    exact .differ h h'
  · cases hjoin
    exact .and h h'
  · cases hjoin
    exact .or h h'
  · cases hjoin

/-! ## Joined operands -/

section Joined

variable {ts : List Mark} {level : Nat} {first : Read ts}

/-- Reading stops where no operator of the level stands. -/
theorem joined_stop (h : ∀ m ∈ first.rest.head?, joint? level m = none) :
    joined level first = .ok first := by
  obtain ⟨c, rest, hlt⟩ := first
  rw [joined]
  split
  · rfl
  · next m us heq =>
    obtain rfl : rest = m :: us := heq
    rw [h m rfl]

/-- Reading goes on with the operand after an operator of the level. -/
theorem joined_next {m : Mark} {rest : List Mark} {join : Condition → Condition → Condition}
    (hrest : first.rest = m :: rest) (hjoin : joint? level m = some join) {next : Read rest}
    (hnext : chain level rest = .ok next) (hlt : next.rest.length < ts.length) :
    joined level first = joined level ⟨join first.condition next.condition, next.rest, hlt⟩ := by
  obtain ⟨c, rest', hlt'⟩ := first
  obtain rfl : rest' = m :: rest := hrest
  rw [joined]
  dsimp only
  rw [hjoin]
  dsimp only
  rw [hnext]

theorem joined_error {m : Mark} {rest : List Mark} {join : Condition → Condition → Condition}
    (hrest : first.rest = m :: rest) (hjoin : joint? level m = some join) {e : Fault}
    (hnext : chain level rest = .error e) : joined level first = .error e := by
  obtain ⟨c, rest', hlt'⟩ := first
  obtain rfl : rest' = m :: rest := hrest
  rw [joined]
  dsimp only
  rw [hjoin]
  dsimp only
  rw [hnext]

end Joined

/-! ## Groups -/

/-- Fewer marks follow a group than stood at its start. -/
theorem group_shorter {rest after : List Mark} {inner : Read rest}
    (hafter : inner.rest = .right :: after) : after.length < (Mark.left :: rest).length := by
  have hlt := inner.shorter
  rw [hafter, List.length_cons] at hlt
  rw [List.length_cons]
  omega

/-- A group is read up to its parenthesis. -/
theorem operand_group {rest after : List Mark} {inner : Read rest} (hinner : chain 3 rest = .ok inner)
    (hafter : inner.rest = .right :: after) :
    operand (.left :: rest) = .ok ⟨inner.condition, after, group_shorter hafter⟩ := by
  obtain ⟨c, rest', hlt⟩ := inner
  obtain rfl : rest' = .right :: after := hafter
  rw [operand, hinner]

theorem operand_unbalanced {rest : List Mark} {inner : Read rest} (hinner : chain 3 rest = .ok inner)
    (hafter : ∀ after, inner.rest = .right :: after → False) :
    operand (.left :: rest) = .error .unbalanced := by
  rw [operand, hinner]
  dsimp only
  split
  · next after heq => exact absurd heq fun h => hafter after h
  · rfl

/-! ## What is read is a sentence -/

/-- What is read is a sentence at the start of the marks. Further operands extend the sentence that
was read before them. -/
theorem reads_sentence :
    (∀ level ts (r : Read ts), chain level ts = .ok r →
        ∃ us, ts = us ++ r.rest ∧ Sentence level us r.condition)
      ∧ (∀ ts level (first r : Read ts), joined level first = .ok r →
        ∀ us, ts = us ++ first.rest → Sentence (level + 1) us first.condition →
          ∃ vs, ts = vs ++ r.rest ∧ Sentence (level + 1) vs r.condition)
      ∧ ∀ ts (r : Read ts), operand ts = .ok r →
        ∃ us, ts = us ++ r.rest ∧ Sentence 0 us r.condition := by
  suffices h : (∀ level ts, ∀ r : Read ts, chain level ts = .ok r →
        ∃ us, ts = us ++ r.rest ∧ Sentence level us r.condition)
      ∧ (∀ ts level (first : Read ts), ∀ r : Read ts, joined level first = .ok r →
        ∀ us, ts = us ++ first.rest → Sentence (level + 1) us first.condition →
          ∃ vs, ts = vs ++ r.rest ∧ Sentence (level + 1) vs r.condition)
      ∧ ∀ ts, ∀ r : Read ts, operand ts = .ok r →
        ∃ us, ts = us ++ r.rest ∧ Sentence 0 us r.condition from
    ⟨h.1, fun ts level first => h.2.1 ts level first, h.2.2⟩
  apply chain.mutual_induct
  case case1 =>
    intro ts ih r h
    rw [chain] at h
    exact ih r h
  case case2 =>
    intro ts level e he ih r h
    rw [chain, he] at h
    cases h
  case case3 =>
    intro ts level first hfirst ih ihjoined r h
    rw [chain, hfirst] at h
    obtain ⟨us, hus, hsentence⟩ := ih first hfirst
    exact ihjoined r h us hus hsentence.lone
  case case4 =>
    intro ts level first hrest r h us hus hsentence
    rw [joined_stop (by simp [hrest])] at h
    cases h
    exact ⟨us, hus, hsentence⟩
  case case5 =>
    intro ts level first m rest hrest hjoint r h us hus hsentence
    rw [joined_stop (by simp [hrest, hjoint])] at h
    cases h
    exact ⟨us, hus, hsentence⟩
  case case6 =>
    intro ts level first m rest hrest join hjoin e he ih r h us hus hsentence
    rw [joined_error hrest hjoin he] at h
    cases h
  case case7 =>
    intro ts level first m rest hrest join hjoin next hnext ih ihjoined r h us hus hsentence
    obtain ⟨vs, hvs, hnextSentence⟩ := ih next hnext
    rw [joined_next hrest hjoin hnext (by
      have := first.shorter
      have := next.shorter
      simp_all; omega)] at h
    have hsplit : ts = (us ++ m :: vs) ++ next.rest := by
      calc ts = us ++ m :: rest := by rw [← hrest]; exact hus
        _ = us ++ m :: (vs ++ next.rest) := by rw [← hvs]
        _ = (us ++ m :: vs) ++ next.rest := by simp
    exact ihjoined r h (us ++ m :: vs) hsplit (hsentence.join hjoin hnextSentence)
  case case8 =>
    intro rest e he ih r h
    rw [operand, he] at h
    cases h
  case case9 =>
    intro rest first hfirst ih r h
    rw [operand, hfirst] at h
    cases h
    obtain ⟨us, hus, hsentence⟩ := ih first hfirst
    exact ⟨.not :: us, congrArg (.not :: ·) hus, hsentence.not⟩
  case case10 =>
    intro rest e he ih r h
    rw [operand, he] at h
    cases h
  case case11 =>
    intro rest first hfirst after hafter ih r h
    obtain ⟨us, hus, hsentence⟩ := ih first hfirst
    rw [operand_group hfirst hafter] at h
    cases h
    have hsplit : .left :: rest = .left :: (us ++ [.right]) ++ after := by
      calc .left :: rest = .left :: (us ++ .right :: after) := by rw [← hafter]; exact congrArg _ hus
        _ = .left :: (us ++ [.right]) ++ after := by simp
    exact ⟨.left :: (us ++ [.right]), hsplit, hsentence.group⟩
  case case12 =>
    intro rest first hfirst hafter ih r h
    rw [operand_unbalanced hfirst hafter] at h
    cases h
  case case13 =>
    intro rest r h
    rw [operand] at h
    cases h
    exact ⟨[.word "true"], rfl, .trueWord⟩
  case case14 =>
    intro rest r h
    rw [operand] at h
    cases h
    exact ⟨[.word "false"], rfl, .falseWord⟩
  case case15 =>
    intro name rest htrue hfalse r h
    rw [operand] at h
    · cases h
      exact ⟨[.word name], rfl, .symbol htrue hfalse⟩
    · exact htrue
    · exact hfalse
  case case16 =>
    intro ts hnot hleft htrue hfalse hword r h
    rw [operand] at h
    · cases h
    all_goals assumption

/-! ## Sentences are read -/

/-- Reading the operands of a level stops at these marks. -/
def Stops (level : Nat) (rest : List Mark) : Prop :=
  ∀ m ∈ rest.head?, ∀ k < level, joint? k m = none

/-- The condition is read from the marks, whatever follows that does not go on with it. -/
def Reads (level : Nat) (ts : List Mark) (c : Condition) : Prop :=
  ∀ rest, Stops level rest → ∃ r : Read (ts ++ rest), chain level (ts ++ rest) = .ok r
    ∧ r.condition = c ∧ r.rest = rest

/-- Reading the marks comes to where the condition has been read, and operands of its level may
follow. -/
def Leads : Nat → List Mark → Condition → Prop
  | 0, ts, c => ∀ rest, ∃ r : Read (ts ++ rest), operand (ts ++ rest) = .ok r
      ∧ r.condition = c ∧ r.rest = rest
  | level + 1, ts, c => ∀ rest, Stops level rest → ∃ first : Read (ts ++ rest),
      chain (level + 1) (ts ++ rest) = joined level first ∧ first.condition = c ∧ first.rest = rest

theorem Leads.reads {level : Nat} {ts : List Mark} {c : Condition} (h : Leads level ts c) :
    Reads level ts c := by
  intro rest hstops
  cases level with
  | zero =>
    obtain ⟨r, hr, hcondition, hrest⟩ := h rest
    exact ⟨r, by rw [chain, hr], hcondition, hrest⟩
  | succ level =>
    obtain ⟨first, hchain, hcondition, hrest⟩ := h rest fun m hm k hk => hstops m hm k (by omega)
    refine ⟨first, ?_, hcondition, hrest⟩
    rw [hchain, joined_stop]
    rw [hrest]
    exact fun m hm => hstops m hm level (by omega)

/-- One operand. -/
theorem Leads.lone {level : Nat} {ts : List Mark} {c : Condition} (h : Leads level ts c) :
    Leads (level + 1) ts c := by
  intro rest hstops
  obtain ⟨first, hchain, hcondition, hrest⟩ := h.reads rest hstops
  exact ⟨first, by rw [chain, hchain], hcondition, hrest⟩

/-- An operator of a level ends the operands of the levels below. -/
theorem joint?_of_lt {level k : Nat} {m : Mark} {join : Condition → Condition → Condition}
    (h : joint? level m = some join) (hk : k < level) : joint? k m = none := by
  unfold joint? at h
  split at h
  · omega
  · omega
  · obtain rfl : k = 0 := by omega
    rfl
  · obtain rfl | rfl : k = 0 ∨ k = 1 := by omega
    · rfl
    · rfl
  · cases h

/-- A parenthesis ends the operands of all levels. -/
theorem joint?_right (level : Nat) : joint? level .right = none := by
  unfold joint?
  split
  · next heq => cases heq
  · next heq => cases heq
  · next heq => cases heq
  · next heq => cases heq
  · rfl

/-- One more operand. -/
theorem Leads.join {level : Nat} {ts us : List Mark} {m : Mark}
    {join : Condition → Condition → Condition} {c d : Condition}
    (hjoin : joint? level m = some join) (h : Leads (level + 1) ts c) (h' : Leads level us d) :
    Leads (level + 1) (ts ++ m :: us) (join c d) := by
  intro rest hstops
  obtain ⟨first, hchain, rfl, hfirst⟩ := h (m :: (us ++ rest)) fun n hn k hk => by
    cases hn
    exact joint?_of_lt hjoin hk
  obtain ⟨next, hnext, rfl, hrest⟩ := h'.reads rest hstops
  have hlt : next.rest.length < (ts ++ m :: (us ++ rest)).length := by
    have := next.shorter
    simp only [List.length_append, List.length_cons] at this ⊢
    omega
  rw [List.append_assoc]
  refine ⟨⟨join first.condition next.condition, next.rest, hlt⟩, ?_, rfl, hrest⟩
  exact hchain.trans (joined_next hfirst hjoin hnext hlt)

/-- A sentence is read. -/
theorem Sentence.leads {level : Nat} {ts : List Mark} {c : Condition} (h : Sentence level ts c) :
    Leads level ts c := by
  induction h with
  | trueWord =>
    intro rest
    have hread : operand (.word "true" :: rest) = .ok ⟨.constant true, rest, by simp⟩ := by
      rw [operand]
    exact ⟨_, hread, rfl, rfl⟩
  | falseWord =>
    intro rest
    have hread : operand (.word "false" :: rest) = .ok ⟨.constant false, rest, by simp⟩ := by
      rw [operand]
    exact ⟨_, hread, rfl, rfl⟩
  | @symbol name htrue hfalse =>
    intro rest
    have hread : operand (.word name :: rest) = .ok ⟨.symbol name, rest, by simp⟩ := by
      rw [operand]
      · exact htrue
      · exact hfalse
    exact ⟨_, hread, rfl, rfl⟩
  | @group ts c h ih =>
    intro rest
    obtain ⟨inner, hinner, rfl, hafter⟩ := ih.reads (.right :: rest) fun m hm k _ => by
      cases hm
      exact joint?_right k
    have hoperand := operand_group hinner hafter
    have happend : .left :: (ts ++ [.right]) ++ rest = .left :: (ts ++ .right :: rest) := by simp
    rw [happend]
    exact ⟨_, hoperand, rfl, rfl⟩
  | @not ts c h ih =>
    intro rest
    obtain ⟨r, hr, rfl, hrest⟩ := ih rest
    have hlt : r.rest.length < (.not :: (ts ++ rest) : List Mark).length := by
      have := r.shorter
      rw [List.length_cons]
      omega
    have hread : operand (.not :: (ts ++ rest)) = .ok ⟨.not r.condition, r.rest, hlt⟩ := by
      rw [operand, hr]
    exact ⟨_, hread, rfl, hrest⟩
  | lone h ih => exact ih.lone
  | same h h' ih ih' => exact .join rfl ih ih'
  | differ h h' ih ih' => exact .join rfl ih ih'
  | and h h' ih ih' => exact .join rfl ih ih'
  | or h h' ih ih' => exact .join rfl ih ih'

end Condition

end NullableMarker
