import NullableMarker.Proofs.LexemeBounds

/-!
# Lexemes end before a question mark

A question mark outside of literals and comments is a token of its own. A token that is read in front
of a text is therefore read in front of the same text with question marks put in, and no more of the
text becomes part of it.

* `Inserted` — a text with question marks put in
* `EndsEarly` — a reader that does not notice marks after what it takes
* `tokenAhead_inserted` — tokens do not notice them
-/

namespace NullableMarker

open Text

/-! ## Texts with question marks put in -/

/-- The second text is the first with question marks put in. -/
inductive Inserted : List Char → List Char → Prop
  | nil : Inserted [] []
  | keep (c : Char) {s s' : List Char} (h : Inserted s s') : Inserted (c :: s) (c :: s')
  | mark {s s' : List Char} (h : Inserted s s') : Inserted s ('?' :: s')

theorem Inserted.prepend (b : List Char) {x x' : List Char} (h : Inserted x x') :
    Inserted (b ++ x) (b ++ x') := by
  induction b with
  | nil => exact h
  | cons c b ih => exact .keep c ih

/-- A class of characters without the question mark is not met earlier. -/
theorem Inserted.head?_any {x x' : List Char} (h : Inserted x x') {p : Char → Bool}
    (hp : p '?' = false) (hx : x'.head?.any p = true) : x.head?.any p = true := by
  cases h with
  | nil => exact hx
  | keep c h => exact hx
  | mark h =>
    rw [List.head?_cons, Option.any_some, hp] at hx
    cases hx

/-- A character other than the question mark is not met earlier. -/
theorem Inserted.head?_eq {x x' : List Char} (h : Inserted x x') {c : Char} (hc : c ≠ '?')
    (hx : x'.head? = some c) : x.head? = some c := by
  cases h with
  | nil => exact hx
  | keep d h => exact hx
  | mark h =>
    rw [List.head?_cons, Option.some_inj] at hx
    exact absurd hx.symm hc

/-- A run of characters that ends in `b` does not notice what follows, if the run does not go on
there. -/
theorem takeWhile_append_of_le {p : Char → Bool} {b x x' : List Char}
    (hhead : x'.head?.any p = true → x.head?.any p = true)
    (h : ((b ++ x).takeWhile p).length ≤ b.length) :
    (b ++ x').takeWhile p = (b ++ x).takeWhile p := by
  have hnil : ∀ y : List Char, y.takeWhile p = [] ↔ y.head?.any p = false := by
    intro y
    cases y with
    | nil => simp
    | cons c y => cases hc : p c <;> simp [hc]
  induction b with
  | nil =>
    have hx : x.takeWhile p = [] := by simpa using h
    have hx' : x'.head?.any p = false := by
      rw [← Bool.not_eq_true]
      intro htrue
      have := (hnil x).mp hx
      rw [hhead htrue] at this
      cases this
    rw [List.nil_append, List.nil_append, hx]
    exact (hnil x').mpr hx'
  | cons c b ih =>
    rw [List.cons_append] at h ⊢
    rw [List.cons_append]
    cases hc : p c with
    | false => simp [hc]
    | true =>
      simp only [List.takeWhile_cons, hc, if_true, List.length_cons] at h ⊢
      rw [ih (by omega)]

/-- A run does not get longer. -/
theorem Inserted.length_takeWhile_le {p : Char → Bool} (hp : p '?' = false) {s s' : List Char}
    (h : Inserted s s') : (s'.takeWhile p).length ≤ (s.takeWhile p).length := by
  induction h with
  | nil => exact Nat.le_refl _
  | keep c h ih => cases hc : p c <;> simp [hc, ih]
  | mark h ih => simp [hp]

/-- A run stays, or a question mark ends it. -/
theorem Inserted.takeWhile_or {p : Char → Bool} (hp : p '?' = false) {s s' : List Char}
    (h : Inserted s s') :
    s'.takeWhile p = s.takeWhile p
        ∧ Inserted (s.drop (s.takeWhile p).length) (s'.drop (s.takeWhile p).length)
      ∨ (s'.drop (s'.takeWhile p).length).head? = some '?' := by
  induction h with
  | nil => exact .inl ⟨rfl, .nil⟩
  | mark h ih => simp [hp]
  | keep c h ih =>
    cases hc : p c with
    | false =>
      rw [List.takeWhile_cons, List.takeWhile_cons, hc]
      exact .inl ⟨rfl, .keep c h⟩
    | true => simpa [hc] using ih

/-- A reader that tells how many characters it takes, and does not notice question marks put in after
them. -/
def EndsEarly (reader : List Char → Nat) : Prop :=
  ∀ b x x', Inserted x x' → reader (b ++ x) ≤ b.length → reader (b ++ x') = reader (b ++ x)

/-! ## Numbers -/

namespace Number

theorem endsEarly_runLength {p : Char → Bool} (hp : p '?' = false) : EndsEarly (runLength p) :=
  fun _ _ _ h hle => congrArg List.length (takeWhile_append_of_le (h.head?_any hp) hle)

/-- It is enough to look at texts whose first character stays. -/
theorem endsEarly_of_cons {reader : List Char → Nat} (hmark : ∀ s, reader ('?' :: s) = 0)
    (hcons : ∀ c b x x', Inserted x x' → reader (c :: (b ++ x)) ≤ b.length + 1 →
      reader (c :: (b ++ x')) = reader (c :: (b ++ x))) : EndsEarly reader := by
  intro b x x' h hle
  cases b with
  | cons c b => exact hcons c b x x' h hle
  | nil =>
    cases h with
    | nil => rfl
    | @keep c s s' h => exact hcons c [] s s' h (Nat.le_succ_of_le hle)
    | mark h =>
      have hzero : reader x = 0 := by simpa using hle
      exact (hmark _).trans hzero.symm

/-- One reader after another. -/
theorem EndsEarly.andThen {f g : List Char → Nat} (hf : EndsEarly f) (hg : EndsEarly g) :
    EndsEarly fun s => f s + g (s.drop (f s)) := by
  intro b x x' h hle
  dsimp only at hle ⊢
  rw [hf b x x' h (by omega)]
  have hk : f (b ++ x) ≤ b.length := by omega
  rw [List.drop_append_of_le_length hk] at hle ⊢
  rw [List.drop_append_of_le_length hk, hg _ x x' h (by rw [List.length_drop]; omega)]

/-- The first of two readers that takes anything. -/
theorem EndsEarly.orElse {f g : List Char → Nat} (hf : EndsEarly f) (hg : EndsEarly g) :
    EndsEarly fun s => if f s ≠ 0 then f s else g s := by
  intro b x x' h hle
  dsimp only at hle ⊢
  by_cases hzero : f (b ++ x) = 0
  · rw [hf b x x' h (by omega)]
    rw [if_neg (not_not_intro hzero)] at hle
    rw [if_neg (not_not_intro hzero), if_neg (not_not_intro hzero), hg b x x' h hle]
  · rw [if_pos hzero] at hle
    rw [hf b x x' h hle]
    simp only [if_pos hzero]

theorem endsEarly_digits : EndsEarly digits := by
  refine endsEarly_of_cons (fun _ => rfl) ?_
  intro c b x x' h hle
  simp only [digits] at hle ⊢
  cases hc : c.isDigit with
  | false => rfl
  | true =>
    simp only [hc, if_true] at hle ⊢
    rw [endsEarly_runLength rfl b x x' h (by omega)]

theorem endsEarly_fraction : EndsEarly fraction := by
  refine endsEarly_of_cons (fun _ => rfl) ?_
  intro c b x x' h hle
  by_cases hc : c = '.'
  · subst hc
    simp only [fraction] at hle ⊢
    have hdigits : digits (b ++ x) ≤ b.length := by
      split at hle <;> omega
    rw [endsEarly_digits b x x' h hdigits]
  · have hother : ∀ r, fraction (c :: r) = 0 := by
      intro r
      unfold fraction
      split
      · next heq => cases heq; exact absurd rfl hc
      · rfl
    rw [hother, hother]

/-- The sign before an exponent, and its digits. -/
def signed (s : List Char) : Nat :=
  if digits (s.drop (sign s)) = 0 then 0 else sign s + digits (s.drop (sign s))

theorem endsEarly_signed : EndsEarly signed := by
  refine endsEarly_of_cons (fun _ => rfl) ?_
  intro c b x x' h hle
  have hsign : sign (c :: (b ++ x')) = sign (c :: (b ++ x)) := rfl
  have hlen : sign (c :: (b ++ x)) ≤ (c :: b).length := by
    unfold sign
    split <;> simp
  have hdrop : ∀ y, (c :: b ++ y).drop (sign (c :: (b ++ x)))
      = (c :: b).drop (sign (c :: (b ++ x))) ++ y := fun y => List.drop_append_of_le_length hlen
  simp only [List.cons_append] at hdrop
  have hdigits := endsEarly_digits ((c :: b).drop (sign (c :: (b ++ x)))) x x' h
  unfold signed at hle ⊢
  rw [hsign, hdrop, hdrop]
  rw [hdrop] at hle
  rw [hdigits]
  rw [List.length_drop, List.length_cons]
  split at hle <;> omega

theorem exponent_eq (e : Char) (r : List Char) : exponent (e :: r)
    = if (e == 'e' || e == 'E') = true ∧ signed r ≠ 0 then signed r + 1 else 0 := by
  simp only [exponent, signed]
  by_cases hzero : digits (r.drop (sign r)) = 0
  · simp [hzero]
  · cases he : (e == 'e' || e == 'E') with
    | false => simp
    | true =>
      simp [hzero]
      omega

theorem endsEarly_exponent : EndsEarly exponent := by
  refine endsEarly_of_cons (fun _ => rfl) ?_
  intro e b x x' h hle
  rw [exponent_eq] at hle
  rw [exponent_eq, exponent_eq]
  by_cases he : (e == 'e' || e == 'E') = true
  · have hsigned : signed (b ++ x) ≤ b.length := by
      split at hle
      · omega
      · next hzero =>
        have : signed (b ++ x) = 0 := by simpa [he] using hzero
        omega
    rw [endsEarly_signed b x x' h hsigned]
  · simp [he]

theorem endsEarly_decimal : EndsEarly decimal := by
  have hmantissa := EndsEarly.andThen endsEarly_digits endsEarly_fraction
  have hscaled := EndsEarly.andThen hmantissa endsEarly_exponent
  exact EndsEarly.andThen hscaled (endsEarly_runLength (p := isSuffix) rfl)

/-- The digits of a base and the suffix after them, of which digits must be there. -/
def basedDigits (isDigit : Char → Bool) (r : List Char) : Nat :=
  if runLength isDigit r = 0 then 0
  else runLength isDigit r + runLength isIntegerSuffix (r.drop (runLength isDigit r))

theorem endsEarly_basedDigits {isDigit : Char → Bool} (hdigit : isDigit '?' = false) :
    EndsEarly (basedDigits isDigit) := by
  intro b x x' h hle
  have hrun := endsEarly_runLength hdigit b x x' h
  have hboth := EndsEarly.andThen (endsEarly_runLength hdigit)
    (endsEarly_runLength (p := isIntegerSuffix) rfl) b x x' h
  dsimp only at hboth
  unfold basedDigits at hle ⊢
  by_cases hzero : runLength isDigit (b ++ x) = 0
  · rw [hrun (by omega), if_pos hzero, if_pos hzero]
  · rw [if_neg hzero] at hle
    rw [hboth hle, hrun (by omega)]

theorem based_eq (isMark isDigit : Char → Bool) (m : Char) (r : List Char) :
    based isMark isDigit ('0' :: m :: r)
      = if isMark m = true ∧ basedDigits isDigit r ≠ 0 then basedDigits isDigit r + 2 else 0 := by
  simp only [based, basedDigits]
  by_cases hzero : runLength isDigit r = 0
  · simp [hzero]
  · cases hm : isMark m with
    | false => simp
    | true =>
      simp [hzero]
      omega

theorem endsEarly_based {isMark isDigit : Char → Bool} (hmark : isMark '?' = false)
    (hdigit : isDigit '?' = false) : EndsEarly (based isMark isDigit) := by
  have hmarked : EndsEarly fun r => based isMark isDigit ('0' :: r) - 1 := by
    refine endsEarly_of_cons (fun s => by simp [based_eq, hmark]) ?_
    intro m b x x' h hle
    rw [based_eq] at hle
    rw [based_eq, based_eq]
    by_cases hm : isMark m = true
    · have hdigits : basedDigits isDigit (b ++ x) ≤ b.length := by
        split at hle
        · omega
        · next hzero =>
          have : basedDigits isDigit (b ++ x) = 0 := by simpa [hm] using hzero
          omega
      rw [endsEarly_basedDigits hdigit b x x' h hdigits]
    · simp [hm]
  have hpos : ∀ r, based isMark isDigit ('0' :: r) ≠ 1 := by
    intro r
    cases r with
    | nil => simp [based]
    | cons m r => rw [based_eq]; split <;> omega
  refine endsEarly_of_cons (fun _ => rfl) ?_
  intro c b x x' h hle
  by_cases hc : c = '0'
  · subst hc
    have hsame := hmarked b x x' h (by dsimp only; omega)
    dsimp only at hsame
    have h₁ := hpos (b ++ x)
    have h₂ := hpos (b ++ x')
    omega
  · have hother : ∀ r, based isMark isDigit (c :: r) = 0 := by
      intro r
      unfold based
      split
      · next heq => cases heq; exact absurd rfl hc
      · rfl
    rw [hother, hother]

theorem endsEarly_numberLength : EndsEarly numberLength :=
  EndsEarly.orElse (endsEarly_based rfl rfl)
    (EndsEarly.orElse (endsEarly_based rfl rfl) endsEarly_decimal)

/-- A point with a digit after it starts a number longer than the point. -/
theorem two_le_numberLength {d : Char} (hd : d.isDigit = true) (r : List Char) :
    2 ≤ numberLength ('.' :: d :: r) := by
  have hdecimal : numberLength ('.' :: d :: r) = decimal ('.' :: d :: r) := by
    simp [numberLength, based]
  have hfraction : 2 ≤ fraction ('.' :: d :: r) := by
    simp [fraction, digits, hd]
  have hdigits : digits ('.' :: d :: r) = 0 := rfl
  rw [hdecimal, decimal, hdigits]
  simp only [List.drop_zero]
  omega

/-- Whether a number starts does not depend on marks after it. -/
theorem startsNumber_inserted {c : Char} {b x x' : List Char} (h : Inserted x x')
    (hle : startsNumber (c :: (b ++ x)) = true → numberLength (c :: (b ++ x)) ≤ b.length + 1) :
    startsNumber (c :: (b ++ x')) = startsNumber (c :: (b ++ x)) := by
  by_cases hc : c = '.'
  · subst hc
    cases b with
    | cons d b => rfl
    | nil =>
      cases h with
      | nil => rfl
      | keep d h => rfl
      | mark h =>
        cases x with
        | nil => rfl
        | cons d s =>
          have hd : d.isDigit = false := by
            rw [← Bool.not_eq_true]
            intro hd
            have hshort := hle hd
            have hlong := two_le_numberLength hd s
            simp only [List.nil_append, List.length_nil] at hshort
            omega
          show Char.isDigit '?' = d.isDigit
          rw [hd]
          rfl
  · have hother : ∀ r, startsNumber (c :: r) = c.isDigit := by
      intro r
      unfold startsNumber
      split
      · next heq => cases heq; exact absurd rfl hc
      · next heq => cases heq; rfl
      · next heq => cases heq
    rw [hother, hother]

end Number

/-! ## Literals -/

namespace Literal

theorem endsEarly_quoteRun : EndsEarly quoteRun := Number.endsEarly_runLength rfl

theorem Inserted.quoteRun_le {s s' : List Char} (h : Inserted s s') : quoteRun s' ≤ quoteRun s :=
  h.length_takeWhile_le rfl

/-- The frame that marks of a string open when a quote follows them. -/
def markedOpening? (n : Nat) (s : List Char) : Option (Frame × Nat) :=
  let marks := s.takeWhile isStringMark
  if marks.head? == some '$' || marks.take 2 == ['@', '$'] then
    match s.drop marks.length with
    | '"' :: r =>
      if 2 ≤ quoteRun r then
        some (.raw (quoteRun r + 1) (n + marks.length), marks.length + quoteRun r)
      else some (.interpolated (marks.contains '@') (marks.count '$') n, marks.length)
    | _ => none
  else none

theorem opening?_marked {n : Nat} {c : Char} {r : List Char} (hquote : c ≠ '"') (hmark : c ≠ '\'')
    (hverbatim : c = '@' → r.head? ≠ some '"') : opening? n (c :: r) = markedOpening? n (c :: r) := by
  unfold opening?
  split
  · next heq => cases heq; exact absurd rfl hquote
  · next heq => cases heq; exact absurd rfl hmark
  · next heq => cases heq; exact absurd rfl (hverbatim rfl)
  · rfl

/-- What a run of quotes opens, told by its length if there are two or more, stays if the run ends in
`b`. -/
theorem ite_quoteRun_inserted {α : Type} (g : Nat → α) (a : α) {b x x' : List Char}
    (h : Inserted x x') (hle : 2 ≤ quoteRun (b ++ x) → quoteRun (b ++ x) ≤ b.length) :
    (if 2 ≤ quoteRun (b ++ x') then g (quoteRun (b ++ x')) else a)
      = if 2 ≤ quoteRun (b ++ x) then g (quoteRun (b ++ x)) else a := by
  by_cases htwo : 2 ≤ quoteRun (b ++ x)
  · rw [endsEarly_quoteRun b x x' h (hle htwo)]
  · have hshort := Inserted.quoteRun_le (h.prepend b)
    rw [if_neg htwo, if_neg (by omega)]

/-- A text that opens no literal opens none with question marks put in after its first character. -/
theorem opening?_none {n : Nat} {c : Char} {r r' : List Char} (h : Inserted r r')
    (hnone : opening? n (c :: r) = none) : opening? n (c :: r') = none := by
  have hquote : c ≠ '"' := by
    rintro rfl
    simp only [opening?] at hnone
    split at hnone <;> cases hnone
  have hmark : c ≠ '\'' := by
    rintro rfl
    cases hnone
  have hverbatim : c = '@' → r.head? ≠ some '"' := by
    rintro rfl hr
    obtain ⟨r, rfl⟩ := List.head?_eq_some_iff.mp hr
    cases hnone
  rw [opening?_marked hquote hmark hverbatim] at hnone
  rw [opening?_marked hquote hmark fun hc hr' => hverbatim hc (h.head?_eq (by decide) hr')]
  unfold markedOpening? at hnone ⊢
  dsimp only at hnone ⊢
  rcases (Inserted.keep c h).takeWhile_or (p := isStringMark) rfl with ⟨hsame, hrest⟩ | hend
  · rw [hsame]
    split at hnone
    · next hmarks =>
      rw [if_pos hmarks]
      split
      · next r₁ hdrop =>
        have hhead := hrest.head?_eq (c := '"') (by decide) (by rw [hdrop]; rfl)
        obtain ⟨r₂, hr₂⟩ := List.head?_eq_some_iff.mp hhead
        rw [hr₂] at hnone
        simp only at hnone
        split at hnone <;> cases hnone
      · rfl
    · next hmarks => rw [if_neg hmarks]
  · obtain ⟨r₁, hr₁⟩ := List.head?_eq_some_iff.mp hend
    rw [hr₁]
    split <;> rfl

/-- What marks of a string open does not depend on question marks put in after it. -/
theorem markedOpening?_some {n extra : Nat} {c : Char} {b x x' : List Char} {f : Frame}
    (h : Inserted x x') (hopen : markedOpening? n (c :: (b ++ x)) = some (f, extra))
    (hle : extra ≤ b.length) : markedOpening? n (c :: (b ++ x')) = some (f, extra) := by
  unfold markedOpening? at hopen ⊢
  dsimp only at hopen ⊢
  split at hopen
  next hmarks =>
    split at hopen
    next r hdrop =>
      have hlen : ((c :: (b ++ x)).takeWhile isStringMark).length ≤ b.length := by
        split at hopen <;> cases hopen <;> omega
      have hsame : (c :: (b ++ x')).takeWhile isStringMark = (c :: (b ++ x)).takeWhile isStringMark :=
        takeWhile_append_of_le (b := c :: b) (h.head?_any rfl) (Nat.le_succ_of_le hlen)
      generalize (c :: (b ++ x)).takeWhile isStringMark = marks at *
      -- the quote after the marks stands before the question marks
      have hcut : ∀ y, (c :: (b ++ y)).drop marks.length = (c :: b).drop marks.length ++ y :=
        fun y => List.drop_append_of_le_length (show marks.length ≤ (c :: b).length from
          Nat.le_succ_of_le hlen)
      have hcount : ((c :: b).drop marks.length).length + marks.length = b.length + 1 := by
        rw [List.length_drop, List.length_cons]
        omega
      rw [hsame, if_pos hmarks, hcut]
      rw [hcut] at hdrop
      cases hd : (c :: b).drop marks.length with
      | nil =>
        rw [hd, List.length_nil] at hcount
        omega
      | cons a d =>
        rw [hd, List.cons_append] at hdrop
        obtain ⟨rfl, rfl⟩ := List.cons.inj hdrop
        rw [hd, List.length_cons] at hcount
        refine (ite_quoteRun_inserted
          (fun k => some (Frame.raw (k + 1) (n + marks.length), marks.length + k)) _ h ?_).trans hopen
        intro htwo
        rw [if_pos htwo] at hopen
        cases hopen
        omega
    · cases hopen
  · cases hopen

/-- What opens a literal does not depend on question marks put in after it. -/
theorem opening?_some {n extra : Nat} {c : Char} {b x x' : List Char} {f : Frame}
    (h : Inserted x x') (hopen : opening? n (c :: (b ++ x)) = some (f, extra))
    (hle : extra ≤ b.length) : opening? n (c :: (b ++ x')) = some (f, extra) := by
  by_cases hquote : c = '"'
  · subst hquote
    simp only [opening?] at hopen ⊢
    refine (ite_quoteRun_inserted (b := b) (fun k => some (Frame.raw (k + 1) n, k)) _ h ?_).trans hopen
    intro htwo
    rw [if_pos htwo] at hopen
    cases hopen
    exact hle
  by_cases hmark : c = '\''
  · subst hmark
    exact hopen
  by_cases hverbatim : c = '@' ∧ (b ++ x).head? = some '"'
  · obtain ⟨rfl, hhead⟩ := hverbatim
    cases b with
    | nil =>
      obtain ⟨x, rfl⟩ := List.head?_eq_some_iff.mp hhead
      cases hopen
      simp at hle
    | cons d b =>
      cases hhead
      exact hopen
  have hverbatim : c = '@' → (b ++ x).head? ≠ some '"' := fun hc hx => hverbatim ⟨hc, hx⟩
  rw [opening?_marked hquote hmark hverbatim] at hopen
  rw [opening?_marked hquote hmark fun hc hx' =>
    hverbatim hc ((h.prepend b).head?_eq (by decide) hx')]
  exact markedOpening?_some h hopen hle

/-- What a frame does at a character does not depend on question marks after what it consumes. -/
theorem Frame.step_inserted {f : Frame} {n extra : Nat} {c : Char} {b x x' : List Char}
    {gs : List Frame} (h : Inserted x x') (hstep : f.step n c (b ++ x) = .ok (gs, extra))
    (hle : extra ≤ b.length) : f.step n c (b ++ x') = .ok (gs, extra) := by
  -- a character that must follow is met again, one that must not is not met
  have hhead : ∀ d, d ≠ '?' → ((b ++ x).head? = some d → 1 ≤ b.length) →
      ((b ++ x').head? == some d) = ((b ++ x).head? == some d) := by
    intro d hd hlong
    cases b with
    | cons a b => rfl
    | nil =>
      have hx : x.head? ≠ some d := fun hx => absurd (hlong hx) (by simp)
      have hx' : x'.head? ≠ some d := fun hx' => hx (h.head?_eq hd hx')
      rw [List.nil_append, List.nil_append, beq_false_of_ne hx, beq_false_of_ne hx']
  have hhead₁ : ∀ d, d ≠ '?' → ((b ++ x).head? = some d → extra = 1) →
      ((b ++ x').head? == some d) = ((b ++ x).head? == some d) :=
    fun d hd hone => hhead d hd fun hx => hone hx ▸ hle
  unfold Frame.step at hstep ⊢
  cases f with
  | regular mark start => exact hstep
  | verbatim start =>
    dsimp only at hstep ⊢
    split at hstep
    · next hc =>
      rw [if_pos hc, hhead₁ '"' (by decide)]
      · exact hstep
      · intro hx
        rw [hx] at hstep
        cases hstep
        rfl
    · next hc => rw [if_neg hc]; exact hstep
  | raw quotes start =>
    dsimp only at hstep ⊢
    split at hstep
    · next hc =>
      have hrun : quoteRun (b ++ x) ≤ b.length := by
        split at hstep <;> cases hstep <;> exact hle
      rw [if_pos hc, endsEarly_quoteRun b x x' h hrun]
      exact hstep
    · next hc => rw [if_neg hc]; exact hstep
  | interpolated isVerbatim dollars start =>
    dsimp only at hstep ⊢
    split at hstep
    · next hc => rw [if_pos hc]; exact hstep
    next hescape =>
    rw [if_neg hescape]
    split at hstep
    · next hc =>
      rw [if_pos hc]
      cases isVerbatim with
      | false => exact hstep
      | true =>
        rw [hhead₁ '"' (by decide)]
        · exact hstep
        · intro hx
          rw [hx] at hstep
          cases hstep
          rfl
    next hquote =>
    rw [if_neg hquote]
    split at hstep
    · next hc =>
      rw [if_pos hc]
      cases hone : dollars == 1 with
      | false =>
        simp only [hone, Bool.and_false] at hstep ⊢
        exact hstep
      | true =>
        rw [hone] at hstep
        rw [hhead₁ '{' (by decide)]
        · exact hstep
        · intro hx
          rw [hx] at hstep
          cases hstep
          rfl
    next hbrace =>
    rw [if_neg hbrace]
    exact hstep
  | hole braces =>
    dsimp only at hstep ⊢
    split at hstep
    · next hc => rw [if_pos hc]; exact hstep
    next hopen =>
    rw [if_neg hopen]
    split at hstep
    · next hc => rw [if_pos hc]; exact hstep
    next hclose =>
    rw [if_neg hclose]
    cases hfound : opening? n (c :: (b ++ x)) with
    | none =>
      rw [hfound] at hstep
      rw [opening?_none (h.prepend b) hfound]
      exact hstep
    | some found =>
      obtain ⟨g, more⟩ := found
      rw [hfound] at hstep
      cases hstep
      rw [opening?_some h hfound hle]

/-- The end of the open frames does not depend on question marks put in after it. -/
theorem closing_inserted {frames : List Frame} {n m : Nat} {b x x' : List Char} (h : Inserted x x')
    (hclose : closing frames n (b ++ x) = .ok m) (hle : m ≤ n + b.length) :
    closing frames n (b ++ x') = .ok m := by
  generalize hs : b ++ x = s at hclose
  fun_induction closing frames n s generalizing b with
  | case1 n s =>
    cases hclose
    rw [closing]
  | case2 n f fs => cases hclose
  | case3 n f fs c r e he => cases hclose
  | case4 n f fs c r gs extra he ih =>
    have hbounds := closing_bounds hclose
    cases b with
    | nil =>
      simp only [List.length_nil] at hle
      omega
    | cons d b =>
      rw [List.cons_append, List.cons.injEq] at hs
      obtain ⟨rfl, rfl⟩ := hs
      rw [List.length_cons] at hle
      have hextra : extra ≤ b.length := by omega
      rw [List.drop_append_of_le_length hextra] at hclose ih
      have := ih (by rw [List.length_drop]; omega) rfl hclose
      rw [List.cons_append, closing, Frame.step_inserted h he hextra]
      dsimp only
      rw [List.drop_append_of_le_length hextra]
      exact this

/-- A literal does not depend on question marks put in after it. -/
theorem literalLength?_some {c : Char} {b x x' : List Char} (h : Inserted x x') {k : Nat}
    (hlit : literalLength? (c :: (b ++ x)) = .ok (some k)) (hle : k ≤ b.length + 1) :
    literalLength? (c :: (b ++ x')) = .ok (some k) := by
  obtain ⟨f, extra, hopen, hclose⟩ := literalLength?_eq_some hlit
  obtain ⟨hlow, -, hne⟩ := closing_bounds hclose
  have := hne (List.cons_ne_nil f [])
  have hcut : ∀ y, (c :: b ++ y).drop (1 + extra) = (c :: b).drop (1 + extra) ++ y :=
    fun y => List.drop_append_of_le_length (by rw [List.length_cons]; omega)
  simp only [List.cons_append] at hcut
  rw [hcut] at hclose
  rw [literalLength?_opening (opening?_some h hopen (by omega)), hcut,
    closing_inserted h hclose (by rw [List.length_drop, List.length_cons]; omega)]
  rfl

theorem literalLength?_none {c : Char} {r r' : List Char} (h : Inserted r r')
    (hlit : literalLength? (c :: r) = .ok none) : literalLength? (c :: r') = .ok none :=
  literalLength?_eq_none_iff.mpr (opening?_none h (literalLength?_eq_none_iff.mp hlit))

end Literal

/-! ## Marks and words -/

theorem doubleMarks_ne_question {mark : List Char × TokenKind} (h : mark ∈ doubleMarks) :
    mark.1[1]? ≠ some '?' := by
  revert mark; decide

theorem punctuation?_inserted {c : Char} {b x x' : List Char} (h : Inserted x x')
    {kind : TokenKind} (hmark : punctuation? c (b ++ x) = some (kind, b.length)) :
    punctuation? c (b ++ x') = some (kind, b.length) := by
  cases b with
  | cons d b => exact hmark
  | nil =>
    have hnone : ∀ y : List Char, punctuation? c y = some (kind, 0) ↔
        doubleMarks.lookup (c :: y.take 1) = none
          ∧ (singleMarks.lookup c).map (·, 0) = some (kind, 0) := by
      intro y
      unfold punctuation?
      cases doubleMarks.lookup (c :: y.take 1) <;> simp
    rw [List.nil_append, List.length_nil, hnone] at hmark ⊢
    refine ⟨?_, hmark.2⟩
    cases h with
    | nil => exact hmark.1
    | keep d h => exact hmark.1
    | mark h =>
      rw [← Option.not_isSome_iff_eq_none]
      intro hsome
      obtain ⟨k, hk⟩ := Option.isSome_iff_exists.mp hsome
      exact doubleMarks_ne_question (mem_of_lookup_eq_some hk) rfl

theorem isWordPart_of_isWordStart {c : Char} (h : isWordStart c = true) : isWordPart c = true := by
  unfold isWordStart at h
  unfold isWordPart
  rw [h, Bool.true_or]

/-- A word does not start only because of question marks. -/
theorem startsWord_inserted {c : Char} {r r' : List Char} (h : Inserted r r')
    (hword : startsWord c r = false) : startsWord c r' = false := by
  rw [← Bool.not_eq_true, startsWord, Bool.or_eq_true, Bool.and_eq_true] at hword ⊢
  exact fun hword' => hword (hword'.imp_right fun hat =>
    ⟨hat.1, h.head?_any (by decide +kernel) hat.2⟩)

/-- A word that is there starts before the question marks: an at sign alone is no word. -/
theorem startsWord_kept {c : Char} {b x : List Char} (x' : List Char)
    (hword : startsWord c (b ++ x) = true)
    (hle : ((b ++ x).takeWhile isWordPart).length ≤ b.length) :
    startsWord c (b ++ x') = true := by
  cases b with
  | cons d b => exact hword
  | nil =>
    rw [startsWord, Bool.or_eq_true, Bool.and_eq_true] at hword ⊢
    refine hword.imp_right fun hat => ?_
    cases x with
    | nil => exact absurd hat.2 (by simp)
    | cons d x =>
      have hd : isWordPart d = true := isWordPart_of_isWordStart (by simpa using hat.2)
      simp [hd] at hle

/-! ## Tokens -/

/-- A token does not depend on question marks put in after it. -/
theorem tokenAhead_inserted {c : Char} {b x x' : List Char} (h : Inserted x x') {kind : TokenKind}
    (htoken : tokenAhead c (b ++ x) = .ok (kind, b.length)) :
    tokenAhead c (b ++ x') = .ok (kind, b.length) := by
  have hno := Literal.literalLength?_none (c := c) (h.prepend b)
  cases tokenStarts_of_ok htoken with
  | literal hliteral hkind hextra =>
    obtain ⟨htwo, -⟩ := Literal.literalLength?_bounds hliteral
    have hliteral' := Literal.literalLength?_some h hliteral (by omega)
    exact TokenStarts.ok (.literal hliteral' hkind hextra)
  | word hnone hword hkind hextra =>
    have hsame : (b ++ x').takeWhile isWordPart = (b ++ x).takeWhile isWordPart :=
      takeWhile_append_of_le (h.head?_any (by decide +kernel)) (Nat.le_of_eq hextra.symm)
    have hword' := startsWord_kept x' hword (Nat.le_of_eq hextra.symm)
    rw [← hsame] at hkind hextra
    exact TokenStarts.ok (.word (hno hnone) hword' hkind hextra)
  | number hnone hword hnumber hkind hextra =>
    have hle : Number.numberLength (c :: (b ++ x)) ≤ b.length + 1 := by omega
    have hnumber' := (Number.startsNumber_inserted h fun _ => hle).trans hnumber
    have hsame : Number.numberLength (c :: (b ++ x')) = Number.numberLength (c :: (b ++ x)) :=
      Number.endsEarly_numberLength (c :: b) x x' h hle
    rw [← hsame] at hextra
    exact TokenStarts.ok
      (.number (hno hnone) (startsWord_inserted (h.prepend b) hword) hnumber' hkind hextra)
  | mark hnone hword hnumber hmark =>
    have hnumber' : Number.startsNumber (c :: (b ++ x')) = false :=
      (Number.startsNumber_inserted h fun htrue => absurd htrue (by simp [hnumber])).trans hnumber
    exact TokenStarts.ok (.mark (hno hnone) (startsWord_inserted (h.prepend b) hword) hnumber'
      (punctuation?_inserted h hmark))

end NullableMarker
