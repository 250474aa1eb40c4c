import NullableMarker.Proofs.Brackets

/-!
# Groups that are taken whole

Tokens between a bracket and its closer are taken as one group, whatever follows them. Nested tokens
are made of such groups and of tokens that are no brackets, so a reader that looks for a stop looks
at the tokens outside all brackets only.

* `Enclosed` — nested tokens between an opening bracket and its closer
* `Nested.exists_enclosed` — nested tokens that start with a bracket start with a group
* `Passes` — no token outside all brackets is a stop
* `Grammar.takeUntil_passes` — nested tokens without a stop are taken up to the stop after them
-/

namespace NullableMarker

open Grammar

/-! ## Groups -/

/-- Nested tokens between an opening bracket of a kind and its closer. -/
structure Enclosed (opening : TokenKind) where
  first : Token
  inner : List Token
  last : Token
  opens : first.kind = opening
  nested : Nested inner
  closes : closer? opening = some last.kind

namespace Enclosed

variable {opening : TokenKind}

/-- The tokens of a group, brackets included. -/
def tokens (g : Enclosed opening) : List Token := g.first :: (g.inner ++ [g.last])

theorem closer?_first (g : Enclosed opening) : closer? g.first.kind = some g.last.kind := by
  rw [g.opens]
  exact g.closes

theorem isCloser_of_closer? {k c : TokenKind} (h : closer? k = some c) : isCloser c = true := by
  unfold closer? at h
  split at h <;> cases h <;> rfl

theorem isCloser_last (g : Enclosed opening) : isCloser g.last.kind = true :=
  isCloser_of_closer? g.closes

theorem nested_tokens (g : Enclosed opening) : Nested g.tokens := by
  rw [Nested, tokens, awaited_cons, awaitedNext_of_opener g.closer?_first, Option.bind_some,
    awaited_append, g.nested.awaited_eq, Option.bind_some, awaited_cons,
    awaitedNext_of_closer g.isCloser_last]
  rfl

/-- Outside all brackets there is only the first token of a group. -/
theorem eq_nil_of_nested {g : Enclosed opening} {a b : List Token} {t : Token}
    (h : g.tokens = a ++ t :: b) (ha : Nested a) : a = [] := by
  cases a with
  | nil => rfl
  | cons u a =>
    obtain ⟨rfl, htail⟩ := List.cons.inj h
    -- what is awaited inside the group is at least its own closer
    have hinner : ∀ x y, g.inner = x ++ y →
        ∃ e, awaited [g.last.kind] x = some (e ++ [g.last.kind]) := by
      intro x y hxy
      have hnested := g.nested
      rw [Nested, hxy, awaited_append] at hnested
      obtain ⟨e, he, -⟩ := Option.bind_eq_some_iff.mp hnested
      exact ⟨e, awaited_frame he [g.last.kind]⟩
    have hopen : ∃ e, awaited [g.last.kind] a = some (e ++ [g.last.kind]) := by
      rcases List.append_eq_append_iff.mp htail with ⟨x, hx, hlast⟩ | ⟨x, hx, -⟩
      · -- the token would stand at the closer or after it
        rw [hx]
        cases x with
        | nil =>
          rw [List.append_nil]
          exact hinner g.inner [] (List.append_nil _).symm
        | cons v x => cases x <;> cases hlast
      · exact hinner a x hx
    obtain ⟨e, he⟩ := hopen
    rw [Nested, awaited_cons, awaitedNext_of_opener g.closer?_first, Option.bind_some, he] at ha
    exact absurd (Option.some.inj ha) (by simp)

end Enclosed

/-! ## Nested tokens -/

section Nested

variable {t : Token} {ts us : List Token} {c : TokenKind}

/-- Where the closer awaited last comes. -/
theorem exists_closer {expected : List TokenKind} (h : awaited (expected ++ [c]) ts = some []) :
    ∃ inner last rest, ts = inner ++ last :: rest ∧ awaited expected inner = some []
      ∧ last.kind = c ∧ Nested rest := by
  induction ts generalizing expected with
  | nil =>
    rw [awaited_nil] at h
    exact absurd (Option.some.inj h) (by simp)
  | cons t ts ih =>
    rw [awaited_cons] at h
    obtain ⟨e, he, h⟩ := Option.bind_eq_some_iff.mp h
    unfold awaitedNext at he
    split at he
    · next k hk =>
      cases he
      have h : awaited ((k :: expected) ++ [c]) ts = some [] := h
      obtain ⟨inner, last, rest, rfl, hinner, hlast, hrest⟩ := ih h
      refine ⟨t :: inner, last, rest, rfl, ?_, hlast, hrest⟩
      rw [awaited_cons, awaitedNext_of_opener hk]
      exact hinner
    · next hopener =>
      split at he
      · next hcloser =>
        split at he
        · next hhead =>
          cases he
          cases expected with
          | nil =>
            exact ⟨[], t, ts, rfl, rfl, (Option.some.inj hhead).symm, h⟩
          | cons e es =>
            obtain rfl : e = t.kind := Option.some.inj hhead
            obtain ⟨inner, last, rest, rfl, hinner, hlast, hrest⟩ := ih h
            refine ⟨t :: inner, last, rest, rfl, ?_, hlast, hrest⟩
            rw [awaited_cons, awaitedNext_of_closer hcloser]
            exact hinner
        · cases he
      · next hcloser =>
        cases he
        obtain ⟨inner, last, rest, rfl, hinner, hlast, hrest⟩ := ih h
        refine ⟨t :: inner, last, rest, rfl, ?_, hlast, hrest⟩
        rw [awaited_cons, awaitedNext_of_not_isBracket
          (isBracket_of_tests (by rw [hopener]; simp) hcloser)]
        exact hinner

/-- Nested tokens that start with a bracket start with a whole group. -/
theorem Nested.exists_enclosed (h : Nested (t :: ts)) (ht : closer? t.kind = some c) :
    ∃ (g : Enclosed t.kind) (rest : List Token), t :: ts = g.tokens ++ rest ∧ Nested rest := by
  rw [Nested, awaited_cons, awaitedNext_of_opener ht, Option.bind_some] at h
  have h : awaited ([] ++ [c]) ts = some [] := h
  obtain ⟨inner, last, rest, rfl, hinner, rfl, hrest⟩ := exists_closer h
  exact ⟨⟨t, inner, last, rfl, hinner, ht⟩, rest, by simp [Enclosed.tokens], hrest⟩

theorem Nested.tail (h : Nested (t :: ts)) (ht : t.kind.isBracket = false) : Nested ts := by
  rwa [Nested, awaited_cons, awaitedNext_of_not_isBracket ht, Option.bind_some] at h

/-- Nested tokens do not start with a closer. -/
theorem Nested.not_isCloser (h : Nested (t :: ts)) : isCloser t.kind = false := by
  cases hcloser : isCloser t.kind with
  | false => rfl
  | true =>
    have hopener : closer? t.kind = none := by
      generalize t.kind = k at hcloser
      cases k <;> first | rfl | cases hcloser
    rw [Nested, awaited_cons, awaitedNext, hopener] at h
    simp [hcloser] at h

end Nested

/-! ## Stops -/

/-- No token of `ts` outside all brackets is a stop, if `rest` follows. -/
def Passes (stop : Token → List Token → Bool) (ts rest : List Token) : Prop :=
  ∀ a t b, ts = a ++ t :: b → Nested a → stop t (b ++ rest) = false

section Passes

variable {stop : Token → List Token → Bool} {t : Token} {ts us rest : List Token}

theorem passes_nil : Passes stop [] rest := by
  intro a t b h
  cases a <;> cases h

theorem Nested.of_append (hts : Nested ts) (h : Nested (ts ++ us)) : Nested us := by
  rwa [Nested, awaited_append, hts, Option.bind_some] at h

theorem Passes.of_append (hts : Nested ts) (h : Passes stop (ts ++ us) rest) :
    Passes stop us rest := by
  rintro a t b rfl ha
  exact h (ts ++ a) t b (by simp) (hts.append ha)

theorem Passes.append (hnested : Nested ts) (hts : Passes stop ts (us ++ rest))
    (hus : Passes stop us rest) : Passes stop (ts ++ us) rest := by
  intro a t b h ha
  rcases List.append_eq_append_iff.mp h with ⟨x, rfl, hx⟩ | ⟨x, hx, hb⟩
  · exact hus x t b hx (hnested.of_append ha)
  · cases x with
    | nil => exact hus [] t b hb.symm nested_nil
    | cons u x =>
      obtain ⟨rfl, rfl⟩ := List.cons.inj (hb.trans (List.cons_append ..))
      rw [List.append_assoc]
      exact hts a t x hx ha

theorem passes_singleton (h : stop t rest = false) : Passes stop [t] rest := by
  intro a u b hcons _
  cases a with
  | nil =>
    cases hcons
    exact h
  | cons v a => cases a <;> cases hcons

theorem Passes.cons (ht : t.kind.isBracket = false) (h : stop t (ts ++ rest) = false)
    (hts : Passes stop ts rest) : Passes stop (t :: ts) rest :=
  Passes.append (nested_singleton ht) (passes_singleton h) hts

/-- A group is passed if its first token is. -/
theorem Enclosed.passes {opening : TokenKind} (g : Enclosed opening)
    (h : stop g.first (g.inner ++ [g.last] ++ rest) = false) : Passes stop g.tokens rest := by
  intro a t b hsplit ha
  obtain rfl := Enclosed.eq_nil_of_nested hsplit ha
  obtain ⟨rfl, rfl⟩ := List.cons.inj hsplit
  exact h

end Passes

namespace Grammar

variable {ts us rest : List Token}

/-! ## Readers of groups -/

/-- A token that fits what is awaited is taken, and what is awaited after it is looked for. -/
theorem closeAll_cons {opener t : Token} {e : TokenKind} {es next : List TokenKind}
    (h : awaitedNext (e :: es) t.kind = some next) :
    closeAll opener (e :: es) (t :: ts) = (closeAll opener next ts).map (.cons t) := by
  rw [closeAll]
  unfold awaitedNext at h
  cases hopener : closer? t.kind with
  | some c =>
    rw [hopener] at h
    cases h
    rfl
  | none =>
    rw [hopener] at h
    dsimp only at h ⊢
    split at h
    · next hcloser =>
      split at h
      · next hhead =>
        cases h
        have he : t.kind = e := (Option.some.inj hhead).symm
        rw [if_pos hcloser, if_pos (beq_iff_eq.mpr he)]
        rfl
      · cases h
    · next hcloser =>
      cases h
      rw [if_neg hcloser]

/-- Brackets that close among themselves are taken before those awaited further out. -/
theorem closeAll_append {opener : Token} {expected expected' outer : List TokenKind}
    (h : awaited expected ts = some expected') (houter : outer ≠ []) {r : Run rest}
    (hr : closeAll opener (expected' ++ outer) rest = .ok r) :
    ∃ s, closeAll opener (expected ++ outer) (ts ++ rest) = .ok s
      ∧ s.taken = ts ++ r.taken ∧ s.rest = r.rest := by
  induction ts generalizing expected with
  | nil =>
    cases h
    exact ⟨r, hr, rfl, rfl⟩
  | cons t ts ih =>
    rw [awaited_cons] at h
    obtain ⟨next, hnext, h⟩ := Option.bind_eq_some_iff.mp h
    obtain ⟨s, hs, htaken, hrest⟩ := ih h
    obtain ⟨e, es, hcons⟩ : ∃ e es, expected ++ outer = e :: es :=
      List.exists_cons_of_ne_nil (by simp [houter])
    have hstep := awaitedNext_frame hnext outer
    rw [hcons] at hstep ⊢
    rw [List.cons_append, closeAll_cons hstep, hs]
    exact ⟨s.cons t, rfl, congrArg (t :: ·) htaken, hrest⟩

/-- A group is taken whole, whatever follows it. -/
theorem balanced_enclosed {opening : TokenKind} (g : Enclosed opening)
    (hus : us = g.tokens ++ rest) :
    ∃ b, balanced us = .ok b ∧ b.taken = g.tokens ∧ b.rest = rest := by
  subst hus
  have hlast : closeAll g.first [g.last.kind] (g.last :: rest)
      = .ok (Run.cons g.last (.none rest)) := by
    have hopener : closer? g.last.kind = none := by
      have hcloser := g.isCloser_last
      generalize g.last.kind = k at hcloser
      cases k <;> first | rfl | cases hcloser
    simp [closeAll, hopener, g.isCloser_last, Except.map]
  obtain ⟨s, hs, htaken, hrest⟩ :=
    closeAll_append g.nested (List.cons_ne_nil _ _) hlast
  have hsplit : g.tokens ++ rest = g.first :: (g.inner ++ g.last :: rest) := by
    simp [Enclosed.tokens]
  rw [hsplit, balanced, g.closer?_first]
  refine ⟨Group.cons g.first s, ?_, ?_, hrest⟩
  · show (closeAll g.first [g.last.kind] (g.inner ++ g.last :: rest)).map _ = _
    rw [show closeAll g.first [g.last.kind] (g.inner ++ g.last :: rest) = .ok s from hs]
    rfl
  · show g.first :: s.taken = _
    rw [htaken]
    rfl

/-- Nested tokens are taken up to the first stop, which comes after them. -/
theorem takeUntil_passes {stop : Token → List Token → Bool} {t : Token} (hts : Nested ts)
    (hpasses : Passes stop ts (t :: rest)) (hstop : stop t rest = true)
    (hus : us = ts ++ t :: rest) :
    ∃ r, takeUntil stop us = .ok r ∧ r.taken = ts ∧ r.rest = t :: rest := by
  induction hn : ts.length using Nat.strongRecOn generalizing ts us with
  | ind n ih =>
    subst hus
    cases ts with
    | nil =>
      rw [List.nil_append, takeUntil, if_pos hstop]
      exact ⟨_, rfl, rfl, rfl⟩
    | cons u ts =>
      have hu := hpasses [] u ts rfl nested_nil
      rw [List.cons_append, takeUntil, if_neg (by simp [hu])]
      cases hopener : closer? u.kind with
      | some c =>
        -- a whole group is taken
        obtain ⟨g, more, hsplit, hmore⟩ := hts.exists_enclosed hopener
        have hlength : more.length < n := by
          have := congrArg List.length hsplit
          simp only [Enclosed.tokens, List.length_cons, List.length_append] at this hn
          omega
        have hgroup : u :: (ts ++ t :: rest) = g.tokens ++ (more ++ t :: rest) := by
          rw [← List.cons_append, hsplit, List.append_assoc]
        obtain ⟨b, hb, htaken, hrest⟩ := balanced_enclosed g hgroup
        rw [hsplit] at hpasses
        obtain ⟨r, hr, hrtaken, hrrest⟩ :=
          ih more.length hlength hmore (hpasses.of_append g.nested_tokens) hrest rfl
        rw [if_pos Option.isSome_some, hb]
        refine ⟨b.toRun.append r, ?_, ?_, hrrest⟩
        · simp only [hr]
          rfl
        · show b.taken ++ r.taken = _
          rw [htaken, hrtaken, hsplit]
      | none =>
        have hcloser := hts.not_isCloser
        have hbracket : u.kind.isBracket = false := by
          simp [TokenKind.isBracket, hopener, hcloser]
        rw [if_neg (by simp), if_neg (by simp [hcloser])]
        obtain ⟨r, hr, hrtaken, hrrest⟩ := ih ts.length (by simp [← hn]) (hts.tail hbracket)
          (hpasses.of_append (nested_singleton hbracket)) rfl rfl
        refine ⟨r.cons u, ?_, ?_, hrrest⟩
        · rw [hr]
          rfl
        · show u :: r.taken = _
          rw [hrtaken]

end Grammar

end NullableMarker
