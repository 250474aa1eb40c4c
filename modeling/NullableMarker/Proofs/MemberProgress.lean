import NullableMarker.Proofs.OpenFailures
import NullableMarker.Proofs.TypeTerms

/-!
# Readers move on

A reader of members starts at a token. It ends with a fatal failure, or it has read a tree and moved
on past the tokens of that tree, at least one. So does an attempt that is given up, since what is
skipped in its place is not nothing. The loops over members thus start each round further on, and
come to an end.

* `Grammar.MovesOn` — what one call of a reader does
* `Grammar.Rounds` — the calls of a loop, one after another
* `Grammar.exists_rounds` — every loop comes to an end
* `parser_progress` — units and fragments
-/

namespace NullableMarker

namespace Grammar

/-! ## Readers of members -/

/-- A using directive that does not have its shape is skipped. -/
theorem namespaceMember_of_startsUsing {ts : List Token} (h : startsUsing ts = true) :
    namespaceMember ts = orSkipped (usingDirective ts) := by
  have hother : ∀ word, word ≠ "using" → word ≠ "global" → nextKeyword [word] ts = false := by
    intro word husing hglobal
    cases ts with
    | nil => rfl
    | cons t ts =>
      have hvalue : t.value = "using" ∨ t.value = "global" := by
        simp [startsUsing, nextKeyword, nextWord, Token.isKeyword, Token.isWord] at h
        exact h.imp (·.1.2) (·.1.2)
      rcases hvalue with hvalue | hvalue <;>
        simp [nextKeyword, Token.isKeyword, hvalue, husing.symm, hglobal.symm]
  have hextern : startsExternAlias ts = false := by
    rw [startsExternAlias, hother "extern" (by decide) (by decide), Bool.false_and]
  rw [namespaceMember, hother "namespace" (by decide) (by decide), simpleMember, hextern, h]
  rfl

/-! ## One call -/

/-- Called at the token at `pos`, the reader ends with a fatal failure, or it has read a tree and
stands at a later token or at the end, with the tokens between in the tree. -/
def MovesOn (reader : (us : List Token) → Except Failure (Parsed us)) (ts : List Token)
    (pos : Nat) : Prop :=
  (∃ cause token, reader (ts.drop pos) = .error (.fatal cause token))
    ∨ ∃ p next, reader (ts.drop pos) = .ok p ∧ pos < next ∧ next ≤ ts.length
      ∧ p.rest = ts.drop next ∧ p.tree.tokens = (ts.drop pos).take (next - pos)

/-- Where the cursor stands when a tree has been read at `pos`. -/
def Parsed.next {ts : List Token} {pos : Nat} (p : Parsed (ts.drop pos)) : Nat :=
  pos + p.tree.tokens.length

theorem Parsed.next_spec {ts : List Token} {pos : Nat} (p : Parsed (ts.drop pos)) :
    pos < p.next ∧ p.next ≤ ts.length ∧ p.rest = ts.drop p.next
      ∧ p.tree.tokens = (ts.drop pos).take (p.next - pos) := by
  have hlength := congrArg List.length p.complete
  have hprogress := p.progress
  rw [List.length_append, List.length_drop] at hlength
  rw [List.length_drop] at hprogress
  have hdrop : (p.tree.tokens ++ p.rest).drop p.tree.tokens.length = p.rest := List.drop_left
  have htake : (p.tree.tokens ++ p.rest).take p.tree.tokens.length = p.tree.tokens := List.take_left
  rw [p.complete, List.drop_drop] at hdrop
  rw [p.complete] at htake
  unfold next
  refine ⟨by omega, by omega, hdrop.symm, ?_⟩
  rw [Nat.add_sub_cancel_left]
  exact htake.symm

theorem movesOn_of_error {reader : (us : List Token) → Except Failure (Parsed us)}
    (h : ∀ {us e}, reader us = .error e → e ≠ .mismatch) (ts : List Token) (pos : Nat) :
    MovesOn reader ts pos := by
  unfold MovesOn
  cases hread : reader (ts.drop pos) with
  | error e =>
    cases e with
    | mismatch => exact absurd rfl (h hread)
    | fatal cause token => exact .inl ⟨cause, token, rfl⟩
  | ok p => exact .inr ⟨p, p.next, rfl, p.next_spec⟩

/-! ## Rounds -/

/-- A loop calls its reader at one cursor after another, each time at a token that is no closing
brace. The cursors of the calls are given, and the one where the loop stops. -/
inductive Rounds (reader : (us : List Token) → Except Failure (Parsed us)) (ts : List Token) :
    Nat → List Nat → Nat → Prop
  | stop (pos : Nat) : Rounds reader ts pos [] pos
  | round {pos last : Nat} {calls : List Nat} {p : Parsed (ts.drop pos)} (hpos : pos < ts.length)
      (hbrace : nextIs .rbrace (ts.drop pos) = false) (hread : reader (ts.drop pos) = .ok p)
      (h : Rounds reader ts p.next calls last) : Rounds reader ts pos (pos :: calls) last

/-- No token is left, or the next one is a closing brace. -/
def Ends (ts : List Token) : Prop := ts.isEmpty = true ∨ nextIs .rbrace ts = true

section Rounds

variable {reader : (us : List Token) → Except Failure (Parsed us)} {ts : List Token}
  {pos last : Nat} {calls : List Nat}

/-- Each round starts further on than the one before. -/
theorem Rounds.increasing (h : Rounds reader ts pos calls last) (hpos : pos ≤ ts.length) :
    last ≤ ts.length ∧ (calls ++ [last]).Pairwise (· < ·)
      ∧ ∀ call ∈ calls ++ [last], pos ≤ call := by
  induction h with
  | stop pos => exact ⟨hpos, by simp, by simp⟩
  | @round pos last calls p _ _ _ h ih =>
    obtain ⟨hlt, hle, -, -⟩ := p.next_spec
    obtain ⟨hlast, hpairwise, hall⟩ := ih hle
    refine ⟨hlast, List.pairwise_cons.mpr ⟨?_, hpairwise⟩, ?_⟩
    · exact fun call hcall => Nat.lt_of_lt_of_le hlt (hall call hcall)
    · rintro call (_ | ⟨_, hcall⟩)
      · exact Nat.le_refl _
      · exact Nat.le_of_lt (Nat.lt_of_lt_of_le hlt (hall call hcall))

theorem not_ends_drop (hpos : pos < ts.length) (hbrace : nextIs .rbrace (ts.drop pos) = false) :
    ¬ Ends (ts.drop pos) := by
  rintro (hempty | hclosing)
  · rw [List.isEmpty_iff, List.drop_eq_nil_iff] at hempty
    omega
  · rw [hbrace] at hclosing
    cases hclosing

/-- From everywhere rounds come to a stop, at the end, at a closing brace, or where the reader
fails. -/
theorem exists_rounds (reader : (us : List Token) → Except Failure (Parsed us)) {ts : List Token}
    {pos : Nat} (hpos : pos ≤ ts.length) :
    ∃ calls last, Rounds reader ts pos calls last
      ∧ (Ends (ts.drop last) ∨ ∃ e, reader (ts.drop last) = .error e) := by
  induction hn : ts.length - pos using Nat.strongRecOn generalizing pos with
  | ind n ih =>
    by_cases hend : pos = ts.length
    · exact ⟨[], pos, .stop pos, .inl (.inl (by rw [hend, List.drop_length]; rfl))⟩
    cases hbrace : nextIs .rbrace (ts.drop pos) with
    | true => exact ⟨[], pos, .stop pos, .inl (.inr hbrace)⟩
    | false =>
      cases hread : reader (ts.drop pos) with
      | error e => exact ⟨[], pos, .stop pos, .inr ⟨e, hread⟩⟩
      | ok p =>
        obtain ⟨hlt, hle, -, -⟩ := p.next_spec
        obtain ⟨calls, last, h, hstops⟩ := ih (ts.length - p.next) (by omega) hle rfl
        exact ⟨pos :: calls, last, .round (by omega) hbrace hread h, hstops⟩

end Rounds

/-! ## Loops -/

/-- A loop over what a reader reads. From a state with the tokens `rest` ahead it goes on with what
the reader leaves, and its result has the tokens `left`. -/
structure Loops (reader : (us : List Token) → Except Failure (Parsed us)) {R S : Type}
    (rest : R → List Token) (left : S → List Token) (loop : R → Except Failure S) : Prop where
  /-- What the reader has read is added, and the loop goes on. -/
  round : ∀ r p, ¬ Ends (rest r) → reader (rest r) = .ok p →
    ∃ r', rest r' = p.rest ∧ loop r = loop r'
  /-- A failure of the reader is one of the loop. -/
  fail : ∀ r e, ¬ Ends (rest r) → reader (rest r) = .error e → loop r = .error e
  /-- The loop may take the closing brace, and it does not fail with a mismatch. -/
  ends : ∀ r, Ends (rest r) → match loop r with
    | .ok s => left s <:+ rest r
    | .error e => e ≠ .mismatch

/-- A loop over what a reader reads, with the tokens that it leaves or its failure: it calls the
reader further on each round, and stops in good order at the end or at a closing brace. Otherwise it
has a fatal failure, its own there or one of the reader. -/
def Halts (reader : (us : List Token) → Except Failure (Parsed us)) (ts : List Token)
    (outcome : Except Failure (List Token)) : Prop :=
  ∃ calls last, Rounds reader ts 0 calls last ∧ last ≤ ts.length
    ∧ (calls ++ [last]).Pairwise (· < ·)
    ∧ match outcome with
      | .ok rest => rest <:+ ts.drop last ∧ Ends (ts.drop last)
      | .error e => ∃ cause token, e = .fatal cause token
        ∧ (Ends (ts.drop last) ∨ reader (ts.drop last) = .error e)

theorem Failure.fatal_ne_mismatch (cause : ParseCause) (token : Option Token) :
    Failure.fatal cause token ≠ .mismatch := by
  intro h
  cases h

theorem Failure.exists_fatal {e : Failure} (h : e ≠ .mismatch) :
    ∃ cause token, e = .fatal cause token := by
  cases e with
  | mismatch => exact absurd rfl h
  | fatal cause token => exact ⟨cause, token, rfl⟩

namespace Loops

variable {reader : (us : List Token) → Except Failure (Parsed us)} {R S : Type}
  {rest : R → List Token} {left : S → List Token} {loop : R → Except Failure S}

/-- A loop goes on where its rounds stop. -/
theorem exists_after (h : Loops reader rest left loop) {ts : List Token} {pos last : Nat}
    {calls : List Nat} (hrounds : Rounds reader ts pos calls last) {r : R}
    (hr : rest r = ts.drop pos) : ∃ r', rest r' = ts.drop last ∧ loop r = loop r' := by
  induction hrounds generalizing r with
  | stop pos => exact ⟨r, hr, rfl⟩
  | @round pos last calls p hpos hbrace hread _ ih =>
    -- the reader is called at the tokens that the state has ahead
    have hread : ∃ q : Parsed (rest r), reader (rest r) = .ok q ∧ q.rest = ts.drop p.next := by
      rw [hr]
      exact ⟨p, hread, p.next_spec.2.2.1⟩
    obtain ⟨q, hq, hrest⟩ := hread
    obtain ⟨r₁, hr₁, heq₁⟩ := h.round r q (hr ▸ not_ends_drop hpos hbrace) hq
    obtain ⟨r₂, hr₂, heq₂⟩ := ih (hr₁.trans hrest)
    exact ⟨r₂, hr₂, heq₁.trans heq₂⟩

/-- A loop halts, if its reader fails with no mismatch. -/
theorem halts (h : Loops reader rest left loop)
    (hreader : ∀ {us e}, reader us = .error e → e ≠ .mismatch) (r : R) :
    Halts reader (rest r) ((loop r).map left) := by
  obtain ⟨calls, last, hrounds, hstops⟩ := exists_rounds reader (Nat.zero_le (rest r).length)
  obtain ⟨hlast, hincreasing, -⟩ := hrounds.increasing (Nat.zero_le _)
  obtain ⟨r', hr', heq⟩ := h.exists_after hrounds List.drop_zero.symm
  refine ⟨calls, last, hrounds, hlast, hincreasing, ?_⟩
  rw [← hr'] at hstops ⊢
  rw [heq]
  by_cases hends : Ends (rest r')
  · have hloop := h.ends r' hends
    cases houtcome : loop r' with
    | ok s =>
      rw [houtcome] at hloop
      exact ⟨hloop, hends⟩
    | error e =>
      rw [houtcome] at hloop
      obtain ⟨cause, token, rfl⟩ := Failure.exists_fatal hloop
      exact ⟨cause, token, rfl, .inl hends⟩
  · obtain ⟨e, he⟩ := hstops.resolve_left hends
    rw [h.fail r' e hends he]
    obtain ⟨cause, token, rfl⟩ := Failure.exists_fatal (hreader he)
    exact ⟨cause, token, rfl, .inr he⟩

end Loops

/-! ## Members of namespaces, fragments and types -/

theorem not_ends_iff {ts : List Token} :
    ¬ Ends ts ↔ ts.isEmpty = false ∧ nextIs .rbrace ts = false := by
  rw [Ends, not_or, Bool.not_eq_true, Bool.not_eq_true]

theorem namespaceMembers_of_not_ends (top : Bool) {us : List Token} {r : Reading us}
    (h : ¬ Ends r.rest) : namespaceMembers top r
      = namespaceMember r.rest >>= fun p => namespaceMembers top (r.add p).toReading := by
  obtain ⟨hsome, hopen⟩ := not_ends_iff.mp h
  rw [namespaceMembers_eq, if_neg (hsome ▸ Bool.false_ne_true), if_neg (hopen ▸ Bool.false_ne_true)]

theorem fragmentMembers_of_not_ends {us : List Token} {r : Reading us} (h : ¬ Ends r.rest) :
    fragmentMembers r
      = member none r.rest >>= fun p => fragmentMembers (r.add p).toReading := by
  obtain ⟨hsome, hopen⟩ := not_ends_iff.mp h
  rw [fragmentMembers, hsome, hopen]
  cases member none r.rest <;> rfl

theorem members_of_not_ends (typeName : String) (opening : Option Token) {us : List Token}
    {r : Begun us} (h : ¬ Ends r.rest) : members typeName opening r
      = member (some typeName) r.rest >>= fun p => members typeName opening (r.add p) := by
  obtain ⟨hsome, hopen⟩ := not_ends_iff.mp h
  have hexpect : expect .rbrace r.rest = .error .mismatch := expectThat_mismatch hopen
  rw [members, hexpect, hsome]
  cases member (some typeName) r.rest <;> rfl

theorem loops_namespaceMembers (us : List Token) (top : Bool) :
    Loops namespaceMember (fun r : Reading us => r.rest) (fun r : Reading us => r.rest)
      (namespaceMembers top) where
  round r p hends hread := by
    rw [namespaceMembers_of_not_ends top hends, hread]
    exact ⟨(r.add p).toReading, rfl, rfl⟩
  fail r e hends hread := by
    rw [namespaceMembers_of_not_ends top hends, hread]
    rfl
  ends r hends := by
    rw [namespaceMembers_eq]
    by_cases hempty : r.rest.isEmpty = true
    · rw [if_pos hempty]
      cases top with
      | false => exact Failure.fatal_ne_mismatch _ _
      | true => exact List.suffix_refl _
    · rw [if_neg hempty, if_pos (hends.resolve_left hempty)]
      cases top with
      | false => exact List.suffix_refl _
      | true => exact Failure.fatal_ne_mismatch _ _

theorem loops_fragmentMembers (us : List Token) :
    Loops (member none) (fun r : Reading us => r.rest) (fun r : Reading us => r.rest)
      fragmentMembers where
  round r p hends hread := by
    rw [fragmentMembers_of_not_ends hends, hread]
    exact ⟨(r.add p).toReading, rfl, rfl⟩
  fail r e hends hread := by
    rw [fragmentMembers_of_not_ends hends, hread]
    rfl
  ends r hends := by
    rw [fragmentMembers]
    by_cases hempty : r.rest.isEmpty = true
    · simp only [if_pos hempty, List.suffix_refl]
    · rw [if_neg hempty, if_pos (hends.resolve_left hempty)]
      exact Failure.fatal_ne_mismatch _ _

theorem loops_members (us : List Token) (typeName : String) (opening : Option Token) :
    Loops (member (some typeName)) (fun r : Begun us => r.rest) (fun r : Begun us => r.rest)
      (members typeName opening) where
  round r p hends hread := by
    rw [members_of_not_ends typeName opening hends, hread]
    exact ⟨r.add p, rfl, rfl⟩
  fail r e hends hread := by
    rw [members_of_not_ends typeName opening hends, hread]
    rfl
  ends r hends := by
    rcases hends with hempty | hbrace
    · have hexpect : expect .rbrace r.rest = .error .mismatch :=
        expectThat_mismatch (by rw [List.isEmpty_iff.mp hempty]; rfl)
      rw [members, hexpect, hempty]
      exact Failure.fatal_ne_mismatch _ _
    · obtain ⟨last, hlast⟩ := expect_of_nextIs hbrace
      rw [members, hlast]
      exact ⟨_, last.complete⟩

end Grammar

open Grammar

namespace TokenStream

variable {stream : TokenStream}

/-- No mismatch gets out of a fragment. -/
theorem fatal_of_toFragment {e : ParseError} (h : stream.toFragment = .error e) :
    ∃ cause token, fragmentMembers (.start stream.tokens) = .error (.fatal cause token)
      ∧ e = ⟨cause, (token.getD stream.eof).place⟩ := by
  have hhalts := (loops_fragmentMembers stream.tokens).halts member_error (.start stream.tokens)
  unfold toFragment at h
  cases hloop : fragmentMembers (.start stream.tokens) with
  | ok r => rw [hloop] at h; cases h
  | error failure =>
    rw [hloop] at h hhalts
    obtain ⟨-, -, -, -, -, cause, token, rfl, -⟩ := hhalts
    cases h
    exact ⟨cause, token, rfl, rfl⟩

/-- The tree of all tokens, or a fatal failure of the loop over the members, blamed on a token or on
the end of the file. -/
def Told (stream : TokenStream) (outcome : Except ParseError Tree)
    (loop : Except Failure (Reading stream.tokens)) : Prop :=
  match outcome with
  | .ok root => root.tokens = stream.all
  | .error e => ∃ cause token, loop = .error (.fatal cause token)
    ∧ e = ⟨cause, (token.getD stream.eof).place⟩

theorem told_toUnit (stream : TokenStream) :
    stream.Told stream.toUnit (namespaceMembers true (.start stream.tokens)) := by
  cases h : stream.toUnit with
  | ok root => exact tokens_of_toUnit h
  | error e => exact fatal_of_toUnit h

theorem told_toFragment (stream : TokenStream) :
    stream.Told stream.toFragment (fragmentMembers (.start stream.tokens)) := by
  cases h : stream.toFragment with
  | ok root => exact tokens_of_toFragment h
  | error e => exact fatal_of_toFragment h

end TokenStream

/-- Reading a unit or a fragment ends with a tree of all tokens or with an error. A reader of
members called at any token fails or moves on, not past the end. A member or a using directive that
was tried and does not have its shape is skipped from where it starts, which fails or moves on as
well. And all loops over members halt, having called their readers further on each time. -/
theorem parser_progress (stream : TokenStream) :
    stream.Told stream.toUnit (namespaceMembers true (.start stream.tokens))
      ∧ stream.Told stream.toFragment (fragmentMembers (.start stream.tokens))
      ∧ (∀ pos < stream.tokens.length,
        MovesOn namespaceMember stream.tokens pos
          ∧ (∀ typeName, MovesOn (member typeName) stream.tokens pos)
          ∧ MovesOn skipped stream.tokens pos
          ∧ (∀ typeName, declaration typeName (stream.tokens.drop pos) = .error .mismatch →
            member typeName (stream.tokens.drop pos) = skipped (stream.tokens.drop pos))
          ∧ (startsUsing (stream.tokens.drop pos) = true →
            usingDirective (stream.tokens.drop pos) = .error .mismatch →
            namespaceMember (stream.tokens.drop pos) = skipped (stream.tokens.drop pos)))
      ∧ ∀ us, (∀ (r : Reading us) top,
          Halts namespaceMember r.rest ((namespaceMembers top r).map (·.rest)))
        ∧ (∀ r : Reading us, Halts (member none) r.rest ((fragmentMembers r).map (·.rest)))
        ∧ ∀ (r : Begun us) typeName opening,
          Halts (member (some typeName)) r.rest ((members typeName opening r).map (·.rest)) := by
  refine ⟨stream.told_toUnit, stream.told_toFragment, ?_, ?_⟩
  · intro pos _
    refine ⟨movesOn_of_error namespaceMember_error _ _, fun _ => movesOn_of_error member_error _ _,
      movesOn_of_error skipped_error _ _, ?_, ?_⟩
    · intro typeName hmismatch
      rw [member, hmismatch, orSkipped]
    · intro hstarts hmismatch
      rw [namespaceMember_of_startsUsing hstarts, hmismatch, orSkipped]
  · intro us
    exact ⟨fun r top => (loops_namespaceMembers us top).halts namespaceMember_error r,
      fun r => (loops_fragmentMembers us).halts member_error r,
      fun r typeName opening => (loops_members us typeName opening).halts member_error r⟩

/-- A construct of no known shape before a class. -/
theorem parser_progress_skipped :
    ∃ stream root, TokenStream.ofSource "x y z;class A{}" [] = .ok stream
      ∧ stream.toUnit = .ok root ∧ root.tokens = stream.all
      ∧ declaration none stream.tokens = .error .mismatch
      ∧ ∃ p next, skipped stream.tokens = .ok p ∧ member none stream.tokens = .ok p
        ∧ p.rest = stream.tokens.drop next ∧ 0 < next ∧ next ≤ stream.tokens.length := by
  have hrun : (TokenStream.ofSource "x y z;class A{}" []).toOption.bind (fun stream =>
      stream.toUnit.toOption.map fun _ => (stream.tokens.length,
        (declaration none stream.tokens).map fun _ => (), (skipped stream.tokens).toOption.isSome))
      = some (8, .error .mismatch, true) := by
    decide +kernel
  obtain ⟨stream, hstream, hrun⟩ := Option.bind_eq_some_iff.mp hrun
  obtain ⟨root, hroot, hrun⟩ := Option.map_eq_some_iff.mp hrun
  have hroot := ok_of_toOption hroot
  obtain ⟨hlength, hrun⟩ := Prod.mk.inj hrun
  obtain ⟨hmismatch, hskipped⟩ := Prod.mk.inj hrun
  have hmismatch := error_of_map hmismatch
  obtain ⟨htold, -, hcalls, -⟩ := parser_progress stream
  obtain ⟨-, -, hmoves, hmember, -⟩ := hcalls 0 (by omega)
  rw [hroot] at htold
  refine ⟨stream, root, ok_of_toOption hstream, hroot, htold, hmismatch, ?_⟩
  rcases hmoves with ⟨cause, token, hfatal⟩ | ⟨p, next, hp, hlt, hle, hrest, -⟩
  · rw [List.drop_zero] at hfatal
    rw [hfatal] at hskipped
    cases hskipped
  · exact ⟨p, next, hp, (hmember none hmismatch).trans hp, hrest, hlt, hle⟩

end NullableMarker
