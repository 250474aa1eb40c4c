import NullableMarker.Grammar.Unit
import NullableMarker.Proofs.Tiling

/-!
# Trees hold the tokens of their source

A reader keeps the tokens it was given by construction; what is left to say is that a unit and a
fragment are read to the end of the file, so that no token stays behind.

* `namespaceMembers_rest` — the members of a unit are read to the end
* `fragmentMembers_rest` — so are those of a fragment
* `parse_tokens` — the tokens of a tree are those of its source
-/

namespace NullableMarker

namespace Grammar

/-- Namespace members at the top are read to the end of the file. -/
theorem namespaceMembers_rest {ts : List Token} (r r' : Reading ts)
    (h : namespaceMembers true r = .ok r') : r'.rest = [] := by
  generalize hn : r.rest.length = n
  induction n using Nat.strongRecOn generalizing r with
  | ind n ih =>
    unfold namespaceMembers at h
    split at h
    · next hempty =>
      cases h
      exact List.isEmpty_iff.mp hempty
    · split at h
      · cases h
      · split at h
        · cases h
        · next p _ => exact ih _ (hn ▸ p.progress) _ h rfl

/-- The members of a fragment are read to the end of the file. -/
theorem fragmentMembers_rest {ts : List Token} (r r' : Reading ts)
    (h : fragmentMembers r = .ok r') : r'.rest = [] := by
  fun_induction fragmentMembers r with
  | case1 r hempty =>
    cases h
    exact List.isEmpty_iff.mp hempty
  | case2 => cases h
  | case3 => cases h
  | case4 r _ _ p _ ih => exact ih h

/-- A reading that leaves nothing holds all the tokens it was given. -/
theorem Reading.tokensAll_of_rest {ts : List Token} (r : Reading ts) (h : r.rest = []) :
    Tree.tokensAll r.children = ts := by
  have := r.complete
  rwa [h, List.append_nil] at this

end Grammar

open Grammar

namespace TokenStream

variable {stream : TokenStream} {root : Tree}

theorem tokens_of_toUnit (h : stream.toUnit = .ok root) : root.tokens = stream.all := by
  unfold toUnit at h
  split at h
  · cases h
  · next r hr =>
    cases h
    simp [all, r.tokensAll_of_rest (namespaceMembers_rest _ _ hr)]

theorem tokens_of_toFragment (h : stream.toFragment = .ok root) : root.tokens = stream.all := by
  unfold toFragment at h
  split at h
  · cases h
  · next r hr =>
    cases h
    simp [all, r.tokensAll_of_rest (fragmentMembers_rest _ _ hr)]

end TokenStream

/-- A source that is read has a stream of tokens that is read. -/
theorem stream_of_readSource {reader : TokenStream → Except ParseError Tree} {source : String}
    {defined : List String} {root : Tree} (h : readSource reader source defined = .ok root) :
    ∃ stream, TokenStream.ofSource source defined = .ok stream ∧ reader stream = .ok root := by
  unfold readSource at h
  split at h
  · cases h
  · next stream hstream =>
    refine ⟨stream, hstream, ?_⟩
    cases hread : reader stream with
    | error e => rw [hread] at h; cases h
    | ok root' => rw [hread] at h; cases h; rfl

/-- A reader that keeps the tokens of its stream keeps the source. -/
theorem tokens_of_readSource {reader : TokenStream → Except ParseError Tree}
    (hreader : ∀ stream root, reader stream = .ok root → root.tokens = stream.all)
    {source : String} {defined : List String} {root : Tree}
    (h : readSource reader source defined = .ok root) :
    ∃ stream, TokenStream.ofSource source defined = .ok stream ∧ root.tokens = stream.all
      ∧ root.fullText = source := by
  obtain ⟨stream, hstream, hroot⟩ := stream_of_readSource h
  have htokens := hreader stream root hroot
  refine ⟨stream, hstream, htokens, ?_⟩
  rw [Tree.fullText, htokens]
  exact (TokenStream.tiles_of_ofSource hstream).fullText

/-- The tokens of the tree of a unit or of a fragment are the tokens of its source, each once and in
order, the end-of-file token last; so the full text of the tree is the source. -/
theorem parse_tokens {source : String} {defined : List String} {root : Tree}
    (h : parseUnit source defined = .ok root ∨ parseFragment source defined = .ok root) :
    ∃ stream, TokenStream.ofSource source defined = .ok stream ∧ root.tokens = stream.all
      ∧ root.tokens.getLast? = some stream.eof ∧ stream.eof.kind = .eof
      ∧ root.fullText = source := by
  have hkept : ∃ stream, TokenStream.ofSource source defined = .ok stream
      ∧ root.tokens = stream.all ∧ root.fullText = source := by
    rcases h with h | h
    · exact tokens_of_readSource (fun _ _ => TokenStream.tokens_of_toUnit) h
    · exact tokens_of_readSource (fun _ _ => TokenStream.tokens_of_toFragment) h
  obtain ⟨stream, hstream, htokens, htext⟩ := hkept
  refine ⟨stream, hstream, htokens, ?_, (TokenStream.tiles_of_ofSource hstream).eof_kind, htext⟩
  rw [htokens, TokenStream.all, List.getLast?_concat]

theorem parse_tokens_class :
    ∃ root, parseUnit "class A { int x = 1; }" [] = .ok root
      ∧ root.fullText = "class A { int x = 1; }" := by
  have hok : (parseUnit "class A { int x = 1; }" []).toOption.isSome = true := by
    decide +kernel
  cases h : parseUnit "class A { int x = 1; }" [] with
  | error e => rw [h] at hok; cases hok
  | ok root =>
    obtain ⟨_, -, -, -, -, htext⟩ := parse_tokens (.inl h)
    exact ⟨root, rfl, htext⟩

end NullableMarker
