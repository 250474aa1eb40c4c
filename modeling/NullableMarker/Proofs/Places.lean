import NullableMarker.Proofs.Sites

/-!
# Places are counted

The place of an offset is found by walking through the text. It is the place that counting gives: the
line is one more than the number of lines that end at or before the offset, and the column counts from
where the last of them ended. Tokens stand at the places of their offsets, each after the one before.

* `Text.LineEnd`, `Text.lineStops` — where lines end
* `Text.placeAt_eq` — the place of an offset
* `Text.placeAt_before` — later offsets have later places
* `cut_placed` — lexemes, the end of the text and faults stand at the places of their offsets
* `located_by_counting` — sources and their tokens
-/

namespace NullableMarker

namespace Text

/-! ## Where lines end -/

/-- A line of `s` ends right before the offset `stop`: with a return and a line feed, with a return
alone, or with a line feed alone. -/
inductive LineEnd (s : List Char) : (stop : Nat) → Prop
  | returnFeed {left right : List Char} (h : s = left ++ '\r' :: '\n' :: right) :
      LineEnd s (left.length + 2)
  | return {left right : List Char} (h : s = left ++ '\r' :: right)
      (halone : right.head? ≠ some '\n') : LineEnd s (left.length + 1)
  | feed {left right : List Char} (h : s = left ++ '\n' :: right)
      (halone : left.getLast? ≠ some '\r') : LineEnd s (left.length + 1)

/-- The offsets right after the ends of lines in a text at offset `n`, in order. A line feed that
follows a return belongs to the same end. -/
def lineStops (n : Nat) : List Char → List Nat
  | [] => []
  | '\r' :: '\n' :: r => (n + 2) :: lineStops (n + 2) r
  | c :: r => if isLineEnd c then (n + 1) :: lineStops (n + 1) r else lineStops (n + 1) r

theorem lineStops_alone (n : Nat) {c : Char} {r : List Char}
    (h : ¬ (c = '\r' ∧ r.head? = some '\n')) : lineStops n (c :: r)
      = if isLineEnd c then (n + 1) :: lineStops (n + 1) r else lineStops (n + 1) r := by
  rw [lineStops]
  rintro r' rfl rfl
  exact h ⟨rfl, rfl⟩

theorem endsLine_alone {c : Char} {r : List Char} (h : ¬ (c = '\r' ∧ r.head? = some '\n')) :
    endsLine c r = isLineEnd c := by
  by_cases hc : c = '\r'
  · have hhead : r.head? ≠ some '\n' := fun hhead => h ⟨hc, hhead⟩
    simp [endsLine, isLineEnd, hc, hhead]
  · rw [endsLine, isLineEnd, beq_false_of_ne hc]
    simp

/-- Character by character, a line ends where `endsLine` says. -/
theorem lineStops_cons (n : Nat) (c : Char) (r : List Char) : lineStops n (c :: r)
    = if endsLine c r then (n + 1) :: lineStops (n + 1) r else lineStops (n + 1) r := by
  by_cases h : c = '\r' ∧ r.head? = some '\n'
  · obtain ⟨rfl, hhead⟩ := h
    obtain ⟨r, rfl⟩ := List.head?_eq_some_iff.mp hhead
    -- the return ends no line by itself, and the line feed does
    rw [lineStops, if_neg (by simp [endsLine]), lineStops_alone (n + 1) (by simp),
      if_pos (by decide)]
  · rw [lineStops_alone n h, endsLine_alone h]

/-- All ends of lines come after the start of the text. -/
theorem lt_of_mem_lineStops {n stop : Nat} {s : List Char} (h : stop ∈ lineStops n s) : n < stop := by
  induction s generalizing n with
  | nil => cases h
  | cons c r ih =>
    rw [lineStops_cons] at h
    split at h
    · rcases List.mem_cons.mp h with rfl | h
      · exact Nat.lt_succ_self n
      · exact Nat.lt_of_succ_lt (ih h)
    · exact Nat.lt_of_succ_lt (ih h)

theorem lineStops_increasing (n : Nat) (s : List Char) : (lineStops n s).Pairwise (· < ·) := by
  induction s generalizing n with
  | nil => exact .nil
  | cons c r ih =>
    rw [lineStops_cons]
    split
    · exact .cons (fun stop h => lt_of_mem_lineStops h) (ih (n + 1))
    · exact ih (n + 1)

theorem mem_lineStops {n stop : Nat} {s : List Char} : stop ∈ lineStops n s ↔
    ∃ left c right, s = left ++ c :: right ∧ endsLine c right = true
      ∧ stop = n + left.length + 1 := by
  induction s generalizing n with
  | nil => simp [lineStops]
  | cons c r ih =>
    have hrest : stop ∈ lineStops (n + 1) r ↔ ∃ left d right, c :: r = (c :: left) ++ d :: right
        ∧ endsLine d right = true ∧ stop = n + (c :: left).length + 1 := by
      rw [ih]
      simp [Nat.add_assoc, Nat.add_comm 1]
    constructor
    · intro h
      rw [lineStops_cons] at h
      split at h
      · next hends =>
        rcases List.mem_cons.mp h with rfl | h
        · exact ⟨[], c, r, rfl, hends, rfl⟩
        · obtain ⟨left, d, right, h⟩ := hrest.mp h
          exact ⟨c :: left, d, right, h⟩
      · obtain ⟨left, d, right, h⟩ := hrest.mp h
        exact ⟨c :: left, d, right, h⟩
    · rintro ⟨left, d, right, hsplit, hends, rfl⟩
      rw [lineStops_cons]
      cases left with
      | nil =>
        cases hsplit
        rw [if_pos hends]
        exact List.mem_cons_self
      | cons b left =>
        obtain ⟨rfl, -⟩ := List.cons.inj hsplit
        have hmem := hrest.mpr ⟨left, d, right, hsplit, hends, rfl⟩
        split
        · exact List.mem_cons_of_mem _ hmem
        · exact hmem

/-- The stops are those of the ends of lines. -/
theorem mem_lineStops_iff {stop : Nat} {s : List Char} : stop ∈ lineStops 0 s ↔ LineEnd s stop := by
  rw [mem_lineStops]
  constructor
  · rintro ⟨left, c, right, rfl, hends, rfl⟩
    rw [Nat.zero_add]
    rw [endsLine, Bool.or_eq_true, Bool.and_eq_true, beq_iff_eq, beq_iff_eq] at hends
    rcases hends with rfl | ⟨rfl, halone⟩
    · by_cases hlast : left.getLast? = some '\r'
      · obtain ⟨before, rfl⟩ := List.getLast?_eq_some_iff.mp hlast
        rw [List.length_append]
        exact .returnFeed (by rw [List.append_assoc]; rfl)
      · exact .feed rfl hlast
    · exact .return rfl (by simpa using halone)
  · rintro (@⟨left, right, h⟩ | @⟨left, right, h, halone⟩ | @⟨left, right, h, -⟩)
    · exact ⟨left ++ ['\r'], '\n', right, by rw [h, List.append_assoc]; rfl, rfl, by simp⟩
    · exact ⟨left, '\r', right, h, by simpa [endsLine] using halone, by omega⟩
    · exact ⟨left, '\n', right, h, rfl, by omega⟩

/-! ## Places of offsets -/

/-- Where the line of an offset starts. -/
def lineStart (s : List Char) (offset : Nat) : Nat :=
  ((lineStops 0 s).filter (· ≤ offset)).getLast?.getD 0

/-- The place `count` characters after the start of a text that stands at offset `n` and place `p`. -/
theorem Place.after_eq (p : Place) (n : Nat) {count : Nat} {s : List Char} (h : count ≤ s.length) :
    p.after count s = ⟨p.line + ((lineStops n s).filter (· ≤ n + count)).length,
      match ((lineStops n s).filter (· ≤ n + count)).getLast? with
      | none => p.column + count
      | some stop => n + count - stop + 1⟩ := by
  induction s generalizing p n count with
  | nil =>
    obtain rfl := Nat.le_zero.mp h
    simp [lineStops, after]
  | cons c r ih =>
    cases count with
    | zero =>
      have hnone : (lineStops n (c :: r)).filter (· ≤ n + 0) = [] := by
        rw [List.filter_eq_nil_iff]
        intro stop hstop
        have := lt_of_mem_lineStops hstop
        simp only [decide_eq_true_eq]
        omega
      rw [hnone]
      simp [after]
    | succ count =>
      rw [List.length_cons, Nat.succ_le_succ_iff] at h
      rw [after, ih (p.step c r) (n + 1) h, lineStops_cons, step,
        show n + (count + 1) = n + 1 + count by omega]
      cases endsLine c r with
      | true =>
        have hfirst : n + 1 ≤ n + 1 + count := by omega
        simp only [if_true, List.filter_cons, decide_eq_true hfirst, List.length_cons,
          List.getLast?_cons]
        cases ((lineStops (n + 1) r).filter (· ≤ n + 1 + count)).getLast? with
        | none => simp; omega
        | some stop => simp; omega
      | false =>
        simp only [Bool.false_eq_true, if_false]
        cases ((lineStops (n + 1) r).filter (· ≤ n + 1 + count)).getLast? with
        | none => simp; omega
        | some stop => rfl

/-- The place of an offset is counted. -/
theorem placeAt_eq {s : List Char} {offset : Nat} (h : offset ≤ s.length) :
    placeAt s offset = ⟨1 + ((lineStops 0 s).filter (· ≤ offset)).length,
      1 + (offset - lineStart s offset)⟩ := by
  rw [placeAt, Place.after_eq Place.first 0 h, lineStart, Nat.zero_add]
  cases ((lineStops 0 s).filter (· ≤ offset)).getLast? with
  | none => rfl
  | some stop => simp [Place.first, Nat.add_comm]

/-! ## The order of places -/

/-- The first place comes before the second. -/
def Place.Before (p q : Place) : Prop := p.line < q.line ∨ p.line = q.line ∧ p.column < q.column

theorem Place.Before.trans {p q r : Place} (h : p.Before q) (h' : q.Before r) : p.Before r := by
  unfold Place.Before at *
  omega

theorem Place.before_step (p : Place) (c : Char) (r : List Char) : p.Before (p.step c r) := by
  unfold step
  split
  · exact .inl (Nat.lt_succ_self _)
  · exact .inr ⟨rfl, Nat.lt_succ_self _⟩

theorem Place.before_after (p : Place) {count : Nat} {s : List Char} (h : count < s.length) :
    p.Before (p.after (count + 1) s) := by
  induction s generalizing p count with
  | nil => cases h
  | cons c r ih =>
    cases count with
    | zero => exact p.before_step c r
    | succ count =>
      exact (p.before_step c r).trans (ih (p.step c r) (Nat.lt_of_succ_lt_succ h))

theorem placeAt_add (s : List Char) (m n : Nat) :
    placeAt s (m + n) = (placeAt s m).after n (s.drop m) := Place.after_add _ _ _ _

/-- Later offsets have later places. -/
theorem placeAt_before {s : List Char} {m n : Nat} (hlt : m < n) (hle : n ≤ s.length) :
    (placeAt s m).Before (placeAt s n) := by
  obtain ⟨k, rfl⟩ := Nat.exists_eq_add_of_lt hlt
  rw [Nat.add_assoc, placeAt_add]
  exact Place.before_after _ (by rw [List.length_drop]; omega)

end Text

open Text

/-! ## Lexemes -/

/-- The lexemes of a text stand at the places of their offsets, and so does its end. -/
theorem cut_placed {source : List Char} {st : ScanState} {s : List Char} {pieces : Cut}
    (h : cut st s = .ok pieces) (hs : s = source.drop st.offset)
    (hplace : st.place = placeAt source st.offset) :
    (∀ l ∈ pieces.lexemes, l.place = placeAt source l.offset)
      ∧ pieces.final.place = placeAt source pieces.final.offset := by
  fun_induction cut st s generalizing pieces with
  | case1 st _ =>
    cases h
    exact ⟨fun l hl => absurd hl List.not_mem_nil, hplace⟩
  | case2 => cases h
  | case3 => cases h
  | case4 => cases h
  | case5 => cases h
  | case6 st c r kind extra hahead region hregion rest hrest ih =>
    cases h
    obtain ⟨hlexemes, hfinal⟩ := ih hrest
      (by
        show r.drop extra = source.drop (st.offset + (extra + 1))
        rw [← List.drop_drop, ← hs, List.drop_succ_cons])
      (by
        show st.place.after (extra + 1) (c :: r) = placeAt source (st.offset + (extra + 1))
        rw [placeAt_add, ← hplace, ← hs])
    refine ⟨fun l hl => ?_, hfinal⟩
    rcases List.mem_cons.mp hl with rfl | hl
    · exact hplace
    · exact hlexemes l hl

/-! ## Tokens -/

namespace TokenStream

variable {source : String} {defined : List String} {stream : TokenStream}

theorem Tiles.exists_offset (h : stream.Tiles source) {t : Token} (ht : t ∈ stream.all) :
    ∃ offset ≤ source.toList.length, t.offset = some offset := by
  obtain ⟨before, after, hsplit⟩ := List.append_of_mem ht
  refine ⟨_, ?_, h.offset_of_split hsplit⟩
  rw [String.length_toList, ← h.fullText, hsplit, Token.fullTextOf_append, Token.fullTextOf_cons,
    String.length_append, String.length_append, Token.fullText, String.length_append,
    String.length_append]
  omega

/-- Tokens stand at the places of their offsets, and the end of the file does. -/
theorem place_of_mem (h : ofSource source defined = .ok stream) {t : Token} (ht : t ∈ stream.all)
    {offset : Nat} (hoffset : t.offset = some offset) : t.place = placeAt source.toList offset := by
  obtain ⟨pieces, hcut, rfl⟩ := ok_of_map h
  have hstart : source.toList = source.toList.drop 0 := rfl
  obtain ⟨hlexemes, hfinal⟩ := cut_placed hcut hstart rfl
  rcases List.mem_append.mp ht with ht | ht
  · obtain ⟨l, hl, -, -, hl', hplace⟩ := exists_lexeme_of_mem_attach [] pieces.lexemes ht
    rw [hl', Option.some.injEq] at hoffset
    rw [hplace, hlexemes l hl, hoffset]
  · rw [List.mem_singleton] at ht
    subst ht
    obtain rfl := Option.some.inj hoffset
    exact hfinal

/-- The tokens of a source stand one after another. -/
theorem places_increasing (h : ofSource source defined = .ok stream) :
    (stream.all.map (·.place)).Pairwise Place.Before := by
  have htiles := tiles_of_ofSource h
  rw [List.pairwise_map]
  refine htiles.startsBefore.imp_of_mem fun {a b} ha hb hab => ?_
  obtain ⟨i, j, hi, hj, hlt⟩ := hab
  obtain ⟨offset, hle, hoffset⟩ := htiles.exists_offset hb
  obtain rfl := Option.some.inj (hj.symm.trans hoffset)
  rw [place_of_mem h ha hi, place_of_mem h hb hj]
  exact placeAt_before hlt hle

end TokenStream

/-- In every text, whatever ends its lines, the line of an offset is one more than the number of line
ends that stop at or before it, and the column is one more than the distance from the last of them or
from the start of the text. Every token of a source stands at the place of its offset, the end of the
file included, and the places of the tokens are strictly increasing. -/
theorem located_by_counting (source : String) :
    (∀ stop, stop ∈ lineStops 0 source.toList ↔ LineEnd source.toList stop)
      ∧ (lineStops 0 source.toList).Pairwise (· < ·)
      ∧ (∀ offset ≤ source.toList.length, placeAt source.toList offset
        = ⟨1 + ((lineStops 0 source.toList).filter (· ≤ offset)).length,
          1 + (offset - lineStart source.toList offset)⟩)
      ∧ ∀ defined stream, TokenStream.ofSource source defined = .ok stream →
        (∀ t ∈ stream.all, ∃ offset ≤ source.toList.length, t.offset = some offset
          ∧ t.place = placeAt source.toList offset)
        ∧ (stream.all.map (·.place)).Pairwise Place.Before := by
  refine ⟨fun stop => mem_lineStops_iff, lineStops_increasing 0 _, fun offset => placeAt_eq, ?_⟩
  intro defined stream h
  refine ⟨fun t ht => ?_, TokenStream.places_increasing h⟩
  obtain ⟨offset, hle, hoffset⟩ := (TokenStream.tiles_of_ofSource h).exists_offset ht
  exact ⟨offset, hle, hoffset, TokenStream.place_of_mem h ht hoffset⟩

/-- A text whose lines end in three ways, and the offset between a return and its line feed. -/
theorem located_by_counting_mixed :
    placeAt "a\r\nb\rc\nd".toList 2 = ⟨1, 3⟩
      ∧ ∃ stream, TokenStream.ofSource "a\r\nb\rc\nd" [] = .ok stream
        ∧ (stream.all.map (·.place)).Pairwise Place.Before := by
  obtain ⟨-, -, hcounted, hstreams⟩ := located_by_counting "a\r\nb\rc\nd"
  constructor
  · rw [hcounted 2 (by decide)]
    decide
  · have hok : (TokenStream.ofSource "a\r\nb\rc\nd" []).toOption.isSome := by decide +kernel
    obtain ⟨stream, hstream⟩ := Option.isSome_iff_exists.mp hok
    exact ⟨stream, ok_of_toOption hstream, (hstreams [] stream (ok_of_toOption hstream)).2⟩

end NullableMarker
