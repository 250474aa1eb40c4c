import NullableMarker.Proofs.KeptTokens
import NullableMarker.Proofs.Lines
import NullableMarker.Proofs.RereadUnits

/-!
# Annotated units

The annotated text of a unit is read as the unit with its tokens replaced and with the marks at the
ends of the types of some declarations. Every token stands on its old line, or on the line after if
the header was put in.

* `Weaving.Carries` — what becomes of the trivia around a token
* `exists_weaving` — the tokens of an annotated text are woven
* `Weaving.lines_weave` — the lines of woven tokens
* `parseUnit_annotated` — the unit that an annotated text is read as
-/

namespace NullableMarker

open Text

namespace Weaving

/-! ## Tokens with their trivia -/

/-- The token keeps its trivia behind `more`, but for a mark that takes over the trivia after it. -/
structure Carries (w : Weaving) (more : List Trivia) (t : Token) : Prop where
  leading : (w.relabel t).leading = more ++ t.leading
  trailing : (w.relabel t).trailing = if w.marked t then [] else t.trailing
  mark : w.marked t = true → (w.mark t).unplaced = Tree.questionMark t.trailing

/-- Nothing is replaced, and nothing is marked. -/
def still : Weaving where
  relabel := id
  marked _ := false
  mark _ := Tree.questionMark []
  kind_relabel _ := rfl
  value_relabel _ := rfl
  kind_mark _ := rfl

/-- The weaving with something else done to one token. -/
def set (w : Weaving) (t u m : Token) (flag : Bool) (hkind : u.kind = t.kind)
    (hvalue : u.value = t.value) (hmark : m.kind = .question) : Weaving where
  relabel s := if s = t then u else w.relabel s
  marked s := if s = t then flag else w.marked s
  mark s := if s = t then m else w.mark s
  kind_relabel s := by
    split
    · next h => rw [h, hkind]
    · exact w.kind_relabel s
  value_relabel s := by
    split
    · next h => rw [h, hvalue]
    · exact w.value_relabel s
  kind_mark s := by
    split
    · exact hmark
    · exact w.kind_mark s

theorem weave_congr {w w' : Weaving} {ts : List Token}
    (h : ∀ t ∈ ts, w'.relabel t = w.relabel t ∧ w'.marked t = w.marked t ∧ w'.mark t = w.mark t) :
    w'.weave ts = w.weave ts := by
  induction ts with
  | nil => rfl
  | cons t ts ih =>
    obtain ⟨hrelabel, hmarked, hmark⟩ := h t List.mem_cons_self
    rw [weave_cons, weave_cons, after, after, hrelabel, hmarked, hmark,
      ih fun s hs => h s (List.mem_cons_of_mem t hs)]

theorem Carries.congr {w w' : Weaving} {t : Token} {more : List Trivia}
    (h : w'.relabel t = w.relabel t ∧ w'.marked t = w.marked t ∧ w'.mark t = w.mark t)
    (hw : w.Carries more t) : w'.Carries more t := by
  obtain ⟨hrelabel, hmarked, hmark⟩ := h
  refine ⟨?_, ?_, ?_⟩
  · rw [hrelabel, hw.leading]
  · rw [hrelabel, hmarked, hw.trailing]
  · rw [hmarked, hmark]
    exact hw.mark

/-- One more token can be woven in. -/
theorem exists_set (w : Weaving) {t : Token} {ts : List Token} (ht : t ∉ ts) (flag : Bool)
    (more : List Trivia) {us : List Token} (h : us.map Token.unplaced
      = prependLeading more ((expand [(t, flag)]).map Token.unplaced)) :
    ∃ w' : Weaving, w'.weave (t :: ts) = us ++ w.weave ts ∧ w'.marked t = flag
      ∧ w'.Carries more t ∧ ∀ s ∈ ts, w'.relabel s = w.relabel s ∧ w'.marked s = w.marked s
        ∧ w'.mark s = w.mark s := by
  -- the token that comes out, and its mark
  obtain ⟨u, m, hkind, hvalue, hmark, hus, hlead, htrail, hm⟩ : ∃ u m : Token, u.kind = t.kind
      ∧ u.value = t.value ∧ m.kind = .question ∧ us = u :: (if flag then [m] else [])
      ∧ u.leading = more ++ t.leading ∧ u.trailing = (if flag then [] else t.trailing)
      ∧ (flag = true → m.unplaced = Tree.questionMark t.trailing) := by
    cases flag with
    | false =>
      obtain ⟨u, us, rfl, hu, hus⟩ := List.map_eq_cons_iff.mp h
      rw [List.map_eq_nil_iff.mp hus]
      have hkind := congrArg Token.kind hu
      have hvalue := congrArg Token.value hu
      have hlead := congrArg Token.leading hu
      have htrail := congrArg Token.trailing hu
      exact ⟨u, Tree.questionMark [], hkind, hvalue, rfl, rfl, hlead, htrail, fun h => by cases h⟩
    | true =>
      obtain ⟨u, us, rfl, hu, hus⟩ := List.map_eq_cons_iff.mp h
      obtain ⟨m, us, rfl, hm, hus⟩ := List.map_eq_cons_iff.mp hus
      rw [List.map_eq_nil_iff.mp hus]
      have hkind := congrArg Token.kind hu
      have hvalue := congrArg Token.value hu
      have hlead := congrArg Token.leading hu
      have htrail := congrArg Token.trailing hu
      have hmark := congrArg Token.kind hm
      exact ⟨u, m, hkind, hvalue, hmark, rfl, hlead, htrail, fun _ => hm⟩
  have hother : ∀ s ∈ ts, s ≠ t := fun s hs heq => ht (heq ▸ hs)
  refine ⟨w.set t u m flag hkind hvalue hmark, ?_, if_pos rfl, ⟨?_, ?_, ?_⟩, ?_⟩
  · have hsame : (w.set t u m flag hkind hvalue hmark).weave ts = w.weave ts :=
      weave_congr fun s hs => ⟨if_neg (hother s hs), if_neg (hother s hs), if_neg (hother s hs)⟩
    rw [weave_cons, hsame, hus, after]
    simp [set]
  · simpa [set] using hlead
  · simpa [set] using htrail
  · simpa [set] using hm
  · exact fun s hs => ⟨if_neg (hother s hs), if_neg (hother s hs), if_neg (hother s hs)⟩

end Weaving

/-- Tokens with marks put in, and with more trivia before the first, are woven. -/
theorem exists_weaving {fs : List (Token × Bool)} (hnodup : (fs.map (·.1)).Nodup) {us : List Token}
    (more : List Trivia)
    (h : us.map Token.unplaced = prependLeading more ((expand fs).map Token.unplaced)) :
    ∃ w : Weaving, w.weave (fs.map (·.1)) = us ∧ Tree.Flags w.marked fs
      ∧ (∀ t ∈ (fs.map (·.1)).head?, w.Carries more t)
      ∧ ∀ t ∈ (fs.map (·.1)).tail, w.Carries [] t := by
  induction fs generalizing us more with
  | nil =>
    rw [List.map_eq_nil_iff.mp h]
    refine ⟨.still, rfl, ?_, ?_, ?_⟩
    · intro f hf
      cases hf
    · intro t ht
      cases ht
    · intro t ht
      cases ht
  | cons f fs ih =>
    obtain ⟨t, flag⟩ := f
    obtain ⟨ht, hnodup⟩ := List.nodup_cons.mp hnodup
    -- only the first token gets more trivia: the others are woven with none, and then it is set
    have hsplit : prependLeading more ((expand ((t, flag) :: fs)).map Token.unplaced)
        = prependLeading more ((expand [(t, flag)]).map Token.unplaced)
          ++ (expand fs).map Token.unplaced := by
      cases flag <;> rfl
    rw [hsplit] at h
    obtain ⟨us₁, us₂, rfl, h₁, h₂⟩ := List.map_eq_append_iff.mp h
    have hnone : prependLeading [] ((expand fs).map Token.unplaced)
        = (expand fs).map Token.unplaced := by
      cases (expand fs).map Token.unplaced <;> rfl
    obtain ⟨w, rfl, hflags, hhead, htail⟩ := ih hnodup [] (h₂.trans hnone.symm)
    obtain ⟨w', hweave, hflag, hcarries, hsame⟩ := w.exists_set ht flag more h₁
    have hrest : ∀ s ∈ fs.map (·.1), w.Carries [] s := by
      intro s hs
      cases hfs : fs.map (·.1) with
      | nil => rw [hfs] at hs; cases hs
      | cons r rs =>
        rw [hfs] at hs hhead htail
        rcases List.mem_cons.mp hs with rfl | hs
        · exact hhead s rfl
        · exact htail s hs
    refine ⟨w', hweave, ?_, ?_, ?_⟩
    · intro f hf
      rcases List.mem_cons.mp hf with rfl | hf
      · exact hflag
      · rw [(hsame f.1 (List.mem_map.mpr ⟨f, hf, rfl⟩)).2.1]
        exact hflags f hf
    · rintro s ⟨rfl⟩
      exact hcarries
    · exact fun s hs => (hrest s hs).congr (hsame s hs)

/-! ## Lines -/

namespace Weaving

variable {w : Weaving}

/-- The value of a token that is marked is closed: it is not empty, and ends no line. -/
def Closed (w : Weaving) (t : Token) : Prop :=
  w.marked t = true → t.value.toList ≠ [] ∧ t.value.toList.getLast?.all (!isLineEnd ·) = true

section Carried

variable {more : List Trivia} {t : Token} (h : w.Carries more t)

include h

theorem Carries.trailing_unmarked (ht : w.marked t = false) :
    (w.relabel t).trailing = t.trailing := by
  rw [h.trailing, ht]
  rfl

theorem Carries.trailing_marked (ht : w.marked t = true) : (w.relabel t).trailing = [] := by
  rw [h.trailing, ht]
  rfl

theorem Carries.mark_parts (ht : w.marked t = true) :
    (w.mark t).leading = [] ∧ (w.mark t).value = "?" ∧ (w.mark t).trailing = t.trailing := by
  have hmark := h.mark ht
  refine ⟨?_, ?_, ?_⟩
  · exact congrArg Token.leading hmark
  · exact congrArg Token.value hmark
  · show (w.mark t).unplaced.trailing = t.trailing
    rw [hmark]
    rfl

theorem fullText_unmarked (ht : w.marked t = false) :
    (w.relabel t).fullText = Trivia.textOf more ++ t.fullText := by
  simp [Token.fullText, h.leading, h.trailing_unmarked ht, String.append_assoc]

theorem fullText_marked (ht : w.marked t = true) :
    (w.relabel t).fullText = Trivia.textOf more ++ Trivia.textOf t.leading ++ t.value
      ∧ (w.mark t).fullText = "?" ++ Trivia.textOf t.trailing := by
  obtain ⟨hlead, hvalue, htrail⟩ := h.mark_parts ht
  constructor
  · simp [Token.fullText, h.leading, h.trailing_marked ht]
  · simp [Token.fullText, hlead, hvalue, htrail]

end Carried

/-- Woven tokens start as the tokens do. -/
theorem head?_weave_text {ts : List Token} (hcarries : ∀ t ∈ ts, w.Carries [] t)
    (hclosed : ∀ t ∈ ts, w.Closed t) (rest : List Char) :
    ((Token.fullTextOf (w.weave ts)).toList ++ rest).head?
      = ((Token.fullTextOf ts).toList ++ rest).head? := by
  induction ts with
  | nil => rfl
  | cons t ts ih =>
    have ih := ih (fun s hs => hcarries s (List.mem_cons_of_mem t hs))
      fun s hs => hclosed s (List.mem_cons_of_mem t hs)
    have hc := hcarries t List.mem_cons_self
    cases ht : w.marked t with
    | false =>
      rw [weave_cons, w.after_of_unmarked ht, List.nil_append, Token.fullTextOf_cons,
        Token.fullTextOf_cons, fullText_unmarked hc ht]
      simp only [Trivia.textOf_nil, String.empty_append, String.toList_append, List.append_assoc]
      exact head?_append_congr ih
    | true =>
      obtain ⟨hne, -⟩ := hclosed t List.mem_cons_self ht
      obtain ⟨hfirst, -⟩ := fullText_marked hc ht
      obtain ⟨c, cs, hvalue⟩ := List.exists_cons_of_ne_nil hne
      rw [weave_cons, Token.fullTextOf_cons, Token.fullTextOf_cons, hfirst]
      simp only [Trivia.textOf_nil, String.empty_append, String.toList_append, List.append_assoc,
        Token.fullText, hvalue]
      exact head?_append_congr rfl

/-- A question mark after text that is closed ends no line. -/
theorem lineEnds_mark {a v b after after' : List Char} (hne : v ≠ [])
    (hlast : v.getLast?.all (!isLineEnd ·) = true) (hhead : after'.head? = after.head?) :
    lineEnds (a ++ v) ('?' :: (b ++ after')) + lineEnds ('?' :: b) after'
      = lineEnds (a ++ (v ++ b)) after := by
  obtain ⟨c, cs, rfl⟩ := List.exists_cons_of_ne_nil hne
  have hmark : lineEnds ('?' :: b) after' = lineEnds b after := by
    rw [lineEnds_congr ('?' :: b) hhead]
    exact Nat.zero_add _
  rw [hmark, lineEnds_append, lineEnds_append, lineEnds_append,
    lineEnds_closed hlast ('?' :: (b ++ after')) (b ++ after),
    lineEnds_congr a (show (c :: cs ++ '?' :: (b ++ after')).head? = (c :: cs ++ b ++ after).head?
      from rfl), Nat.add_assoc]

/-- A token whose text is counted from `k` lines further down stands `k` lines further down, and so
does what follows it. -/
theorem line_step {t : Token} {ts : List Token} {more : List Trivia} (hc : w.Carries more t)
    (hclosed : w.Closed t) {rest : List Char}
    (hhead : ((Token.fullTextOf (w.weave ts)).toList ++ rest).head?
      = ((Token.fullTextOf ts).toList ++ rest).head?) {n n' k : Nat}
    (h : Token.LinedFrom n rest (t :: ts)) (h' : Token.LinedFrom n' rest (w.weave (t :: ts)))
    (hn : n' + lineEnds (Trivia.textOf more).toList
      ((Token.fullTextOf (t :: ts)).toList ++ rest) = n + k) :
    (w.relabel t).place.line = t.place.line + k
      ∧ ∃ n₁, Token.LinedFrom n₁ rest ts ∧ Token.LinedFrom (n₁ + k) rest (w.weave ts) := by
  obtain ⟨hline, hrest⟩ := h
  rw [Token.fullTextOf_cons, Token.fullText] at hn
  rw [Token.fullText] at hrest
  simp only [String.toList_append, List.append_assoc] at hn hrest
  generalize (Token.fullTextOf ts).toList ++ rest = after at hline hrest hn hhead
  cases ht : w.marked t with
  | false =>
    -- the text is the same but for `more`, and so is the character after each part of it
    have htrail := hc.trailing_unmarked ht
    rw [weave_cons, w.after_of_unmarked ht, List.nil_append] at h'
    obtain ⟨hline', hrest'⟩ := h'
    rw [Token.fullText] at hrest'
    simp only [hc.leading, w.value_relabel, htrail, Trivia.textOf_append,
      String.toList_append, List.append_assoc] at hline' hrest'
    rw [lineEnds_append, lineEnds_congr _ (head?_append_congr (head?_append_congr
      (head?_append_congr hhead))), lineEnds_congr (Trivia.textOf t.leading).toList
      (head?_append_congr (head?_append_congr hhead))] at hline'
    rw [lineEnds_congr _ hhead, lineEnds_append] at hrest'
    simp only [List.append_assoc] at hrest'
    refine ⟨by omega, _, hrest, ?_⟩
    rwa [← Nat.add_assoc, hn, Nat.add_right_comm] at hrest'
  | true =>
    -- the mark parts the value from the trivia after it, and no line ends where they are parted
    obtain ⟨hne, hlast⟩ := hclosed ht
    obtain ⟨hfirst, hsecond⟩ := fullText_marked hc ht
    have htrail := hc.trailing_marked ht
    have hweave : w.weave (t :: ts) = w.relabel t :: w.mark t :: w.weave ts := by
      rw [weave_cons, w.after_of_marked ht]
      rfl
    rw [hweave] at h'
    obtain ⟨hline', -, hrest'⟩ := h'
    rw [hfirst, Token.fullTextOf_cons, hsecond] at hrest'
    rw [Token.fullTextOf_cons, hsecond] at hline'
    have hquestion : "?".toList = ['?'] := rfl
    simp only [hc.leading, w.value_relabel, htrail, Trivia.textOf_append, Trivia.textOf_nil,
      String.toList_append, String.toList_empty, List.append_assoc, List.nil_append, hquestion,
      List.cons_append] at hline' hrest'
    generalize (Token.fullTextOf (w.weave ts)).toList ++ rest = after' at hline' hrest' hhead
    have hvalue : ∀ x y : List Char, (t.value.toList ++ x).head? = (t.value.toList ++ y).head? := by
      obtain ⟨c, cs, hcons⟩ := List.exists_cons_of_ne_nil hne
      intro x y
      rw [hcons]
      rfl
    have hnext := hvalue ('?' :: ((Trivia.textOf t.trailing).toList ++ after'))
      ((Trivia.textOf t.trailing).toList ++ after)
    rw [lineEnds_append, lineEnds_congr _ (head?_append_congr hnext),
      lineEnds_congr (Trivia.textOf t.leading).toList hnext] at hline'
    rw [Nat.add_assoc, ← List.append_assoc, lineEnds_mark hne hlast hhead, List.append_assoc,
      lineEnds_append] at hrest'
    simp only [List.append_assoc] at hrest'
    refine ⟨?_, _, hrest, ?_⟩
    · rw [hline', hline]
      omega
    · rwa [← Nat.add_assoc, hn, Nat.add_right_comm] at hrest'

/-- The lines of woven tokens, where the first comes `k` lines further down. -/
theorem lines_weave {ts : List Token} (hcarries : ∀ t ∈ ts, w.Carries [] t)
    (hclosed : ∀ t ∈ ts, w.Closed t) {n k : Nat} {rest : List Char}
    (h : Token.LinedFrom n rest ts) (h' : Token.LinedFrom (n + k) rest (w.weave ts)) :
    ∀ t ∈ ts, (w.relabel t).place.line = t.place.line + k := by
  induction ts generalizing n with
  | nil => exact fun t ht => by cases ht
  | cons t ts ih =>
    have hcarries' : ∀ s ∈ ts, w.Carries [] s := fun s hs => hcarries s (List.mem_cons_of_mem t hs)
    have hclosed' : ∀ s ∈ ts, w.Closed s := fun s hs => hclosed s (List.mem_cons_of_mem t hs)
    obtain ⟨hline, n₁, hts, hts'⟩ := line_step (hcarries t List.mem_cons_self)
      (hclosed t List.mem_cons_self) (head?_weave_text hcarries' hclosed' rest) h h' (k := k)
      (by simp)
    intro s hs
    rcases List.mem_cons.mp hs with rfl | hs
    · exact hline
    · exact ih hcarries' hclosed' hts hts' s hs

/-! ## Marks -/

theorem sound_of_flags {fs : List (Token × Bool)} (hflags : Tree.Flags w.marked fs)
    (h : SoundFlags fs) : w.Sound (fs.map (·.1)) := by
  induction fs with
  | nil => trivial
  | cons f fs ih =>
    refine ⟨fun hmarked => ?_, ih (fun g hg => hflags g (List.mem_cons_of_mem f hg)) h.2⟩
    rw [hflags f List.mem_cons_self] at hmarked
    obtain ⟨hends, hident⟩ := h.1 hmarked
    refine ⟨hends, ?_⟩
    cases fs with
    | nil => cases hident
    | cons g fs => exact hident

/-- A token that is no identifier may be left away at the end. -/
theorem Sound.of_concat {ts : List Token} {last : Token} (h : w.Sound (ts ++ [last]))
    (hlast : last.kind ≠ .identifier) : w.Sound ts := by
  induction ts with
  | nil => trivial
  | cons t ts ih =>
    refine ⟨fun hmarked => ⟨(h.1 hmarked).1, ?_⟩, ih h.2⟩
    have hnext := (h.1 hmarked).2
    cases ts with
    | nil => exact absurd (by simpa [Grammar.nextIs] using hnext) hlast
    | cons u ts => exact hnext

theorem mem_tokensAll {c : Tree} {cs : List Tree} (hc : c ∈ cs) {t : Token} (ht : t ∈ c.tokens) :
    t ∈ Tree.tokensAll cs := by
  induction cs with
  | nil => cases hc
  | cons d cs ih =>
    rw [Tree.tokensAll_cons]
    rcases List.mem_cons.mp hc with rfl | hc
    · exact List.mem_append_left _ ht
    · exact List.mem_append_right _ (ih hc)

theorem isType_of_isSite {k : NodeKind} (h : k.isSite = true) : k.isType = false := by
  rw [← Bool.not_eq_true]
  intro htype
  rw [Tree.isSite_of_isType htype] at h
  cases h

theorem fits_of_typed {k : NodeKind} (hk : k.isSite = true) {cs pre post : List Tree} {type : Tree}
    (h : Tree.Typed cs pre type post) (hpre : ∀ t ∈ Tree.tokensAll pre, w.marked t = false)
    (htype : ∀ t ∈ type.tokens.dropLast, w.marked t = false)
    (hpost : ∀ t ∈ Tree.tokensAll post, w.marked t = false) : w.Fits (.node k cs) := by
  rw [fits_node (isType_of_isSite hk), h.split]
  intro c hc
  rcases List.mem_append.mp hc with hc | hc
  · exact fits_of_unmarked c fun t ht => hpre t (mem_tokensAll hc ht)
  rcases List.mem_cons.mp hc with rfl | hc
  · exact (Grammar.fits_isType h.type_isType).mpr htype
  · exact fits_of_unmarked c fun t ht => hpost t (mem_tokensAll hc ht)

mutual

/-- Marks at the ends of the types of declarations fit. -/
theorem fits_of_marksAtTypes : (t : Tree) → t.MarksAtTypes w.marked → w.Fits t
  | .token t, h => by
    rw [Tree.MarksAtTypes] at h
    exact (fits_token t).mpr h
  | .node k cs, h => by
    cases hsite : k.isSite with
    | true =>
      rcases (Tree.marksAtTypes_site hsite cs).mp h with h | ⟨pre, type, post, htyped, h₁, h₂, h₃⟩
      · exact fits_of_unmarked _ (by rwa [Tree.tokens_node])
      · exact fits_of_typed hsite htyped h₁ h₂ h₃
    | false =>
      cases htype : k.isType with
      | true =>
        have h := (Tree.marksAtTypes_type htype cs).mp h
        exact fits_of_unmarked _ (by rwa [Tree.tokens_node])
      | false =>
        rw [fits_node htype]
        exact fits_of_marksAtTypesAll cs ((Tree.marksAtTypes_node hsite htype cs).mp h)

theorem fits_of_marksAtTypesAll : (ts : List Tree) → (∀ t ∈ ts, t.MarksAtTypes w.marked) →
    ∀ t ∈ ts, w.Fits t
  | [], _ => fun t ht => by cases ht
  | u :: us, h => fun t ht => by
    rcases List.mem_cons.mp ht with ht | ht
    · rw [ht]
      exact fits_of_marksAtTypes u (h u List.mem_cons_self)
    · exact fits_of_marksAtTypesAll us (fun s hs => h s (List.mem_cons_of_mem u hs)) t ht

end

theorem sublist_weave (ts : List Token) : (ts.map w.relabel).Sublist (w.weave ts) := by
  induction ts with
  | nil => exact .slnil
  | cons t ts ih =>
    rw [weave_cons]
    exact (ih.trans (List.sublist_append_right _ _)).cons_cons _

end Weaving

/-! ## Tokens of sources -/

/-- A token that ends a type is not empty, and ends no line. -/
theorem closed_of_endsType {source : String} {defined : List String} {stream : TokenStream}
    (h : TokenStream.ofSource source defined = .ok stream) {t : Token} (ht : t ∈ stream.all)
    (hends : t.endsType = true) :
    t.value.toList ≠ [] ∧ t.value.toList.getLast?.all (!isLineEnd ·) = true := by
  obtain ⟨pieces, hcut, rfl⟩ := ok_of_map h
  have ht : t ∈ (attach [] pieces.lexemes).1 := by
    rcases List.mem_append.mp ht with ht | ht
    · exact ht
    · rw [List.mem_singleton.mp ht] at hends
      exact absurd rfl (Token.kind_ne_eof_of_endsType hends)
  obtain ⟨l, hl, hkind, hvalue, -⟩ := exists_lexeme_of_mem_attach [] pieces.lexemes ht
  obtain ⟨c, r, extra, htoken, htext⟩ := tokenAhead_of_cut hcut hl hkind
  rw [hvalue, String.toList_ofList, htext]
  refine ⟨List.cons_ne_nil _ _, ?_⟩
  have hlast := tokenAhead_not_blank htoken (Token.kind_of_endsType hends)
  cases hc : (c :: r.take extra).getLast? with
  | none => rfl
  | some d =>
    rw [hc, Option.all_some, Bool.and_eq_true] at hlast
    exact hlast.2

/-- The header is one line. -/
theorem lineEnds_header {nl : String} (hnl : nl.toList ∈ newlines) {s : List Char}
    (hjoin : nl.toList = ['\r'] → s.head? ≠ some '\n') :
    lineEnds (Trivia.textOf (Tree.headerTrivia nl)).toList s = 1 := by
  have hdirective : ∀ rest, lineEnds nullableDirective.toList rest = 0 := by
    intro rest
    rw [lineEnds_closed (by decide) rest []]
    decide
  have htext : (Trivia.textOf (Tree.headerTrivia nl)).toList
      = nullableDirective.toList ++ nl.toList := by
    simp [Tree.headerTrivia]
  rw [htext, lineEnds_append, hdirective, Nat.zero_add]
  simp only [newlines, List.mem_cons, List.not_mem_nil, or_false] at hnl
  rcases hnl with hnl | hnl | hnl
  · rw [hnl]
    rfl
  · have hne := hjoin hnl
    rw [hnl]
    simp [lineEnds, endsLine, hne]
  · rw [hnl]
    rfl

/-! ## Units -/

/-- What is known of the weaving of an annotated unit. -/
structure Weaving.Annotates (w : Weaving) (root : Tree) : Prop where
  marks : root.MarksAtTypes w.marked
  first : ∀ t ∈ root.tokens.head?, w.Carries root.headerOf t
  carries : ∀ t ∈ root.tokens.tail, w.Carries [] t
  lines : ∀ t ∈ root.tokens,
    (w.relabel t).place.line = t.place.line + if root.needsHeader then 1 else 0
  placed : ∀ t ∈ root.tokens, ∃ i, (w.relabel t).offset = some i
  startsBefore : (root.tokens.map w.relabel).Pairwise Token.StartsBefore

theorem ne_of_startsBefore {a b : Token} (h : a.StartsBefore b) : a ≠ b := by
  rintro rfl
  obtain ⟨i, j, hi, hj, hlt⟩ := h
  rw [hi] at hj
  cases hj
  exact Nat.lt_irrefl _ hlt

section Units

variable {source : String} {defined : List String} {root : Tree}

theorem lines_annotated {w : Weaving} {stream stream' : TokenStream}
    (hstream : TokenStream.ofSource source defined = .ok stream)
    (htokens : root.tokens = stream.all) {text : String}
    (hstream' : TokenStream.ofSource text defined = .ok stream')
    (hweave : w.weave root.tokens = stream'.all) (hclosed : ∀ t ∈ root.tokens, w.Closed t)
    (hfirst : ∀ t ∈ root.tokens.head?, w.Carries root.headerOf t)
    (hcarries : ∀ t ∈ root.tokens.tail, w.Carries [] t) :
    ∀ t ∈ root.tokens,
      (w.relabel t).place.line = t.place.line + if root.needsHeader then 1 else 0 := by
  have hlined := TokenStream.ofSource_lined hstream
  have hlined' := TokenStream.ofSource_lined hstream'
  -- the end of the header's line does not run together with the start of the source
  have hnewline : root.newline.toList ∈ newlines
      ∧ (root.newline.toList = ['\r'] → source.toList.head? ≠ some '\n') := by
    obtain ⟨pieces, hcut, rfl⟩ := ok_of_map hstream
    exact newline_ofCut hcut htokens
  rw [← hweave] at hlined'
  have htext : (Token.fullTextOf root.tokens).toList = source.toList := by
    rw [htokens, (TokenStream.tiles_of_ofSource hstream).fullText]
  rw [← htokens] at hlined
  cases hcons : root.tokens with
  | nil => exact fun t ht => by cases ht
  | cons t ts =>
    rw [hcons] at hlined hlined' hclosed hfirst hcarries htext
    have hclosed' : ∀ s ∈ ts, w.Closed s := fun s hs => hclosed s (List.mem_cons_of_mem t hs)
    have hheader : 1 + lineEnds (Trivia.textOf root.headerOf).toList
        ((Token.fullTextOf (t :: ts)).toList ++ []) = 1 + if root.needsHeader then 1 else 0 := by
      rw [List.append_nil, htext, Tree.headerOf]
      split
      · rw [lineEnds_header hnewline.1 hnewline.2]
      · simp
    obtain ⟨hline, n, hts, hts'⟩ := Weaving.line_step (hfirst t rfl) (hclosed t List.mem_cons_self)
      (Weaving.head?_weave_text hcarries hclosed' []) hlined hlined' hheader
    intro s hs
    rcases List.mem_cons.mp hs with rfl | hs
    · exact hline
    · exact Weaving.lines_weave hcarries hclosed' hts hts' s hs

/-- The annotated text of a unit, for any verdicts, is read as the unit with its tokens replaced and
with marks at the ends of the types of some declarations, those that are marked among them. -/
theorem parseUnit_annotated (v : Verdicts) (hroot : parseUnit source defined = .ok root) :
    ∃ w : Weaving, parseUnit (root.mark v).addHeader.fullText defined = .ok (w.tree root)
      ∧ w.Annotates root ∧ ∀ n ∈ Tree.marked v root.sites, n.typeEnd?.any w.marked = true := by
  obtain ⟨stream, hstream, hread⟩ := stream_of_readSource hroot
  have htokens := TokenStream.tokens_of_toUnit hread
  have htree := (Tree.isUnitOf_of_parseUnit hroot).toIsTreeOf
  obtain ⟨fs, hfs, hmarks⟩ := htree.orderly.marksOnly v
  obtain ⟨stream', hstream', hall, -⟩ := relexed hstream htokens htree hfs
  -- no two tokens are equal, since each starts at its own offset
  have hnodup : (fs.map (·.1)).Nodup := by
    rw [hfs.tokens]
    exact htree.startsBefore.imp ne_of_startsBefore
  obtain ⟨w, hweave, hflags, hfirst, hcarries⟩ := exists_weaving hnodup root.headerOf hall
  have hsound := Weaving.sound_of_flags hflags hfs.sound
  rw [hfs.tokens] at hweave hfirst hcarries hsound
  have hclosed : ∀ t ∈ root.tokens, w.Closed t := by
    intro t ht hmarked
    obtain ⟨before, after, hsplit⟩ := List.append_of_mem ht
    rw [hsplit] at hsound
    exact closed_of_endsType hstream (htokens ▸ ht) (hsound.of_append.1 hmarked).1
  have htiles := TokenStream.tiles_of_ofSource hstream
  have htiles' := TokenStream.tiles_of_ofSource hstream'
  have hsublist : (root.tokens.map w.relabel).Sublist stream'.all := by
    rw [← hweave]
    exact Weaving.sublist_weave _
  refine ⟨w, ?_, ⟨hmarks w.marked hflags, hfirst, hcarries, ?_, ?_, ?_⟩, ?_⟩
  · -- the end of the file is not marked
    rw [htokens] at hsound hweave
    have heof : w.marked stream.eof = false := by
      rw [← Bool.not_eq_true]
      intro hmarked
      have hlast : w.Sound [stream.eof] := hsound.of_append
      exact Token.kind_ne_eof_of_endsType (hlast.1 hmarked).1 htiles.eof_kind
    have hsplit : w.weave stream.tokens ++ [w.relabel stream.eof]
        = stream'.tokens ++ [stream'.eof] := by
      rw [TokenStream.all, Weaving.weave_append, Weaving.weave_cons,
        w.after_of_unmarked heof] at hweave
      exact hweave
    obtain ⟨hinit, hlast⟩ := List.append_inj' hsplit rfl
    have hread' := TokenStream.toUnit_weave (hsound.of_concat (by rw [htiles.eof_kind]; decide))
      hinit.symm (List.cons.inj hlast).1.symm hread
      (Weaving.fits_of_marksAtTypes root (hmarks _ hflags))
    unfold parseUnit readSource
    rw [hstream']
    dsimp only
    rw [hread']
    rfl
  · exact lines_annotated hstream htokens hstream' hweave hclosed hfirst hcarries
  · intro t ht
    obtain ⟨i, hi, -⟩ := htiles'.placed.offset_ge _ (hsublist.mem (List.mem_map_of_mem ht))
    exact ⟨i, hi⟩
  · exact List.Pairwise.sublist hsublist htiles'.startsBefore
  · intro n hn
    have hend : n.typeEnd? ∈ (flaggedTokens fs).map some := by
      rw [← hfs.ends]
      exact List.mem_map_of_mem hn
    obtain ⟨last, hlast, hend⟩ := List.mem_map.mp hend
    obtain ⟨f, hf, rfl⟩ := List.mem_map.mp hlast
    obtain ⟨hf, hflag⟩ := List.mem_filter.mp hf
    rw [← hend, Option.any_some, hflags f hf]
    exact hflag

end Units

end NullableMarker
