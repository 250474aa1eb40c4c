import NullableMarker.Proofs.AnnotatedUnits
import NullableMarker.Proofs.DeclarationOrder
import NullableMarker.Proofs.Locations

/-!
# Dotted names

A full name is a list of parts with dots between them. No part that a source can write holds a dot,
so the parts can be told from the name, and the names around it are those of its first parts.

* `dottedName_injective` — a name has one list of parts
* `Parts.mem_enclosing` — the names around a name
* `identifier_form` — what the identifiers of a source are like
-/

namespace NullableMarker

/-! ## Parts -/

/-- The name with the given parts, the outermost first. -/
def dottedName (parts : List String) : String := parts.foldl joinName ""

theorem dottedName_concat (parts : List String) (last : String) :
    dottedName (parts ++ [last]) = joinName (dottedName parts) last := by
  unfold dottedName
  rw [List.foldl_concat]

theorem joinName_of_ne {space : String} (h : space ≠ "") (name : String) :
    joinName space name = space ++ "." ++ name := by
  unfold joinName
  rw [if_neg (mt String.isEmpty_iff.mp h)]

theorem joinName_ne_empty {space : String} (h : space ≠ "") (name : String) :
    joinName space name ≠ "" := by
  rw [joinName_of_ne h]
  intro heq
  have hlist := congrArg String.toList heq
  simp [String.toList_append] at hlist

theorem foldl_joinName {first : String} (h : first ≠ "") (parts : List String) :
    parts.foldl joinName first = ".".intercalate (first :: parts) := by
  induction parts generalizing first with
  | nil => rw [String.intercalate_singleton]; rfl
  | cons second parts ih =>
    rw [List.foldl_cons, ih (joinName_ne_empty h second), joinName_of_ne h,
      String.intercalate_cons_cons]
    cases parts with
    | nil => rw [String.intercalate_singleton, String.intercalate_singleton]
    | cons third parts =>
      rw [String.intercalate_cons_cons, String.intercalate_cons_cons]
      simp only [String.append_assoc]

/-- The text can be one part of a name. -/
def Undotted (s : String) : Prop := '.' ∉ s.toList

/-- A list of parts that can be told from its name. -/
structure Parts (parts : List String) : Prop where
  head : parts.head? ≠ some ""
  undotted : ∀ part ∈ parts, Undotted part

theorem dottedName_cons {first : String} (h : first ≠ "") (parts : List String) :
    dottedName (first :: parts) = ".".intercalate (first :: parts) := foldl_joinName h parts

theorem dottedParts_intercalate {parts : List String} (hne : parts ≠ [])
    (h : ∀ part ∈ parts, Undotted part) : dottedParts (".".intercalate parts) = parts := by
  unfold dottedParts
  rw [String.toList_intercalate]
  show ((splitAt '.' (['.'].intercalate _)).map _) = _
  rw [splitAt_intercalate (by simpa using hne) (by simpa [Undotted] using h),
    List.map_map]
  simp [Function.comp_def]

namespace Parts

variable {parts parts' : List String}

theorem nil : Parts [] := ⟨nofun, nofun⟩

theorem of_append (h : Parts (parts ++ parts')) : Parts parts := by
  refine ⟨?_, fun part hpart => h.undotted part (List.mem_append_left _ hpart)⟩
  cases parts with
  | nil => exact nofun
  | cons first parts => exact h.head

theorem dottedName_eq (h : Parts parts) (hne : parts ≠ []) :
    dottedName parts = ".".intercalate parts := by
  cases parts with
  | nil => exact absurd rfl hne
  | cons first parts => exact dottedName_cons (fun heq => h.head (by rw [heq]; rfl)) parts

theorem dottedParts_eq (h : Parts parts) (hne : parts ≠ []) :
    dottedParts (dottedName parts) = parts := by
  rw [h.dottedName_eq hne, dottedParts_intercalate hne h.undotted]

theorem dottedName_ne_empty (h : Parts parts) (hne : parts ≠ []) : dottedName parts ≠ "" := by
  intro heq
  have hparts := h.dottedParts_eq hne
  rw [heq] at hparts
  exact h.head (by rw [← hparts]; rfl)

/-- The names around a name are those of its first parts. -/
theorem mem_enclosing (h : Parts parts) (hpre : parts' <+: parts) (hne : parts' ≠ []) :
    dottedName parts' ∈ SymbolTable.enclosing (dottedName parts) := by
  obtain ⟨rest, rfl⟩ := hpre
  have hall : parts' ++ rest ≠ [] := List.append_ne_nil_of_left_ne_nil hne rest
  have hlength : parts'.length - 1 + 1 = parts'.length :=
    Nat.sub_add_cancel (List.length_pos_iff.mpr hne)
  unfold SymbolTable.enclosing
  rw [if_neg (mt String.isEmpty_iff.mp (h.dottedName_ne_empty hall)), h.dottedParts_eq hall]
  refine List.mem_map.mpr ⟨parts'.length - 1, ?_, ?_⟩
  · rw [List.mem_range, List.length_append]
    omega
  · rw [hlength, List.take_left, h.of_append.dottedName_eq hne]

end Parts

/-- A name has one list of parts. -/
theorem dottedName_injective {parts parts' : List String} (h : Parts parts) (h' : Parts parts')
    (heq : dottedName parts = dottedName parts') : parts = parts' := by
  by_cases hne : parts = [] <;> by_cases hne' : parts' = []
  · rw [hne, hne']
  · exact absurd (heq.symm.trans (by rw [hne]; rfl)) (h'.dottedName_ne_empty hne')
  · exact absurd (heq.trans (by rw [hne']; rfl)) (h.dottedName_ne_empty hne)
  · rw [← h.dottedParts_eq hne, heq, h'.dottedParts_eq hne']

/-- An arity adds no dot to a name. -/
theorem undotted_metadataName {name : String} (h : Undotted name) (arity : Nat) :
    Undotted (metadataName name arity) := by
  unfold metadataName Undotted
  split
  · exact h
  · rw [String.toList_append, String.toList_append]
    refine List.not_mem_append (List.not_mem_append h (by decide)) ?_
    show '.' ∉ (Nat.repr arity).toList
    rw [Nat.toList_repr]
    intro hdot
    exact absurd (Nat.isDigit_of_mem_toDigits (by decide) (by decide) hdot) (by decide)

/-! ## Identifiers -/

theorem not_isWordPart_dot : isWordPart '.' = false := by decide +kernel

/-- The kinds of the punctuation tokens. -/
def markKinds : List TokenKind := doubleMarks.map (·.2) ++ singleMarks.map (·.2)

theorem mem_markKinds {c : Char} {r : List Char} {kind : TokenKind} {extra : Nat}
    (h : punctuation? c r = some (kind, extra)) : kind ∈ markKinds := by
  unfold punctuation? at h
  split at h
  · next k hk =>
    cases h
    exact List.mem_append_left _ (List.mem_map_of_mem (mem_of_lookup_eq_some hk))
  · obtain ⟨k, hk, heq⟩ := Option.map_eq_some_iff.mp h
    cases heq
    exact List.mem_append_right _ (List.mem_map_of_mem (mem_of_lookup_eq_some hk))

theorem punctuation?_ne_identifier {c : Char} {r : List Char} {extra : Nat} :
    punctuation? c r ≠ some (.identifier, extra) :=
  fun h => absurd (mem_markKinds h) (by decide)

/-- An identifier is made of word characters, but for an at sign before it. -/
theorem dot_not_mem_identifier {c : Char} {r : List Char} {extra : Nat}
    (h : tokenAhead c r = .ok (.identifier, extra)) : '.' ∉ c :: r.take extra := by
  cases tokenStarts_of_ok h with
  | literal hliteral hkind hextra => split at hkind <;> cases hkind
  | word hnone hword hkind hextra =>
    rw [hextra, take_takeWhile, List.mem_cons, not_or]
    constructor
    · rintro rfl
      rw [startsWord, Bool.or_eq_true, Bool.and_eq_true] at hword
      rcases hword with hstart | ⟨hat, -⟩
      · exact absurd (isWordPart_of_isWordStart hstart) (Bool.eq_false_iff.mp not_isWordPart_dot)
      · exact absurd hat (by decide)
    · intro hdot
      have hpart := List.all_eq_true.mp (List.all_takeWhile (l := r)) _ hdot
      rw [not_isWordPart_dot] at hpart
      cases hpart
  | number hnone hword hnumber hkind hextra => cases hkind
  | mark hnone hword hnumber hmark => exact absurd hmark punctuation?_ne_identifier

/-- An identifier of a source is not empty, and holds no dot. -/
theorem identifier_form {source : String} {defined : List String} {stream : TokenStream}
    (h : TokenStream.ofSource source defined = .ok stream) {t : Token} (ht : t ∈ stream.all)
    (hkind : t.kind = .identifier) : t.value ≠ "" ∧ Undotted t.value := by
  obtain ⟨pieces, hcut, rfl⟩ := ok_of_map h
  have ht : t ∈ (attach [] pieces.lexemes).1 := by
    rcases List.mem_append.mp ht with ht | ht
    · exact ht
    · rw [List.mem_singleton.mp ht] at hkind
      cases hkind
  obtain ⟨l, hl, hlexeme, hvalue, -⟩ := exists_lexeme_of_mem_attach [] pieces.lexemes ht
  obtain ⟨c, r, extra, htoken, htext⟩ := tokenAhead_of_cut hcut hl hlexeme
  rw [hkind] at htoken
  have hlist : t.value.toList = c :: r.take extra := by
    rw [hvalue, String.toList_ofList, htext]
  constructor
  · intro hempty
    rw [hempty] at hlist
    cases hlist
  · unfold Undotted
    rw [hlist]
    exact dot_not_mem_identifier htoken

end NullableMarker
