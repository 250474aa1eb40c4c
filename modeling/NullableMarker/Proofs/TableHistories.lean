import NullableMarker.Proofs.FullNames

/-!
# Tables and their histories

A table is made by adding types to an empty one, and by copying another. It keeps three indices: the
types by their keys, the types behind keywords, and the namespaces. They agree after every addition,
since a second declaration of a type replaces the entry of its key by one with the same outline.

* `TypeSymbol.Completes` — what a second declaration makes of a type
* `SymbolTable.Consistent` — what the three indices have to do with each other
* `TableStep` — additions and copies
* `TableStep.consistent_runAll` — the tables of every history, and what is added to them
-/

namespace NullableMarker

/-! ## Equality of references -/

theorem Moment.isSame_self (m : Moment) : m.isSame m = true := by
  unfold isSame
  split
  · next a b ha hb =>
    obtain rfl := Option.some.inj (ha.symm.trans hb)
    exact beq_self_eq_true _
  · exact beq_self_eq_true m
  · next hsome hnone =>
    cases h : m.ahead with
    | none => exact absurd h (hnone h)
    | some a => exact absurd h (hsome a a h)

instance : ReflBEq Scalar where
  rfl := by
    intro s
    show s.beq s = true
    cases s with
    | moment m => exact m.isSame_self
    | _ => simp [Scalar.beq, Scalar.units?]

mutual

theorem Value.beq_self (v : Value) : v.beq v = true := by
  cases v with
  | scalar s => exact beq_self_eq_true s
  | list items => rw [Value.beq, Value.beqAll_self items]
  | pair key value => rw [Value.beq, Value.beq_self key, Value.beq_self value]; rfl
  | set items =>
    rw [Value.beq, beq_self_eq_true, Bool.true_and, List.all_eq_true]
    exact fun a ha => List.any_eq_true.mpr ⟨a, ha, beq_self_eq_true a⟩
  | map entries =>
    rw [Value.beq, beq_self_eq_true, Value.beqEntries_of_subset entries (List.Subset.refl entries)]
    rfl

theorem Value.beqAll_self (vs : List Value) : Value.beqAll vs vs = true := by
  cases vs with
  | nil => rfl
  | cons v vs => rw [Value.beqAll, Value.beq_self v, Value.beqAll_self vs]; rfl

/-- Entries are among others that hold them all. -/
theorem Value.beqEntries_of_subset (es : List (Scalar × Value)) {others : List (Scalar × Value)}
    (h : es ⊆ others) : Value.beqEntries es others = true := by
  cases es with
  | nil => rfl
  | cons e es =>
    obtain ⟨key, v⟩ := e
    have hv := Value.beq_self v
    rw [Value.beqEntries, Bool.and_eq_true, List.any_eq_true]
    refine ⟨⟨(key, v), h List.mem_cons_self, ?_⟩,
      Value.beqEntries_of_subset es fun e he => h (List.mem_cons_of_mem _ he)⟩
    rw [beq_self_eq_true, hv]
    rfl

end

instance : ReflBEq TypeRef where
  rfl := by
    intro r
    cases r with
    | key k => exact beq_self_eq_true k
    | other v => exact Value.beq_self v

/-! ## Second declarations -/

/-- The symbol is the first, completed by a second declaration. -/
structure TypeSymbol.Completes (first second merged : TypeSymbol) : Prop where
  name : merged.name = first.name
  namespaceName : merged.namespaceName = first.namespaceName
  kind : merged.kind = first.kind
  arity : merged.arity = first.arity
  containing : merged.containing = first.containing
  origin : merged.origin = first.origin
  base : first.base.any (·.isPresent) = true → merged.base = first.base
  special : first.special.isSome = true → merged.special = first.special
  kept : first.interfaces <+: merged.interfaces
  added : ∀ r ∈ second.interfaces, merged.interfaces.contains r = true

theorem TypeSymbol.completes_merge (s t : TypeSymbol) : s.Completes t (s.merge t) where
  name := rfl
  namespaceName := rfl
  kind := rfl
  arity := rfl
  containing := rfl
  origin := rfl
  base hbase := if_pos hbase
  special hspecial := by
    obtain ⟨word, hword⟩ := Option.isSome_iff_exists.mp hspecial
    rw [TypeSymbol.merge, hword]
    rfl
  kept := List.prefix_append _ _
  added r hr := by
    show (s.interfaces ++ _).contains r = true
    rw [List.contains_append, Bool.or_eq_true]
    cases hknown : s.interfaces.contains r with
    | true => exact .inl rfl
    | false =>
      have hmem : r ∈ t.interfaces.filter (!s.interfaces.contains ·) :=
        List.mem_filter.mpr ⟨hr, by rw [hknown]; rfl⟩
      exact .inr (List.contains_iff_exists_mem_beq.mpr ⟨r, hmem, BEq.rfl⟩)

/-! ## The namespaces around a name -/

/-- The first name is the second, or what stands before one of its dots. -/
def DottedPrefix (outer name : String) : Prop :=
  outer = name ∨ ∃ rest, name = outer ++ "." ++ rest

/-- Nothing stands before a dot of the empty name. -/
theorem DottedPrefix.eq_empty {outer name : String} (h : DottedPrefix outer name)
    (hname : name = "") : outer = "" := by
  rcases h with rfl | ⟨rest, hrest⟩
  · exact hname
  · have hlist := congrArg String.toList (hname.symm.trans hrest)
    simp [String.toList_append] at hlist

theorem splitAt_append_mark {mark : Char} (s t : List Char) :
    splitAt mark (s ++ mark :: t) = splitAt mark s ++ splitAt mark t := by
  induction s with
  | nil => exact splitAt_cons_mark t
  | cons c s ih =>
    by_cases hc : c = mark
    · rw [hc, List.cons_append, splitAt_cons_mark, splitAt_cons_mark, ih]
      rfl
    · obtain ⟨part, parts, hs⟩ := List.exists_cons_of_ne_nil (splitAt_ne_nil mark s)
      rw [hs] at ih
      rw [splitAt_cons_of_ne hc hs]
      exact splitAt_cons_of_ne hc ih

theorem dottedParts_append (s t : String) :
    dottedParts (s ++ "." ++ t) = dottedParts s ++ dottedParts t := by
  unfold dottedParts
  rw [String.append_assoc, String.toList_append, String.toList_append, ← List.map_append]
  exact congrArg _ (splitAt_append_mark s.toList t.toList)

theorem intercalate_dottedParts (s : String) : ".".intercalate (dottedParts s) = s := by
  refine String.toList_inj.mp ?_
  unfold dottedParts
  rw [String.toList_intercalate, List.map_map]
  have hid : String.toList ∘ String.ofList = id := funext fun _ => String.toList_ofList
  rw [hid, List.map_id]
  exact intercalate_splitAt s.toList

theorem dottedParts_ne_nil (s : String) : dottedParts s ≠ [] := by
  unfold dottedParts
  rw [ne_eq, List.map_eq_nil_iff]
  exact splitAt_ne_nil '.' s.toList

/-- Names are put together part by part. -/
theorem intercalate_append {parts parts' : List String} (h : parts ≠ []) (h' : parts' ≠ []) :
    ".".intercalate (parts ++ parts')
      = ".".intercalate parts ++ "." ++ ".".intercalate parts' := by
  induction parts with
  | nil => exact absurd rfl h
  | cons first parts ih =>
    cases parts with
    | nil =>
      obtain ⟨first', parts', rfl⟩ := List.exists_cons_of_ne_nil h'
      rw [List.singleton_append, String.intercalate_cons_cons, String.intercalate_singleton]
    | cons second parts =>
      rw [List.cons_append, List.cons_append, String.intercalate_cons_cons, ← List.cons_append,
        ih (List.cons_ne_nil _ _), String.intercalate_cons_cons]
      simp only [String.append_assoc]

/-- The names around a name are what stands before its dots, and itself. -/
theorem SymbolTable.mem_enclosing_iff {name space : String} :
    name ∈ enclosing space ↔ space ≠ "" ∧ DottedPrefix name space := by
  unfold enclosing
  by_cases hspace : space = ""
  · simp [hspace]
  rw [if_neg (mt String.isEmpty_iff.mp hspace), List.mem_map]
  have hspaceEq := intercalate_dottedParts space
  constructor
  · rintro ⟨i, hi, rfl⟩
    refine ⟨hspace, ?_⟩
    rw [List.mem_range] at hi
    have hsplit := List.take_append_drop (i + 1) (dottedParts space)
    by_cases hrest : (dottedParts space).drop (i + 1) = []
    · rw [hrest, List.append_nil] at hsplit
      exact .inl (by rw [hsplit, hspaceEq])
    · have htaken : (dottedParts space).take (i + 1) ≠ [] := by
        rw [ne_eq, List.take_eq_nil_iff]
        simp [dottedParts_ne_nil]
      exact .inr ⟨_, by rw [← intercalate_append htaken hrest, hsplit, hspaceEq]⟩
  · rintro ⟨-, rfl | ⟨rest, rfl⟩⟩
    · have hlength := List.length_pos_iff.mpr (dottedParts_ne_nil name)
      refine ⟨(dottedParts name).length - 1, List.mem_range.mpr (by omega), ?_⟩
      rw [Nat.sub_add_cancel hlength, List.take_length, intercalate_dottedParts]
    · have hlength := List.length_pos_iff.mpr (dottedParts_ne_nil name)
      rw [dottedParts_append]
      refine ⟨(dottedParts name).length - 1, List.mem_range.mpr ?_, ?_⟩
      · rw [List.length_append]
        omega
      · rw [Nat.sub_add_cancel hlength, List.take_left, intercalate_dottedParts]

/-! ## Indices without repetitions -/

theorem mem_map_upsert {α β : Type} [BEq α] [LawfulBEq α] {k : α} {v : β} {l : List (α × β)}
    {a : α} : a ∈ (upsert k v l).map (·.1) ↔ a = k ∨ a ∈ l.map (·.1) := by
  induction l with
  | nil => simp [upsert]
  | cons e l ih =>
    obtain ⟨k', v'⟩ := e
    unfold upsert
    by_cases hk : k' == k
    · simp [eq_of_beq hk]
    · rw [if_neg hk, List.map_cons, List.mem_cons, ih, List.map_cons, List.mem_cons]
      exact or_left_comm

theorem nodup_upsert {α β : Type} [BEq α] [LawfulBEq α] {k : α} {v : β} {l : List (α × β)}
    (h : (l.map (·.1)).Nodup) : ((upsert k v l).map (·.1)).Nodup := by
  induction l with
  | nil => exact List.nodup_singleton k
  | cons e l ih =>
    obtain ⟨k', v'⟩ := e
    unfold upsert
    by_cases hk : k' == k
    · rw [if_pos hk]
      exact h
    · rw [List.map_cons, List.nodup_cons] at h
      rw [if_neg hk, List.map_cons, List.nodup_cons, mem_map_upsert, not_or]
      exact ⟨⟨fun heq => hk (beq_iff_eq.mpr heq), h.1⟩, ih h.2⟩

theorem nodup_foldl_contains {names known : List String} (h : known.Nodup) :
    (names.foldl (fun known n => if known.contains n then known else known ++ [n])
      known).Nodup := by
  induction names generalizing known with
  | nil => exact h
  | cons n names ih =>
    rw [List.foldl_cons]
    refine ih ?_
    by_cases hn : known.contains n
    · rw [if_pos hn]
      exact h
    · rw [if_neg hn]
      rw [List.contains_iff_mem] at hn
      exact List.concat_eq_append ▸ h.concat hn

/-! ## What the indices have to do with each other -/

namespace SymbolTable

/-- Every type stands once, under its key; a type behind a keyword is the entry of its key and has the
keyword; and the namespaces are the empty one and those around the types, each once. -/
structure Consistent (T : SymbolTable) : Prop extends T.Sound where
  types_nodup : (T.types.map (·.1)).Nodup
  specials_nodup : (T.specials.map (·.1)).Nodup
  namespaces_nodup : T.namespaces.Nodup
  namespaces : ∀ name, T.hasNamespace name = true
    ↔ name = "" ∨ ∃ key s, T.get? key = some s ∧ DottedPrefix name s.namespaceName

theorem consistent_empty : empty.Consistent where
  toSound := sound_empty
  types_nodup := List.nodup_nil
  specials_nodup := List.nodup_nil
  namespaces_nodup := List.nodup_singleton ""
  namespaces name := by
    constructor
    · intro h
      exact .inl (List.mem_singleton.mp (List.contains_iff_mem.mp h))
    · rintro (rfl | ⟨key, s, hs, -⟩)
      · rfl
      · cases hs

variable {T : SymbolTable}

/-- Adding a type changes the entry of its key alone, and not the namespace of that. -/
theorem get?_add_namespace (hT : T.Keyed) (s : TypeSymbol) {key : String} {t : TypeSymbol}
    (ht : T.get? key = some t) :
    ∃ now, (T.add s).1.get? key = some now ∧ now.namespaceName = t.namespaceName := by
  by_cases hkey : key = s.key
  · subst hkey
    exact ⟨t.merge s, by rw [get?_add_self hT, ht]; rfl, rfl⟩
  · exact ⟨t, by rw [get?_add_of_ne hT hkey, ht], rfl⟩

theorem Consistent.add (h : T.Consistent) (s : TypeSymbol) : (T.add s).1.Consistent := by
  have hkeyed : T.Keyed := h.keyed
  obtain ⟨merged, hmerged, htypes, hspecials⟩ := add_fst T s
  refine ⟨h.toSound.add s, ?_, ?_, nodup_foldl_contains h.namespaces_nodup, fun name => ?_⟩
  · rw [htypes]
    exact nodup_upsert h.types_nodup
  · rw [hspecials]
    cases merged.special with
    | none => exact h.specials_nodup
    | some word => exact nodup_upsert h.specials_nodup
  have hself := get?_add_self hkeyed s
  rw [hasNamespace_add, Bool.or_eq_true, h.namespaces, List.contains_iff_mem, mem_enclosing_iff]
  constructor
  · rintro ((hname | ⟨key, t, ht, hstart⟩) | ⟨-, hstart⟩)
    · exact .inl hname
    · obtain ⟨now, hnow, hspace⟩ := get?_add_namespace hkeyed s ht
      exact .inr ⟨key, now, hnow, hspace ▸ hstart⟩
    · exact .inr ⟨s.key, _, hself, hstart⟩
  · rintro (hname | ⟨key, t, ht, hstart⟩)
    · exact .inl (.inl hname)
    · by_cases hkey : key = s.key
      · subst hkey
        obtain rfl := Option.some.inj (hself.symm.trans ht)
        by_cases hempty : ((T.get? s.key).elim s (·.merge s)).namespaceName = ""
        · exact .inl (.inl (hstart.eq_empty hempty))
        · exact .inr ⟨hempty, hstart⟩
      · rw [get?_add_of_ne hkeyed hkey] at ht
        exact .inl (.inr ⟨key, t, ht, hstart⟩)

/-- A second declaration of a type completes the entry of its key. -/
theorem completes_add (hT : T.Keyed) {s first : TypeSymbol} (hfirst : T.get? s.key = some first) :
    (T.add s).1.get? s.key = some (T.add s).2 ∧ first.Completes s (T.add s).2 := by
  have hmerged : (T.add s).2 = first.merge s := by
    unfold add
    rw [hfirst]
  rw [hmerged, get?_add_self hT, hfirst]
  exact ⟨rfl, first.completes_merge s⟩

end SymbolTable

/-! ## Histories -/

/-- What is done to the tables there are: a type is added to one of them, or one is copied. -/
inductive TableStep where
  | add (table : Nat) (s : TypeSymbol)
  | copy (table : Nat)
  deriving Repr

namespace TableStep

/-- The tables after a step. A copy is a table of its own, and comes last. -/
def run (tables : List SymbolTable) : TableStep → List SymbolTable
  | add table s => tables.modify table fun T => (T.add s).1
  | copy table => tables ++ tables[table]?.toList

/-- The tables after some steps, which start with a single empty table. -/
def runAll (steps : List TableStep) : List SymbolTable := steps.foldl run [SymbolTable.empty]

variable {tables : List SymbolTable}

theorem consistent_run (h : ∀ T ∈ tables, T.Consistent) (step : TableStep) :
    ∀ T ∈ step.run tables, T.Consistent := by
  intro T hT
  cases step with
  | add table s =>
    obtain ⟨i, hi⟩ := List.mem_iff_getElem?.mp hT
    rw [run, List.getElem?_modify] at hi
    obtain ⟨before, hbefore, rfl⟩ := Option.map_eq_some_iff.mp hi
    have hconsistent := h before (List.mem_of_getElem? hbefore)
    split
    · exact hconsistent.add s
    · exact hconsistent
  | copy table =>
    rcases List.mem_append.mp hT with hT | hT
    · exact h T hT
    · exact h T (List.mem_of_getElem? (Option.mem_toList.mp hT))

theorem consistent_foldl_run (h : ∀ T ∈ tables, T.Consistent) (steps : List TableStep) :
    ∀ T ∈ steps.foldl run tables, T.Consistent := by
  induction steps generalizing tables with
  | nil => exact h
  | cons step steps ih => exact ih (consistent_run h step)

/-- In every history of additions and copies, the indices of each table agree; and a type with a key
that a table knows completes the entry of that key, of which it changes neither the outline, nor a
base or keyword that is set, nor the interfaces there are. -/
theorem consistent_runAll (steps : List TableStep) {T : SymbolTable} (hT : T ∈ runAll steps) :
    T.Consistent ∧ ∀ s first, T.get? s.key = some first →
      (T.add s).1.get? s.key = some (T.add s).2 ∧ first.Completes s (T.add s).2 := by
  have hconsistent : T.Consistent := by
    refine consistent_foldl_run (fun T hT => ?_) steps T hT
    rw [List.mem_singleton.mp hT]
    exact SymbolTable.consistent_empty
  exact ⟨hconsistent, fun s first hfirst => SymbolTable.completes_add hconsistent.keyed hfirst⟩

/-- A nested type, and a type of a namespace with the same key. The keyword moves to another type. -/
theorem consistent_runAll_same_key :
    ∃ T first s steps, steps = [
        .add 0 { name := "Text", namespaceName := "Acme", special := some .string },
        .copy 0,
        .add 1 { name := "Part", namespaceName := "Acme", containing := some "Acme.Data",
                 interfaces := [.key "I"] },
        .add 1 { name := "Word", special := some .string }]
      ∧ s = { name := "Part", namespaceName := "Acme.Data", base := some (.key "Root"),
              interfaces := [.key "J", .key "I"] }
      ∧ (runAll steps)[1]? = some T ∧ T.Consistent ∧ T.get? s.key = some first
      ∧ (T.add s).1.get? s.key = some (T.add s).2 ∧ first.Completes s (T.add s).2
      ∧ (T.add s).2.interfaces = [.key "I", .key "J"]
      ∧ (T.special? .string).map (·.name) = some "Word" := by
  let steps : List TableStep := [
    .add 0 { name := "Text", namespaceName := "Acme", special := some .string },
    .copy 0,
    .add 1 { name := "Part", namespaceName := "Acme", containing := some "Acme.Data",
             interfaces := [.key "I"] },
    .add 1 { name := "Word", special := some .string }]
  let s : TypeSymbol :=
    { name := "Part", namespaceName := "Acme.Data", base := some (.key "Root"),
      interfaces := [.key "J", .key "I"] }
  have hrun : (runAll steps)[1]?.bind (fun T => (T.get? s.key).map fun _ =>
      ((T.add s).2.interfaces == ["I", "J"].map .key, (T.special? .string).map (·.name)))
      = some (true, some "Word") := by decide +kernel
  obtain ⟨T, hT, hrun⟩ := Option.bind_eq_some_iff.mp hrun
  obtain ⟨first, hfirst, hrun⟩ := Option.map_eq_some_iff.mp hrun
  obtain ⟨hinterfaces, hword⟩ := Prod.mk.inj hrun
  obtain ⟨hconsistent, hadd⟩ := consistent_runAll steps (List.mem_of_getElem? hT)
  obtain ⟨hget, hcompletes⟩ := hadd s first hfirst
  exact ⟨T, first, s, steps, rfl, rfl, hT, hconsistent, hfirst, hget, hcompletes,
    TypeRef.eq_keys_of_beq hinterfaces, hword⟩

end TableStep

end NullableMarker
