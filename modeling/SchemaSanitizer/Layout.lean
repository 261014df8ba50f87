/-
SchemaSanitizer/Layout.lean

Field lookup by source key (`planning/struct_layout.cpp`,
`internal/planning/planned_name_matcher.cc`).  A layout maps the names of the
planned fields, and aliases of them, to field positions.  `findPlannedField`
takes a source key, which is not a planned name, and probes the layout with
one candidate after another: the key itself, an alias, the cleaned key, and
the names the sanitizer may have generated from it.

Cleaning sees all siblings, the lookup sees one key.  The main result compares
the two: `findPlannedField_iff` says for which keys the lookup goes back to
the field the key was cleaned to.  `findPlannedField_other_field` is a list of
three keys for which it does not.
-/
import SchemaSanitizer.FieldNames

namespace SchemaSanitizer

open List

/-! ### Layouts -/

/-- `add_unique`: an entry is added unless its key is there already. -/
def addUnique (target : List (Bytes × Nat)) (entry : Bytes × Nat) : List (Bytes × Nat) :=
  if target.any (·.1 == entry.1) then target else target ++ [entry]

/-- `StructLayout`: positions of the fields by name, and by alias.  The sorted
vectors and the dispatch tables of the source hold these entries, whose keys
are unique. -/
structure StructLayout where
  entries : List (Bytes × Nat)
  aliases : List (Bytes × Nat)
  deriving Repr

/-- The aliases of the field at one position: its name without a flattening
suffix, and the base of a versioned name, unless a field has that name. -/
def aliasEntries (entries : List (Bytes × Nat)) (field : Bytes × Nat) : List (Bytes × Nat) :=
  let unflattened := unflattenedOutputName field.1
  let versionBase := variantFamilyBase field.1
  (if unflattened ≠ [] ∧ entries.any (·.1 == unflattened) = false then [(unflattened, field.2)]
    else []) ++
  (if versionBase ≠ [] ∧ versionBase ≠ field.1 ∧ entries.any (·.1 == versionBase) = false then
    [(versionBase, field.2)] else [])

/-- `make_struct_layout`, for the names of the fields. -/
def makeStructLayout (names : List Bytes) : StructLayout :=
  let entries := names.zipIdx.foldl addUnique []
  { entries, aliases := (names.zipIdx.flatMap (aliasEntries entries)).foldl addUnique [] }

/-- `StructLayout::find`. -/
def StructLayout.find (layout : StructLayout) (key : Bytes) : Option Nat :=
  layout.entries.lookup key

/-- `StructLayout::find_alias`. -/
def StructLayout.findAlias (layout : StructLayout) (key : Bytes) : Option Nat :=
  layout.aliases.lookup key

/-! ### Planned fields -/

/-- `find_sanitized_base`. -/
def findSanitizedBase (layout : StructLayout) (policy : FieldNamePolicy) (key : Bytes) :
    Option Nat :=
  if policy = .preserve then none
  else
    let base := policyBase policy key
    if base = [] ∨ base = key then none else layout.find base

/-- `find_flattened_candidate`. -/
def findFlattenedCandidate (layout : StructLayout) (candidate : Bytes) : Option Nat :=
  (layout.find (candidate ++ flattenedSuffix)).or
    (layout.find (candidate ++ sanitizedFlattenedSuffix))

/-- `find_generated_candidates`. -/
def findGeneratedCandidates (layout : StructLayout) (policy : FieldNamePolicy) (key : Bytes) :
    Option Nat :=
  if policy = .preserve then findFlattenedCandidate layout key
  else
    let base := policyBase policy key
    if base = [] then none
    else
      (findFlattenedCandidate layout base).or
        (suffixLengths.findSome? fun len =>
          let suffixed := cleanWithSuffix key base len
          (layout.find suffixed).or (findFlattenedCandidate layout suffixed))

/-- `find_planned_field` for one policy. -/
def findPolicyField (layout : StructLayout) (policy : FieldNamePolicy) (key : Bytes) : Option Nat :=
  (((layout.find key).or (layout.findAlias key)).or (findSanitizedBase layout policy key)).or
    (findGeneratedCandidates layout policy key)

/-- `find_planned_field` for prepared options. -/
def findPlannedField (layout : StructLayout) (opts : NameOptions) (key : Bytes) : Option Nat :=
  (if key = opts.defaultKeyName then layout.find key else none).or
    (findPolicyField layout opts.fieldNamePolicy key)

/-- `matches_planned_field`. -/
def matchesPlannedField (layout : StructLayout) (opts : NameOptions) (key : Bytes) : Bool :=
  (findPlannedField layout opts key).isSome

/-! ### Lookup in a layout -/

theorem lookup_addUnique (target : List (Bytes × Nat)) (entry : Bytes × Nat) (key : Bytes) :
    (addUnique target entry).lookup key = (target.lookup key).or ([entry].lookup key) := by
  unfold addUnique
  split_ifs with h
  · -- the entry is not needed: its key is found in the target
    by_cases hk : key = entry.1
    · subst hk
      rcases e : target.lookup entry.1 with - | i
      · rw [lookup_eq_none_iff] at e
        obtain ⟨x, hx, heq⟩ := any_eq_true.mp h
        have := e x hx
        simp_all
      · rfl
    · have hother : [entry].lookup key = none := by
        rw [lookup_eq_none_iff]
        simpa using hk
      rw [hother, Option.or_none]
  · rw [lookup_append]

theorem lookup_foldl_addUnique (key : Bytes) : ∀ (l target : List (Bytes × Nat)),
    (l.foldl addUnique target).lookup key = (target.lookup key).or (l.lookup key)
  | [], target => by simp [Option.or_none]
  | entry :: l, target => by
    rw [foldl_cons, lookup_foldl_addUnique key l, lookup_addUnique, Option.or_assoc,
      ← lookup_append]
    rfl

theorem find_makeStructLayout (names : List Bytes) (key : Bytes) :
    (makeStructLayout names).find key = names.zipIdx.lookup key := by
  show (names.zipIdx.foldl addUnique []).lookup key = _
  rw [lookup_foldl_addUnique]
  rfl

theorem findAlias_makeStructLayout (names : List Bytes) (key : Bytes) :
    (makeStructLayout names).findAlias key =
      (names.zipIdx.flatMap (aliasEntries (makeStructLayout names).entries)).lookup key := by
  show (foldl addUnique [] _).lookup key = _
  rw [lookup_foldl_addUnique]
  rfl

theorem lookup_eq_some {key : Bytes} {i : Nat} : ∀ {l : List (Bytes × Nat)},
    l.lookup key = some i → (key, i) ∈ l
  | (k, j) :: l, h => by
    rw [lookup_cons] at h
    split at h
    · rename_i heq
      cases h
      rw [beq_iff_eq.mp heq]
      exact mem_cons_self
    · exact mem_cons_of_mem _ (lookup_eq_some h)

theorem lookup_eq_none {key : Bytes} {l : List (Bytes × Nat)} :
    l.lookup key = none ↔ ∀ i, (key, i) ∉ l := by
  rw [lookup_eq_none_iff]
  constructor
  · intro h i hi
    simpa using h _ hi
  · rintro h ⟨k, i⟩ hk
    simp only [bne_iff_ne, ne_eq]
    rintro rfl
    exact h i hk

section Probes

variable {names : List Bytes} {key : Bytes} {i : Nat}

theorem find_eq_some (h : (makeStructLayout names).find key = some i) : names[i]? = some key := by
  rw [find_makeStructLayout] at h
  exact mk_mem_zipIdx_iff_getElem?.mp (lookup_eq_some h)

theorem find_eq_none : (makeStructLayout names).find key = none ↔ key ∉ names := by
  rw [find_makeStructLayout, lookup_eq_none]
  simp only [mk_mem_zipIdx_iff_getElem?]
  rw [mem_iff_getElem?, not_exists]

theorem find_of_mem (h : key ∈ names) :
    ∃ i, (makeStructLayout names).find key = some i ∧ names[i]? = some key := by
  rcases e : (makeStructLayout names).find key with - | i
  · exact absurd h (find_eq_none.mp e)
  · exact ⟨i, rfl, find_eq_some e⟩

theorem find_of_nodup (hn : names.Nodup) (hi : names[i]? = some key) :
    (makeStructLayout names).find key = some i := by
  obtain ⟨j, hj, hkey⟩ := find_of_mem (mem_of_getElem? hi)
  rw [hj, (getElem?_inj (List.getElem?_eq_some_iff.mp hi).1 hn).mp (hi.trans hkey.symm)]

/-- A key that is an alias of a field name. -/
def AliasOf (key name : Bytes) : Prop :=
  key ≠ [] ∧ (unflattenedOutputName name = key ∨ (variantFamilyBase name = key ∧ key ≠ name))

instance (key name : Bytes) : Decidable (AliasOf key name) := inferInstanceAs (Decidable (_ ∧ _))

theorem entries_any (key : Bytes) :
    (makeStructLayout names).entries.any (·.1 == key) = false ↔ key ∉ names := by
  rw [← find_eq_none, StructLayout.find, lookup_eq_none_iff, any_eq_false]
  simp only [beq_iff_eq, bne_iff_ne, ne_eq]
  exact forall₂_congr fun entry _ => not_congr eq_comm

theorem mem_aliasEntries {name : Bytes} {j : Nat} :
    (key, i) ∈ aliasEntries (makeStructLayout names).entries (name, j) ↔
      i = j ∧ AliasOf key name ∧ key ∉ names := by
  simp only [aliasEntries, entries_any, mem_append, mem_ite_nil_right,
    mem_singleton, Prod.mk.injEq, AliasOf]
  constructor
  · rintro (⟨⟨hne, hnot⟩, rfl, rfl⟩ | ⟨⟨hne, hdiff, hnot⟩, rfl, rfl⟩)
    · exact ⟨rfl, ⟨hne, .inl rfl⟩, hnot⟩
    · exact ⟨rfl, ⟨hne, .inr ⟨rfl, hdiff⟩⟩, hnot⟩
  · rintro ⟨rfl, ⟨hne, rfl | ⟨rfl, hdiff⟩⟩, hnot⟩
    · exact .inl ⟨⟨hne, hnot⟩, rfl, rfl⟩
    · exact .inr ⟨⟨hne, hdiff, hnot⟩, rfl, rfl⟩

theorem mem_aliases :
    (key, i) ∈ names.zipIdx.flatMap (aliasEntries (makeStructLayout names).entries) ↔
    key ∉ names ∧ ∃ name, names[i]? = some name ∧ AliasOf key name := by
  simp only [mem_flatMap, Prod.exists, mk_mem_zipIdx_iff_getElem?, mem_aliasEntries]
  constructor
  · rintro ⟨name, j, hj, rfl, halias, hnot⟩
    exact ⟨hnot, name, hj, halias⟩
  · rintro ⟨hnot, name, hname, halias⟩
    exact ⟨name, i, hname, rfl, halias, hnot⟩

theorem findAlias_eq_some (h : (makeStructLayout names).findAlias key = some i) :
    ∃ name, names[i]? = some name ∧ AliasOf key name := by
  rw [findAlias_makeStructLayout] at h
  exact (mem_aliases.mp (lookup_eq_some h)).2

theorem findAlias_eq_none : (makeStructLayout names).findAlias key = none ↔
    (key ∉ names → ∀ name ∈ names, ¬ AliasOf key name) := by
  rw [findAlias_makeStructLayout, lookup_eq_none]
  simp only [mem_aliases]
  constructor
  · intro h hnot name hname halias
    obtain ⟨i, hi⟩ := mem_iff_getElem?.mp hname
    exact h i ⟨hnot, name, hi, halias⟩
  · rintro h i ⟨hnot, name, hi, halias⟩
    exact h hnot name (mem_of_getElem? hi) halias

theorem findFlattenedCandidate_eq_none {candidate : Bytes} :
    findFlattenedCandidate (makeStructLayout names) candidate = none ↔
      candidate ++ flattenedSuffix ∉ names ∧ candidate ++ sanitizedFlattenedSuffix ∉ names := by
  rw [findFlattenedCandidate, Option.or_eq_none_iff, find_eq_none, find_eq_none]

end Probes

/-! ### From a key back to its field -/

theorem findPlannedField_eq (layout : StructLayout) (opts : NameOptions) (key : Bytes) :
    findPlannedField layout opts key = findPolicyField layout opts.fieldNamePolicy key := by
  unfold findPlannedField findPolicyField
  split_ifs
  · -- the probe for the default key is made again
    rcases layout.find key <;> rfl
  · rfl

/-- A sibling has the same base. -/
def SharesBase (opts : NameOptions) (names : List Bytes) (d : Bytes) : Prop :=
  1 < (names.map (cleanFieldNameBase opts)).count (cleanFieldNameBase opts d)

instance (opts : NameOptions) (names : List Bytes) (d : Bytes) :
    Decidable (SharesBase opts names d) := inferInstanceAs (Decidable (_ < _))

theorem not_aliasOf_letters {b w : Bytes} (hw : ∀ c ∈ w, IsLetter c)
    (hflat : w ≠ sanitizedFlattenedSuffix) : ¬ AliasOf b (b ++ w) := by
  rintro ⟨hne, hun | ⟨hbase, hdiff⟩⟩
  · rcases unflattenedOutputName_eq hun hne with h | ⟨h, -⟩
    · rw [append_cancel_left h] at hw
      exact absurd (hw (byte '_') (by decide)) (by decide)
    · exact hflat (append_cancel_left h)
  · obtain ⟨-, rest, hrest⟩ := variantFamilyBase_ne (hbase.trans_ne hdiff)
    rw [hbase] at hrest
    rw [append_cancel_left hrest] at hw
    exact absurd (hw (byte '_') (by simp)) (by decide)

theorem CleanName.of_aliasOf {policy : FieldNamePolicy} {key name : Bytes}
    (hc : CleanName policy name) (h : AliasOf key name) : CleanName policy key := by
  obtain ⟨hne, hun | ⟨rfl, -⟩⟩ := h
  · exact hc.unflattened hun hne
  · exact hc.familyBase

section Routing

variable {policy : FieldNamePolicy} {out : List Bytes} {d name : Bytes} {i : Nat}

/-- A key that cleaning changes meets no field before its cleaned form. -/
theorem findPolicyField_dirty (hdirty : policyBase policy d ≠ d) (hi : out[i]? = some name)
    (hc : CleanName policy name) (h : findPolicyField (makeStructLayout out) policy d = some i) :
    d ∉ out ∧ (makeStructLayout out).findAlias d = none := by
  simp only [findPolicyField, Option.or_eq_some_iff, Option.or_eq_none_iff] at h
  rcases h with ((hfind | ⟨hfind, halias⟩) | ⟨⟨hfind, halias⟩, -⟩) | ⟨⟨⟨hfind, halias⟩, -⟩, -⟩
  · obtain rfl : d = name := Option.some.inj ((find_eq_some hfind).symm.trans hi)
    exact absurd (policyBase_of_clean hc) hdirty
  · obtain ⟨name', hname', ha⟩ := findAlias_eq_some halias
    obtain rfl : name' = name := Option.some.inj (hname'.symm.trans hi)
    exact absurd (policyBase_of_clean (hc.of_aliasOf ha)) hdirty
  · exact ⟨find_eq_none.mp hfind, halias⟩
  · exact ⟨find_eq_none.mp hfind, halias⟩

/-- A key whose field has letters after the cleaned key meets no field before
the generated candidates. -/
theorem findPolicyField_suffixed {w : Bytes} (hp : policy ≠ .preserve)
    (hi : out[i]? = some (policyBase policy d ++ w)) (hw : ∀ c ∈ w, IsLetter c) (hne : w ≠ [])
    (hflat : w ≠ sanitizedFlattenedSuffix)
    (h : findPolicyField (makeStructLayout out) policy d = some i) :
    d ∉ out ∧ (makeStructLayout out).findAlias d = none ∧ policyBase policy d ∉ out ∧
      policyBase policy d ++ flattenedSuffix ∉ out ∧
      policyBase policy d ++ sanitizedFlattenedSuffix ∉ out := by
  have hclean := policyBase_clean policy d
  have hbne := hclean.ne_nil hp
  -- none of the earlier probes can have found the field itself
  have hself : ∀ {key : Bytes}, (makeStructLayout out).find key = some i →
      key = policyBase policy d ++ w := fun hk =>
    Option.some.inj ((find_eq_some hk).symm.trans hi)
  have hbase : (makeStructLayout out).find (policyBase policy d) ≠ some i := fun hk =>
    hne (self_eq_append_right.mp (hself hk))
  have hkey : (makeStructLayout out).find d ≠ some i := by
    intro hk
    have hd := hself hk
    have hfix := policyBase_of_clean (hd ▸ hclean.append_letters hw : CleanName policy d)
    rw [hfix] at hbase
    exact hbase hk
  have halias : (makeStructLayout out).findAlias d ≠ some i := by
    intro hk
    obtain ⟨name', hname', ha⟩ := findAlias_eq_some hk
    obtain rfl := Option.some.inj (hname'.symm.trans hi)
    have hfix := policyBase_of_clean ((hclean.append_letters hw).of_aliasOf ha)
    rw [hfix] at ha
    exact not_aliasOf_letters hw hflat ha
  have hflattened : findFlattenedCandidate (makeStructLayout out) (policyBase policy d) ≠
    some i := by
    intro hk
    rcases Option.or_eq_some_iff.mp hk with hk | ⟨-, hk⟩
    · rw [← append_cancel_left (hself hk)] at hw
      exact absurd (hw (byte '_') (by decide)) (by decide)
    · exact hflat (append_cancel_left (hself hk)).symm
  simp only [findPolicyField, findGeneratedCandidates, findSanitizedBase, hp, hbne, if_false,
    false_or, Option.or_eq_some_iff, Option.or_eq_none_iff, hkey, halias, hflattened, false_or,
    and_false, ite_eq_left_iff, Option.ite_none_left_eq_some, hbase, find_eq_none,
    findFlattenedCandidate_eq_none] at h
  obtain ⟨⟨⟨hd, ha⟩, hb⟩, ⟨hf1, hf2⟩, -⟩ := h
  refine ⟨hd, ha, ?_, hf1, hf2⟩
  by_cases hfix : policyBase policy d = d
  · rw [hfix]
    exact hd
  · exact hb hfix

end Routing

section Siblings

variable {opts : NameOptions} {names : List Bytes} {d : Bytes}

theorem SharesBase.exists_other (hn : names.Nodup) (h : SharesBase opts names d) :
    ∃ e ∈ names, e ≠ d ∧ cleanFieldNameBase opts e = cleanFieldNameBase opts d := by
  by_contra hcon
  push Not at hcon
  have hle : (names.map (cleanFieldNameBase opts)).count (cleanFieldNameBase opts d) ≤
      names.count d := by
    rw [count, countP_map, count]
    refine countP_mono_left fun e he hbase => ?_
    by_contra hne
    exact hcon e he (by simpa using hne) (by simpa using hbase)
  have hone := nodup_iff_count_le_one.mp hn d
  rw [SharesBase] at h
  omega

theorem cleanFieldNameBase_eq_policy (hn : names.Nodup)
    (h : SharesBase opts names d ∨ d ≠ opts.defaultKeyName) :
    cleanFieldNameBase opts d = policyBase opts.fieldNamePolicy d := by
  by_cases hd : d = opts.defaultKeyName
  · -- a sibling was cleaned to the default key, which is then a clean name
    obtain ⟨e, -, hne, hbase⟩ := (h.resolve_right (not_not_intro hd)).exists_other hn
    have hclean : CleanName opts.fieldNamePolicy d := by
      have heq : policyBase opts.fieldNamePolicy e = d := by
        rwa [cleanFieldNameBase, if_neg (hd ▸ hne), cleanFieldNameBase, if_pos hd] at hbase
      rw [← heq]
      exact policyBase_clean _ e
    rw [cleanFieldNameBase, if_pos hd, policyBase_of_clean hclean]
  · rw [cleanFieldNameBase, if_neg hd]

theorem firstCandidate_of_shares (hn : names.Nodup) (h : SharesBase opts names d) :
    firstCandidate opts names d = policyBase opts.fieldNamePolicy d ++ hashSuffix d 6 := by
  rw [← cleanFieldNameBase_eq_policy hn (.inl h)]
  exact if_pos h

theorem firstCandidate_of_not_shares (h : ¬ SharesBase opts names d) :
    firstCandidate opts names d = cleanFieldNameBase opts d :=
  if_neg h

theorem firstCandidate_clean (hn : names.Nodup) (d : Bytes) :
    firstCandidate opts names d = d ∨
      CleanName opts.fieldNamePolicy (firstCandidate opts names d) := by
  by_cases hs : SharesBase opts names d
  · rw [firstCandidate_of_shares hn hs]
    exact .inr ((policyBase_clean _ d).append_letters (hashSuffix_letters d 6))
  · rw [firstCandidate_of_not_shares hs]
    by_cases hd : d = opts.defaultKeyName
    · exact .inl (if_pos hd)
    · rw [cleanFieldNameBase, if_neg hd]
      exact .inr (policyBase_clean _ d)

/-- When the keys of one object are found again: the first candidates are
pairwise different; no field has the base shared by several keys as its name,
with or without a flattening suffix; and a key that is not a field name itself
is no alias of a field. -/
structure Routable (opts : NameOptions) (names : List Bytes) : Prop where
  distinct : (names.map (firstCandidate opts names)).Nodup
  bases_free : ∀ d ∈ names, SharesBase opts names d → ∀ e ∈ names,
    firstCandidate opts names e ≠ cleanFieldNameBase opts d ∧
    firstCandidate opts names e ≠ cleanFieldNameBase opts d ++ flattenedSuffix ∧
    firstCandidate opts names e ≠ cleanFieldNameBase opts d ++ sanitizedFlattenedSuffix
  no_alias : ∀ d ∈ names, firstCandidate opts names d ≠ d → ∀ e ∈ names,
    ¬ AliasOf d (firstCandidate opts names e)

/-- No field has a key as its name that is not its own first candidate. -/
theorem Routable.key_free (hn : names.Nodup) (h : Routable opts names) (hd : d ∈ names)
    (hne : firstCandidate opts names d ≠ d) : d ∉ names.map (firstCandidate opts names) := by
  intro hmem
  obtain ⟨e, he, heq⟩ := mem_map.mp hmem
  have hclean : CleanName opts.fieldNamePolicy d := by
    rcases @firstCandidate_clean opts names hn e with hself | hc
    · rw [hself] at heq
      rw [heq] at hself
      exact absurd hself hne
    · rwa [heq] at hc
  by_cases hs : SharesBase opts names d
  · refine (h.bases_free d hd hs e he).1 ?_
    rw [heq, cleanFieldNameBase_eq_policy hn (.inl hs), policyBase_of_clean hclean]
  · rw [firstCandidate_of_not_shares hs, cleanFieldNameBase] at hne
    split_ifs at hne
    · exact hne rfl
    · exact hne (policyBase_of_clean hclean)

/-- Where the keys are routable, every key is found again. -/
theorem Routable.findPlannedField (hp : opts.fieldNamePolicy ≠ .preserve) (hn : names.Nodup)
    (h : Routable opts names) {i : Nat} (hi : names[i]? = some d) :
    findPlannedField (makeStructLayout (names.map (firstCandidate opts names))) opts d =
    some i := by
  have hd := mem_of_getElem? hi
  have hout : (names.map (firstCandidate opts names))[i]? = some (firstCandidate opts names d) := by
    rw [getElem?_map, hi]
    rfl
  have hfound := find_of_nodup h.distinct hout
  rw [findPlannedField_eq, findPolicyField]
  by_cases hself : firstCandidate opts names d = d
  · rw [hself] at hfound
    rw [hfound]
    rfl
  · have hnone := find_eq_none.mpr (h.key_free hn hd hself)
    have halias : (makeStructLayout (names.map (firstCandidate opts names))).findAlias d =
      none := by
      rw [findAlias_eq_none]
      intro _ name hname
      obtain ⟨e, he, rfl⟩ := mem_map.mp hname
      exact h.no_alias d hd hself e he
    have hbne := (policyBase_clean opts.fieldNamePolicy d).ne_nil hp
    rw [hnone, halias, Option.none_or, Option.none_or]
    by_cases hs : SharesBase opts names d
    · -- the cleaned key and its flattened forms are free, the suffixed one is next
      rw [firstCandidate_of_shares hn hs] at hfound
      obtain hfree := h.bases_free d hd hs
      rw [cleanFieldNameBase_eq_policy hn (.inl hs)] at hfree
      have hnot : ∀ {name}, (∀ e ∈ names, firstCandidate opts names e ≠ name) →
          name ∉ names.map (firstCandidate opts names) := by
        intro name hall hmem
        obtain ⟨e, he, heq⟩ := mem_map.mp hmem
        exact hall e he heq
      have hbase : findSanitizedBase (makeStructLayout (names.map (firstCandidate opts names)))
          opts.fieldNamePolicy d = none := by
        simp only [findSanitizedBase, hp, if_false]
        split_ifs
        · rfl
        · exact find_eq_none.mpr (hnot fun e he => (hfree e he).1)
      have hflat := findFlattenedCandidate_eq_none.mpr
        ⟨hnot fun e he => (hfree e he).2.1, hnot fun e he => (hfree e he).2.2⟩
      simp only [hbase, findGeneratedCandidates, hp, hbne, if_false, hflat, Option.none_or,
        suffixLengths, findSome?_cons, cleanWithSuffix, hfound, Option.some_or]
    · have hdk : d ≠ opts.defaultKeyName := by
        intro hdk
        exact hself (by rw [firstCandidate_of_not_shares hs, cleanFieldNameBase, if_pos hdk])
      rw [firstCandidate_of_not_shares hs, cleanFieldNameBase_eq_policy hn (.inr hdk)]
        at hfound hself
      simp only [findSanitizedBase, hp, hbne, hself, if_false, or_self, hfound, Option.some_or]

theorem hashSuffix_six_ne (d : Bytes) :
    hashSuffix d 6 ≠ [] ∧ hashSuffix d 6 ≠ sanitizedFlattenedSuffix := by
  have hlen := length_hashSuffix d 6
  constructor <;> intro h <;> rw [h] at hlen <;> cases hlen

/-- Keys that are found again are routable, if every key got its first
candidate. -/
theorem routable_of_found (hp : opts.fieldNamePolicy ≠ .preserve) (hn : names.Nodup)
    (hdistinct : (names.map (firstCandidate opts names)).Nodup)
    (hfound : ∀ i d, names[i]? = some d → findPlannedField
      (makeStructLayout (names.map (firstCandidate opts names))) opts d = some i) :
    Routable opts names := by
  have hout : ∀ {i : Nat} {d : Bytes}, names[i]? = some d →
      (names.map (firstCandidate opts names))[i]? = some (firstCandidate opts names d) := by
    intro i d hi
    rw [getElem?_map, hi]
    rfl
  have hpolicy : ∀ {i : Nat} {d : Bytes}, names[i]? = some d → findPolicyField
      (makeStructLayout (names.map (firstCandidate opts names))) opts.fieldNamePolicy d =
        some i := by
    intro i d hi
    rw [← findPlannedField_eq]
    exact hfound i d hi
  -- what the lookup of a key with a suffixed field tells
  have hsuffixed := fun {i : Nat} {d : Bytes} (hi : names[i]? = some d)
      (hs : SharesBase opts names d) =>
    findPolicyField_suffixed hp (firstCandidate_of_shares hn hs ▸ hout hi) (hashSuffix_letters d 6)
      (hashSuffix_six_ne d).1 (hashSuffix_six_ne d).2 (hpolicy hi)
  refine ⟨hdistinct, ?_, ?_⟩
  · intro d hd hs e he
    obtain ⟨i, hi⟩ := mem_iff_getElem?.mp hd
    obtain ⟨-, -, hb, hf1, hf2⟩ := hsuffixed hi hs
    have hmem : firstCandidate opts names e ∈ names.map (firstCandidate opts names) :=
      mem_map_of_mem he
    rw [cleanFieldNameBase_eq_policy hn (.inl hs)]
    exact ⟨fun h => hb (h ▸ hmem), fun h => hf1 (h ▸ hmem), fun h => hf2 (h ▸ hmem)⟩
  · intro d hd hself e he
    obtain ⟨i, hi⟩ := mem_iff_getElem?.mp hd
    have hprobes : d ∉ names.map (firstCandidate opts names) ∧
        (makeStructLayout (names.map (firstCandidate opts names))).findAlias d = none := by
      by_cases hs : SharesBase opts names d
      · exact ⟨(hsuffixed hi hs).1, (hsuffixed hi hs).2.1⟩
      · have hfirst := (firstCandidate_clean hn d).resolve_left hself
        have hdk : d ≠ opts.defaultKeyName := by
          intro hdk
          exact hself (by rw [firstCandidate_of_not_shares hs, cleanFieldNameBase, if_pos hdk])
        refine findPolicyField_dirty ?_ (hout hi) hfirst (hpolicy hi)
        rwa [firstCandidate_of_not_shares hs, cleanFieldNameBase_eq_policy hn (.inr hdk)] at hself
    exact findAlias_eq_none.mp hprobes.2 hprobes.1 _ (mem_map_of_mem he)

/-- A key that lost its first candidate is not found again, unless the hash
of the key spells the flattening suffix. -/
theorem DisplacedBy.not_found {out : List Bytes} {i k : Nat} (hp : opts.fieldNamePolicy ≠ .preserve)
    (hn : names.Nodup) (h : DisplacedBy opts names out i k) (hi : names[i]? = some d)
    (hfound : findPlannedField (makeStructLayout out) opts d = some i) :
    hashSuffix d 9 = sanitizedFlattenedSuffix := by
  obtain ⟨d', e, name, hik, hd', he, -, hk, hname, hdiff, w, rfl, hw, hlen, hflat⟩ := h
  obtain rfl : d' = d := Option.some.inj (hd'.symm.trans hi)
  have htaken := find_of_mem (mem_of_getElem? hk)
  -- the candidate itself leads to another field
  have hother : (makeStructLayout out).find (firstCandidate opts names d') ≠ some i := by
    intro hf
    exact hdiff (Option.some.inj (hname.symm.trans (find_eq_some hf)))
  by_contra hhash
  have hwflat : w ≠ sanitizedFlattenedSuffix := fun hw => hhash (hflat hw)
  have hwne : w ≠ [] := by
    rintro rfl
    cases hlen
  obtain ⟨j, hj, -⟩ := htaken
  rw [findPlannedField_eq] at hfound
  by_cases hdk : SharesBase opts names d' ∨ d' ≠ opts.defaultKeyName
  · have hpol := cleanFieldNameBase_eq_policy hn hdk
    rw [hpol] at hname
    obtain ⟨hd, ha, hb, hf1, hf2⟩ := findPolicyField_suffixed hp hname hw hwne hwflat hfound
    by_cases hs : SharesBase opts names d'
    · have hbne := (policyBase_clean opts.fieldNamePolicy d').ne_nil hp
      have hbase : findSanitizedBase (makeStructLayout out) opts.fieldNamePolicy d' = none := by
        simp only [findSanitizedBase, hp, if_false]
        split_ifs
        · rfl
        · exact find_eq_none.mpr hb
      rw [firstCandidate_of_shares hn hs] at hj hother
      simp only [findPolicyField, find_eq_none.mpr hd, ha, hbase, Option.none_or,
        findGeneratedCandidates, hp, hbne, if_false, findFlattenedCandidate_eq_none.mpr ⟨hf1, hf2⟩,
        suffixLengths, findSome?_cons, cleanWithSuffix, hj, Option.some_or] at hfound
      exact hother (hj.trans hfound)
    · rw [firstCandidate_of_not_shares hs, hpol] at hj
      rw [find_eq_none.mpr hb] at hj
      cases hj
  · push Not at hdk
    rw [firstCandidate_of_not_shares hdk.1, cleanFieldNameBase, if_pos hdk.2] at hj hother
    rw [findPolicyField, hj] at hfound
    exact hother (hj.trans hfound)

/-- **Routing of keys**: the lookup finds the field of every key if the keys
are routable.  The converse holds as well, unless the nine letters the hash
of some key yields are the word `flattened`: then a name generated for the key
may be taken for a flattened form of its base. -/
theorem findPlannedField_iff (hp : opts.fieldNamePolicy ≠ .preserve) (hn : names.Nodup) :
    (Routable opts names → ∀ (i : Nat) (d : Bytes), names[i]? = some d →
      findPlannedField (makeStructLayout (cleanSiblingFieldNames opts names)) opts d = some i) ∧
    ((∀ (i : Nat) (d : Bytes), names[i]? = some d →
      findPlannedField (makeStructLayout (cleanSiblingFieldNames opts names)) opts d = some i) →
      Routable opts names ∨ ∃ d ∈ names, hashSuffix d 9 = sanitizedFlattenedSuffix) := by
  rcases @cleanSiblingFieldNames_cases opts names hp with ⟨hnames, hdistinct⟩ | ⟨i, k, hdis⟩
  · rw [hnames]
    exact ⟨fun h i d hi => h.findPlannedField hp hn hi,
      fun hfound => .inl (routable_of_found hp hn hdistinct hfound)⟩
  · refine ⟨fun h => ?_, fun hfound => .inr ?_⟩
    · -- routable keys have different first candidates
      obtain ⟨d, e, name, hik, hd, he, hsame, -⟩ := hdis
      have hget : (names.map (firstCandidate opts names))[i]? =
          (names.map (firstCandidate opts names))[k]? := by
        simp [hd, he, hsame]
      have hlt : i < (names.map (firstCandidate opts names)).length := by
        rw [length_map]
        exact (List.getElem?_eq_some_iff.mp hd).1
      exact absurd ((getElem?_inj hlt h.distinct).mp hget) hik
    · have hd := hdis
      obtain ⟨d, -, -, -, hd, -⟩ := hd
      exact ⟨d, mem_of_getElem? hd, hdis.not_found hp hn hd (hfound i d hd)⟩

end Siblings

/-- The `lower_snake` policy with the usual default key. -/
def snakeOptions : NameOptions := ⟨.lowerSnake, bytes "default_key"⟩

/-- Two keys with one base are found by their suffixes. -/
theorem findPlannedField_iff_orders :
    findPlannedField (makeStructLayout (cleanSiblingFieldNames snakeOptions
      [bytes "Order ID", bytes "order-id", bytes "total"])) snakeOptions (bytes "order-id") =
        some 1 :=
  (findPlannedField_iff (by decide) (by decide)).1
    ⟨by decide +kernel, by decide +kernel, by decide +kernel⟩ 1 (bytes "order-id") rfl

/-- The keys `a` and `A` share a base, and so the name `a` is left to be an
alias of the third field: the lookup of the key `a` ends there. -/
theorem findPlannedField_other_field :
    [bytes "a", bytes "A", bytes "a_flattened"].Nodup ∧
      findPlannedField (makeStructLayout (cleanSiblingFieldNames snakeOptions
        [bytes "a", bytes "A", bytes "a_flattened"])) snakeOptions (bytes "a") = some 2 := by
  decide +kernel

end SchemaSanitizer
