/-
SchemaSanitizer/Finish.lean

What happens to a merged schema before it is published: the normalizer restores
the version suffixes, and one of the two policies sorts every level.  `finish` does
both to a type, `finishLevel` to the fields of a struct.

* `finish_struct`: on a level with the family invariant, finishing maps every field
  by `finishField` and, if asked, sorts.
* `finish_eq_self`: a canonical type that is already sorted, where sorting is asked
  for, is left alone.
* `finishField_le_iff`: finishing keeps the order of the names of one family.  The
  order of two versions is decided by their numbers, before the suffixes are
  reached, so a sorted family stays sorted when its suffixes are restored
  (`family_finishLevel`).
-/
import SchemaSanitizer.Families

namespace SchemaSanitizer

open List

/-! ### Finishing types and fields -/

variable {order : FieldOrderPolicy} {t : LogicalType} {f : LogicalField}
  {fields : List LogicalField}

/-- Normalize a type, and sort its levels if the policy asks for it. -/
def finish (order : FieldOrderPolicy) (t : LogicalType) : LogicalType :=
  match order with
  | .alphabetically => alphabetize (normalizeIntegerFloatType t)
  | .schemaContractFirst => normalizeIntegerFloatType t

/-- Finish the type of a field, then restore its suffix. -/
def finishField (order : FieldOrderPolicy) (f : LogicalField) : LogicalField :=
  canonicalizeVersionedNameForType (f.mapType (finish order))

/-- Finish the fields of a level, and sort them if the policy asks for it. -/
def finishLevel (order : FieldOrderPolicy) (fields : List LogicalField) : List LogicalField :=
  match order with
  | .alphabetically => sortFields (fields.map (finishField .alphabetically))
  | .schemaContractFirst => fields.map (finishField .schemaContractFirst)

@[simp] theorem finish_scalar (k : ScalarKind) : finish order (.scalar k) = .scalar k := by
  cases order <;> rfl

@[simp] theorem finish_list (v : Option LogicalType) :
    finish order (.list v) = .list (v.map (finish order)) := by
  cases order <;> cases v <;> rfl

theorem finish_normalize (t : LogicalType) :
    finish order (normalizeIntegerFloatType t) = finish order t := by
  cases order with
  | alphabetically => exact congrArg alphabetize (normalizeIntegerFloatType_idem t)
  | schemaContractFirst => exact normalizeIntegerFloatType_idem t

theorem applyOrder_normalize_struct (schema : LogicalSchema) :
    LogicalType.struct (applyOrder order (normalizeIntegerFloatSchema schema)).fields
      = finish order (.struct schema.fields) := by
  cases order with
  | alphabetically =>
    show LogicalType.struct (reorderSchemaFields _ none .alphabetically).fields = _
    rw [reorderSchemaFields_alphabetically]
    rfl
  | schemaContractFirst => rfl

theorem numericLike_finish (h : NumericLike (finish order t)) : NumericLike t := by
  cases order with
  | alphabetically => exact levelMap_normalize.numericLike (levelMap_alphabetize.numericLike h)
  | schemaContractFirst => exact levelMap_normalize.numericLike h

@[simp] theorem finishField_type (f : LogicalField) :
    (finishField order f).type = f.type.map (finish order) := canonicalize_type _

@[simp] theorem familyBaseName_finishField (f : LogicalField) :
    familyBaseName (finishField order f) = familyBaseName f := by
  rw [finishField, familyBaseName_canonicalize]
  rfl

theorem baseAndVersion_finishField (f : LogicalField) :
    baseAndVersion (finishField order f).name = baseAndVersion f.name :=
  baseAndVersion_canonicalize _

theorem finishField_name (h : parseVersionedFieldName f.name = none) :
    (finishField order f).name = f.name := by
  rw [finishField, canonicalize_of_unversioned (by exact h)]
  rfl

/-- **Finishing a level makes it canonical.** -/
theorem finishField_canonicalLevel (h : FamilyLevel fields) :
    CanonicalLevel (fields.map (finishField order)) := by
  have hmapped := 
    (h.mapType fun t (ht : NumericLike (finish order t)) => numericLike_finish ht).canonicalize
  rwa [map_map] at hmapped

theorem finishLevel_perm (h : FamilyLevel fields) :
    (finishLevel order fields).Perm (fields.map (finishField order)) := by
  have hcanonical : CanonicalLevel (fields.map (finishField order)) :=
    finishField_canonicalLevel h
  cases order with
  | alphabetically => exact sortFields_perm hcanonical.names.nodup
  | schemaContractFirst => exact List.Perm.refl _

theorem finishLevel_canonicalLevel (h : FamilyLevel fields) :
    CanonicalLevel (finishLevel order fields) :=
  (finishField_canonicalLevel h).perm (finishLevel_perm h).symm

/-- **Finishing a struct.** -/
theorem finish_struct (h : FamilyLevel fields) :
    finish order (.struct fields) = .struct (finishLevel order fields) := by
  cases order with
  | alphabetically =>
    show alphabetize (normalizeIntegerFloatType (.struct fields)) = _
    rw [normalizeIntegerFloatType_struct, normalizeIntegerFloatFields_families h,
      alphabetize_struct, map_map, map_map]
    refine congrArg (fun l => LogicalType.struct (sortFields l)) (map_congr_left ?_)
    intro f _
    show (canonicalizeVersionedNameForType (f.mapType normalizeIntegerFloatType)).mapType
      alphabetize = _
    rw [mapType_canonicalize levelMap_alphabetize.semantic]
    unfold finishField
    congr 1
    obtain ⟨n, v, b⟩ := f
    cases v <;> rfl
  | schemaContractFirst =>
    show normalizeIntegerFloatType (.struct fields) = _
    rw [normalizeIntegerFloatType_struct, normalizeIntegerFloatFields_families h, map_map]
    rfl

theorem finish_canonical (h : t.Forall FamilyNode) : (finish order t).Canonical := by
  cases order with
  | alphabetically => exact alphabetize_canonical (normalize_canonical h)
  | schemaContractFirst => exact normalize_canonical h

/-! ### Sorted types -/

/-- The sibling names of a struct are in alphabetical order. -/
def AlphabeticalNode : LogicalType → Prop
  | .struct fields => (fields.map FieldOf.name).Pairwise (· ≤ ·)
  | _ => True

instance : DecidablePred AlphabeticalNode
  | .scalar _ => inferInstanceAs (Decidable True)
  | .struct fields => inferInstanceAs (Decidable ((fields.map FieldOf.name).Pairwise (· ≤ ·)))
  | .list _ => inferInstanceAs (Decidable True)

/-- **A sorted type**: every level is in alphabetical order. -/
def LogicalType.Alphabetical (t : LogicalType) : Prop := t.Forall AlphabeticalNode

theorem alphabetize_alphabetical (t : LogicalType) : (alphabetize t).Alphabetical :=
  levelMap_alphabetize.all (P := fun _ => True) (fun _ => trivial) id (fun _ => trivial)
    (fun _ _ => sortFields_sorted _) fun _ _ => trivial

theorem LogicalType.Canonical.distinct (h : t.Canonical) : t.Forall DistinctNode := by
  refine LogicalType.Forall.mono (fun u hu => ?_) h
  cases u with
  | scalar | list => trivial
  | struct fields =>
    have hlevel : CanonicalLevel fields := hu
    exact hlevel.names.nodup

theorem alphabetize_eq_self (hdistinct : t.Forall DistinctNode) (h : t.Alphabetical) :
    alphabetize t = t := by
  refine levelMap_alphabetize.rule (P := fun t => DistinctNode t ∧ AlphabeticalNode t)
    (R := fun t u => u = t) (fun _ => rfl) (fun _ => rfl) (fun hu => by rw [hu])
    (fun {fields} hlevel ih => ?_) fun u hu => ⟨hdistinct u hu, h u hu⟩
  rw [map_mapType_eq_self ih, sortFields_eq_self hlevel.1 hlevel.2]

/-- **Finishing leaves a canonical type alone**, if it is sorted where that is asked for. -/
theorem finish_eq_self (hcanonical : t.Canonical)
    (horder : order = .alphabetically → t.Alphabetical) : finish order t = t := by
  cases order with
  | alphabetically =>
    show alphabetize (normalizeIntegerFloatType t) = t
    rw [hcanonical.normalize_eq]
    exact alphabetize_eq_self hcanonical.distinct (horder rfl)
  | schemaContractFirst => exact hcanonical.normalize_eq

theorem finish_alphabetical (t : LogicalType) (h : order = .alphabetically) :
    (finish order t).Alphabetical := by
  subst h
  exact alphabetize_alphabetical _

theorem finishField_eq_self (hcanonical : (LogicalType.struct fields).Canonical)
    (horder : order = .alphabetically → (LogicalType.struct fields).Alphabetical)
    (hf : f ∈ fields) :
    finishField order f = f := by
  obtain ⟨hlevel, hnested⟩ := forall_struct.mp hcanonical
  have hsame : f.mapType (finish order) = f := by
    refine mapType_eq_self fun t ht => finish_eq_self (hnested f hf t ht) ?_
    intro h
    exact (forall_struct.mp (horder h)).2 f hf t ht
  rw [finishField, hsame]
  exact CanonicalLevel.named hlevel f hf

/-! ### The order of names in one family -/

variable {names : List Bytes} {n : Bytes}

theorem digits_le_iff (s s' x x' : Bytes) : ∀ {u w : Bytes}, byte '_' ∉ u → byte '_' ∉ w → u ≠ w →
    (u ++ byte '_' :: s ≤ w ++ byte '_' :: x ↔ u ++ byte '_' :: s' ≤ w ++ byte '_' :: x')
  | [], [], _, _, hne => absurd rfl hne
  | [], b :: w, _, hw, _ => by
    have hb : byte '_' ≠ b := fun h => hw (h ▸ mem_cons_self)
    simp only [nil_append, cons_append, cons_le_cons_iff]
    simp [hb]
  | a :: u, [], hu, _, _ => by
    have ha : a ≠ byte '_' := fun h => hu (h ▸ mem_cons_self)
    simp only [nil_append, cons_append, cons_le_cons_iff]
    simp [ha]
  | a :: u, b :: w, hu, hw, hne => by
    simp only [cons_append, cons_le_cons_iff]
    by_cases hab : a = b
    · subst hab
      have huw : u ≠ w := fun h => hne (h ▸ rfl)
      have ih := digits_le_iff s s' x x' (u := u) (w := w)
        (fun h => hu (mem_cons_of_mem a h)) (fun h => hw (mem_cons_of_mem a h)) huw
      simp [ih]
    · simp [hab]

theorem makeVersionedFieldName_le_iff (base s s' x x' : Bytes) {v w : Nat} (hvw : v ≠ w) :
    makeVersionedFieldName base v s ≤ makeVersionedFieldName base w x ↔
      makeVersionedFieldName base v s' ≤ makeVersionedFieldName base w x' := by
  have hne : decimal v ≠ decimal w := fun h => hvw (decimal_injective h)
  simp only [makeVersionedFieldName, append_assoc, append_le_append_left_iff,
    singleton_append]
  exact digits_le_iff s s' x x' (decimal_no_underscore v) (decimal_no_underscore w) hne

theorem base_le_make (base s : Bytes) (v : Nat) :
    base ≤ makeVersionedFieldName base v s ∧ ¬ makeVersionedFieldName base v s ≤ base := by
  have hle : base ++ [] ≤ base ++ (marker ++ decimal v ++ [byte '_'] ++ s) := by
    rw [append_le_append_left_iff]
    simp
  have hnot : ¬ base ++ (marker ++ decimal v ++ [byte '_'] ++ s) ≤ base ++ [] := by
    rw [append_le_append_left_iff]
    simp [marker]
  constructor
  · simpa [makeVersionedFieldName] using hle
  · simpa [makeVersionedFieldName] using hnot

theorem NameFamilies.shape (h : NameFamilies names) (hn : n ∈ names) :
    (baseAndVersion n = none ∧ n = variantFamilyBase n) ∨
      ∃ v s, baseAndVersion n = some (variantFamilyBase n, v) ∧
        n = makeVersionedFieldName (variantFamilyBase n) v s := by
  rcases hp : parseVersionedFieldName n with - | p
  · exact .inl ⟨by rw [baseAndVersion, hp]; rfl, (variantFamilyBase_of_none hp).symm⟩
  · obtain ⟨t, ht⟩ := h.printed n hn p hp
    refine .inr ⟨p.version, variantSemanticType t, ?_, ?_⟩
    · rw [baseAndVersion, hp, variantFamilyBase_of_parse hp]
      rfl
    · rw [variantFamilyBase_of_parse hp]
      exact ht

/-- Two names of one family and number: both are the base, or they differ in the
suffix only. -/
theorem NameFamilies.shape_pair {names' : List Bytes} (h : NameFamilies names)
    (h' : NameFamilies names') {n' : Bytes} (hn : n ∈ names) (hn' : n' ∈ names')
    (hfam : variantFamilyBase n' = variantFamilyBase n)
    (hversion : baseAndVersion n' = baseAndVersion n) :
    (n = variantFamilyBase n ∧ n' = variantFamilyBase n) ∨
      ∃ v s s', baseAndVersion n = some (variantFamilyBase n, v) ∧
        n = makeVersionedFieldName (variantFamilyBase n) v s ∧
        n' = makeVersionedFieldName (variantFamilyBase n) v s' := by
  rcases h.shape hn with ⟨hnone, hbase⟩ | ⟨v, s, hv, hmake⟩
  · rcases h'.shape hn' with ⟨-, hbase'⟩ | ⟨_, _, hv', -⟩
    · exact .inl ⟨hbase, hbase'.trans hfam⟩
    · rw [hversion, hnone] at hv'
      cases hv'
  · rcases h'.shape hn' with ⟨hnone', -⟩ | ⟨v', s', hv', hmake'⟩
    · rw [hversion, hv] at hnone'
      cases hnone'
    · rw [hversion, hv, hfam] at hv'
      have hvv : v = v' := (Prod.mk.inj (Option.some.inj hv')).2
      refine .inr ⟨v, s, s', hv, hmake, ?_⟩
      rw [hfam, ← hvv] at hmake'
      exact hmake'

/-- **Renaming keeps the order of a family**: names with the same bases and numbers
compare alike. -/
theorem family_le_iff {names' : List Bytes} (h : NameFamilies names) (h' : NameFamilies names')
    {m n' m' : Bytes} (hn : n ∈ names) (hm : m ∈ names) (hn' : n' ∈ names') (hm' : m' ∈ names')
    (hfam : variantFamilyBase n = variantFamilyBase m)
    (hnfam : variantFamilyBase n' = variantFamilyBase n)
    (hmfam : variantFamilyBase m' = variantFamilyBase m)
    (hnv : baseAndVersion n' = baseAndVersion n) (hmv : baseAndVersion m' = baseAndVersion m) :
    n' ≤ m' ↔ n ≤ m := by
  have hnpair := h.shape_pair h' hn hn' hnfam hnv
  have hmpair := h.shape_pair h' hm hm' hmfam hmv
  rw [← hfam] at hmpair
  rcases hnpair with ⟨hbase, hbase'⟩ | ⟨v, s, s', hv, hmake, hmake'⟩
  · -- the base stands before all versions
    rcases hmpair with ⟨hmbase, hmbase'⟩ | ⟨w, x, x', -, hmmake, hmmake'⟩
    · rw [hbase', hmbase', hbase.trans hmbase.symm]
      exact ⟨fun _ => List.le_refl m, fun _ => List.le_refl _⟩
    · rw [hbase', hmmake', hmmake]
      nth_rewrite 3 [hbase]
      exact ⟨fun _ => (base_le_make _ _ _).1, fun _ => (base_le_make _ _ _).1⟩
  · rcases hmpair with ⟨hmbase, hmbase'⟩ | ⟨w, x, x', hw, hmmake, hmmake'⟩
    · rw [hmbase', hmake', hmbase]
      nth_rewrite 3 [hmake]
      exact ⟨fun hle => absurd hle (base_le_make _ _ _).2,
        fun hle => absurd hle (base_le_make _ _ _).2⟩
    · by_cases hvw : v = w
      · -- one number, so one name on both sides
        subst hvw
        have hnm : n = m := h.versions n hn m hm _ hv hw
        have hnm' : n' = m' := h'.versions n' hn' m' hm' _ (hnv.trans hv) (hmv.trans hw)
        rw [hnm, hnm']
        exact ⟨fun _ => List.le_refl _, fun _ => List.le_refl _⟩
      · rw [hmake', hmmake', hmmake]
        nth_rewrite 3 [hmake]
        exact makeVersionedFieldName_le_iff _ _ _ _ _ hvw

/-- **Finishing keeps the order of the names of one family.** -/
theorem finishField_le_iff (h : FamilyLevel fields) {g : LogicalField} (hf : f ∈ fields)
    (hg : g ∈ fields) (hfam : familyBaseName f = familyBaseName g) :
    (finishField order f).name ≤ (finishField order g).name ↔ f.name ≤ g.name := by
  have hfinished : CanonicalLevel (fields.map (finishField order)) := finishField_canonicalLevel h
  have hmem : ∀ {x : LogicalField}, x ∈ fields →
      (finishField order x).name ∈ (fields.map (finishField order)).map FieldOf.name :=
    fun hx => mem_map_of_mem (mem_map_of_mem hx)
  exact family_le_iff h.names hfinished.names (mem_map_of_mem hf) (mem_map_of_mem hg)
    (hmem hf) (hmem hg) hfam (familyBaseName_finishField f) (familyBaseName_finishField g)
    (baseAndVersion_finishField f) (baseAndVersion_finishField g)

theorem family_map_finishField (base : Bytes) (fields : List LogicalField) :
    family base (fields.map (finishField order)) =
    (family base fields).map (finishField order) := by
  rw [family, family, filter_map]
  congr 2
  funext f
  show decide (familyBaseName (finishField order f) = base) = _
  rw [familyBaseName_finishField]

theorem family_finishLevel_perm (h : FamilyLevel fields) (base : Bytes) :
    (family base (finishLevel order fields)).Perm
      ((family base fields).map (finishField order)) := by
  rw [← family_map_finishField]
  exact (finishLevel_perm h).filter _

/-- **A family of a finished level**: its members are finished in place, if they were
in order where sorting is asked for. -/
theorem family_finishLevel (h : FamilyLevel fields) {base : Bytes}
    (hsorted : order = .alphabetically → ((family base fields).map FieldOf.name).Pairwise (· ≤ ·)) :
    family base (finishLevel order fields) = (family base fields).map (finishField order) := by
  cases order with
  | schemaContractFirst => exact family_map_finishField base fields
  | alphabetically =>
    -- two sorted lists of the same fields
    have hleft : (family base (finishLevel .alphabetically fields)).Pairwise
        fun f g => f.name ≤ g.name :=
      (pairwise_map.mp (sortFields_sorted _)).filter _
    have hright : ((family base fields).map (finishField .alphabetically)).Pairwise
        fun f g => f.name ≤ g.name := by
      refine pairwise_map.mpr ?_
      refine (pairwise_map.mp (hsorted rfl)).imp_of_mem ?_
      intro f g hf hg hle
      obtain ⟨hf, hffam⟩ := mem_family.mp hf
      obtain ⟨hg, hgfam⟩ := mem_family.mp hg
      exact (finishField_le_iff h hf hg (hffam.trans hgfam.symm)).mpr hle
    have hlevel : CanonicalLevel (finishLevel .alphabetically fields) :=
      finishLevel_canonicalLevel h
    refine List.Perm.eq_of_pairwise ?_ hleft hright (family_finishLevel_perm h base)
    intro f g hf hg hfg hgf
    have hg' := (family_finishLevel_perm h base).mem_iff.mpr hg
    exact hlevel.toFamilyLevel.eq_of_name (mem_family.mp hf).1 (mem_family.mp hg').1
      (List.le_antisymm hfg hgf)

end SchemaSanitizer
