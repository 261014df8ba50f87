/-
SchemaSanitizer/Representation.lean

Which canonical column represents an inferred field?  The normalizer loses this: a
numeric column can be dropped in favour of another one of its family, and a column
that echoes an emitted one is skipped.  `publishedColumns` is the normalizer of one level
once more, but every column carries the inferred fields it stands for.  Forgetting
them gives back the published level (`publishedColumns_erase`).

`KeepsColumns` says that two fields share a column only inside one family and under their
own suffixes, and that no field is without a column; `ColumnsApart` is the condition on
the inferred fields for that (`keepsColumns_iff`).  It excludes more than one would expect:
the parser of versioned names accepts any word as a suffix, so `a_v2_foo` and `a_v2_bar`,
both integers, become one column (`merge_joins_columns`).
-/
import SchemaSanitizer.Lib.Grouping
import SchemaSanitizer.Distinct

namespace SchemaSanitizer

open Lib List

/-! ### The normalizer with sources -/

/-- A column together with the inferred fields it represents. -/
structure Traced where
  column : LogicalField
  sources : List LogicalField
  deriving DecidableEq

/-- A field with its nested types normalized and its suffix restored. -/
def canonicalField (f : LogicalField) : LogicalField := finishField .schemaContractFirst f

/-- What the numeric pass makes of the field at a position: the column a family keeps stands
for all its numeric columns. -/
def tracedSurvivor (fields : List LogicalField) (p : LogicalField × Nat) : Option Traced :=
  (keepNumeric (normalizeNested fields) p.2 (normalizeNestedField p.1)).map fun g =>
    { column := canonicalizeVersionedNameForType g
      sources :=
        if isScalarNumericType p.1 = true ∧
            (numericFamilyPlan (normalizeNested fields) (familyBaseName p.1)).keepPosition
              = some p.2 then
          fields.filter fun f => familyBaseName f == familyBaseName p.1 && isScalarNumericType f
        else [p.1] }

/-- The numeric survivors of a level. -/
def tracedSurvivors (fields : List LogicalField) : List Traced :=
  fields.zipIdx.filterMap (tracedSurvivor fields)

/-- The emitted columns of a level: a skipped column adds its sources to the one it echoes. -/
def tracedColumns (fields : List LogicalField) : List Traced :=
  (group (fun t => t.column.name) (fun t => t.column.type) (tracedSurvivors fields)).map fun g =>
    ⟨g.1.column, g.2.flatMap Traced.sources⟩

/-- The columns of a level as they are published. -/
def publishedColumns (order : FieldOrderPolicy) (fields : List LogicalField) : List Traced :=
  match order with
  | .schemaContractFirst => tracedColumns fields
  | .alphabetically =>
    (sortNames ((tracedColumns fields).map fun t => t.column.name)).filterMap fun name =>
      ((tracedColumns fields).find? fun t => t.column.name == name).map fun t =>
        { t with column := t.column.mapType alphabetize }

/-! ### Forgetting the sources -/

variable {t : Traced} {f : LogicalField}

theorem normalizeNestedField_eq (f : LogicalField) :
    normalizeNestedField f = f.mapType normalizeIntegerFloatType := by
  obtain ⟨n, v, b⟩ := f
  rw [normalizeNestedField, normalizeValue_eq]
  rfl

/-- Without their sources the traced survivors are the normalizer's. -/
theorem tracedSurvivors_erase (fields : List LogicalField) :
    (tracedSurvivors fields).map Traced.column
      = (survivors (normalizeNested fields)).map canonicalizeVersionedNameForType := by
  have hzip : (normalizeNested fields).zipIdx
      = fields.zipIdx.map fun p => (normalizeNestedField p.1, p.2) := by
    have hmap : normalizeNested fields = fields.map normalizeNestedField := by
      rw [normalizeNested_eq]
      exact map_congr_left fun f _ => (normalizeNestedField_eq f).symm
    rw [hmap, zipIdx_map]
    rfl
  rw [survivors, hzip, filterMap_map, map_filterMap, tracedSurvivors,
    map_filterMap]
  congr 1
  funext p
  rw [tracedSurvivor, Option.map_map]
  rfl

theorem newestNamed_heads (groups : List (Traced × List Traced)) (name : Bytes) :
    newestNamed (groups.map fun g => g.1.column) name
      = (newestOf (fun t : Traced => t.column.name) name groups).map fun p => p.2.1.column := by
  rw [newestNamed, lastMatch?_map, newestOf, map_lastMatch?]
  congr 1
  funext i g
  split
  · rfl
  · rfl

theorem attach_erase (groups : List (Traced × List Traced))
    (ht : t.column = canonicalizeVersionedNameForType f) :
    (attach (fun t => t.column.name) (fun t => t.column.type) groups t).map (fun g => g.1.column)
      = emitField (groups.map fun g => g.1.column) f := by
  rcases attach_cases (fun t : Traced => t.column.name) (fun t => t.column.type) groups t with
    ⟨i, g, hg, hjoin, hattach⟩ | ⟨hattach, hno⟩
  · have hecho : Echoes (groups.map fun g => g.1.column) (canonicalizeVersionedNameForType f) := by
      refine ⟨g.1.column, ?_, ?_, ?_⟩
      · rw [newestNamed_heads, ← ht, hg]
        rfl
      · rw [← ht]
        exact hjoin.2
      · rw [← ht]
        exact hjoin.1
    obtain ⟨pre, post, hsplit, -, hset⟩ := split_at (newestOf_eq_some_iff.mp hg).1
    rw [emitField_of_echoes hecho, hattach, hset, hsplit, map_append, map_append]
    rfl
  · have hecho : ¬ Echoes (groups.map fun g => g.1.column)
        (canonicalizeVersionedNameForType f) := by
      rintro ⟨h, hnewest, htyped, htype⟩
      rw [newestNamed_heads, ← ht] at hnewest
      obtain ⟨⟨i, g⟩, hg, rfl⟩ := Option.map_eq_some_iff.mp hnewest
      rw [← ht] at htyped htype
      exact hno i g hg ⟨htype, htyped⟩
    rw [emitField_of_not_echoes hecho, hattach, map_append, ← ht]
    rfl

theorem group_erase {l : List Traced} {fs : List LogicalField}
    (h : l.map Traced.column = fs.map canonicalizeVersionedNameForType) :
    ∀ groups : List (Traced × List Traced),
    (l.foldl (attach (fun t => t.column.name) (fun t => t.column.type)) groups).map
        (fun g => g.1.column)
      = fs.foldl emitField (groups.map fun g => g.1.column) := by
  induction l generalizing fs with
  | nil =>
    intro groups
    obtain rfl : fs = [] := by simpa using h.symm
    rfl
  | cons t l ih =>
    intro groups
    rcases fs with - | ⟨f, fs⟩
    · cases h
    · rw [map_cons, map_cons] at h
      obtain ⟨hhead, htail⟩ := cons.inj h
      rw [foldl_cons, foldl_cons, ih htail, attach_erase groups hhead]

theorem tracedColumns_erase (fields : List LogicalField) :
    (tracedColumns fields).map Traced.column = normalizeIntegerFloatFields fields := by
  rw [tracedColumns, map_map]
  exact group_erase (tracedSurvivors_erase fields) []

/-- **The published columns are the published level.** -/
theorem publishedColumns_erase (order : FieldOrderPolicy) (fields : List LogicalField) :
    LogicalType.struct ((publishedColumns order fields).map Traced.column)
      = finish order (.struct fields) := by
  cases order with
  | schemaContractFirst =>
    show LogicalType.struct ((tracedColumns fields).map Traced.column) = _
    rw [tracedColumns_erase]
    rfl
  | alphabetically =>
    show _ = alphabetize (.struct (normalizeIntegerFloatFields fields))
    rw [alphabetize_struct, ← tracedColumns_erase, publishedColumns, map_filterMap,
      sortFields, map_map, map_map]
    refine congrArg LogicalType.struct ?_
    congr 1
    funext name
    rw [fieldNamed, find?_map, Option.map_map]
    rfl

/-! ### Pooled columns -/

variable {g : LogicalField} {fields : List LogicalField} {i : Nat} {order : FieldOrderPolicy}

/-- A numeric field whose family holds a float: the family keeps one column for all of
these. -/
def Pooled (fields : List LogicalField) (f : LogicalField) : Prop :=
  isScalarNumericType f = true ∧
    ∃ g ∈ fields, familyBaseName g = familyBaseName f ∧ isScalarFloatType g = true

instance (fields : List LogicalField) : DecidablePred (Pooled fields) := fun f =>
  inferInstanceAs (Decidable (isScalarNumericType f = true ∧
    ∃ g ∈ fields, familyBaseName g = familyBaseName f ∧ isScalarFloatType g = true))

/-- The pool of a field. -/
def pool (fields : List LogicalField) (f : LogicalField) : List LogicalField :=
  fields.filter fun g => familyBaseName g == familyBaseName f && isScalarNumericType g

theorem mem_pool :
    g ∈ pool fields f ↔
      g ∈ fields ∧ familyBaseName g = familyBaseName f ∧ isScalarNumericType g = true := by
  simp [pool]

theorem normalize_scalar_iff {t : LogicalType} {k : ScalarKind} :
    normalizeIntegerFloatType t = .scalar k ↔ t = .scalar k := by
  constructor
  · intro h
    exact pinned_scalar k t (by rw [← levelMap_normalize.semantic t, h])
  · rintro rfl
    rfl

theorem mapType_scalar_iff {k : ScalarKind} :
    (f.mapType normalizeIntegerFloatType).type = some (.scalar k) ↔
      f.type = some (.scalar k) := by
  rw [mapType_type, Option.map_eq_some_iff]
  constructor
  · rintro ⟨t, ht, heq⟩
    rw [ht, normalize_scalar_iff.mp heq]
  · intro h
    exact ⟨_, h, rfl⟩

theorem numeric_nested (f : LogicalField) :
    isScalarNumericType (f.mapType normalizeIntegerFloatType) = isScalarNumericType f := by
  rw [Bool.eq_iff_iff, isScalarNumericType_iff, isScalarNumericType_iff, mapType_scalar_iff,
    mapType_scalar_iff]

theorem float_nested (f : LogicalField) :
    isScalarFloatType (f.mapType normalizeIntegerFloatType) = isScalarFloatType f := by
  rw [Bool.eq_iff_iff, isScalarFloatType_iff, isScalarFloatType_iff, mapType_scalar_iff]

theorem keepPosition_nested_eq_none_iff :
    numericPosition (normalizeNested fields) f = none ↔
      ∀ g ∈ fields, familyBaseName g = familyBaseName f → isScalarFloatType g = false := by
  rw [keepPosition_eq_none_iff, normalizeNested_eq]
  simp only [mem_map, forall_exists_index, and_imp, forall_apply_eq_imp_iff₂, float_nested]
  rfl

theorem Pooled.keepPosition (h : Pooled fields f) :
    ∃ keep g, numericPosition (normalizeNested fields) f = some keep ∧ fields[keep]? = some g ∧
      Pooled fields g ∧ familyBaseName g = familyBaseName f := by
  obtain ⟨g, hg, hfam, hfloat⟩ := h.2
  have hsome : numericPosition (normalizeNested fields) f ≠ none := by
    intro hnone
    rw [keepPosition_nested_eq_none_iff.mp hnone g hg hfam] at hfloat
    cases hfloat
  obtain ⟨keep, hkeep⟩ := Option.ne_none_iff_exists'.mp hsome
  obtain ⟨⟨k, hk, hkfam, hknum⟩, -⟩ := keepPosition_spec hkeep
  rw [normalizeNested_eq, getElem?_map] at hk
  obtain ⟨k₀, hk₀, rfl⟩ := Option.map_eq_some_iff.mp hk
  have hkfam : familyBaseName k₀ = familyBaseName f := hkfam
  rw [numeric_nested] at hknum
  exact ⟨keep, k₀, hkeep, hk₀, ⟨hknum, g, hg, hfam.trans hkfam.symm, hfloat⟩, hkfam⟩

theorem tracedSurvivor_alone (h : ¬ Pooled fields f) :
    tracedSurvivor fields (f, i) = some ⟨canonicalField f, [f]⟩ := by
  -- either the family has no float, or the field is not numeric
  have hcase : numericPosition (normalizeNested fields) f = none ∨
      isScalarNumericType f = false := by
    by_cases hnum : isScalarNumericType f = true
    · refine .inl (keepPosition_nested_eq_none_iff.mpr ?_)
      intro g hg hfam
      by_contra hfloat
      rw [Bool.not_eq_false] at hfloat
      exact h ⟨hnum, g, hg, hfam, hfloat⟩
    · exact .inr (by simpa using hnum)
  have hkeep : keepNumeric (normalizeNested fields) i (normalizeNestedField f)
      = some (f.mapType normalizeIntegerFloatType) := by
    rw [normalizeNestedField_eq, keepNumeric, numeric_nested]
    rcases hcase with hnone | hnum
    · rw [show (numericFamilyPlan _ (familyBaseName (f.mapType _))).keepPosition = none from hnone]
    · rw [hnum]
      split <;> simp
  rw [tracedSurvivor, hkeep, if_neg]
  · rfl
  · rintro ⟨hnum, hposition⟩
    rcases hcase with hnone | hfalse
    · cases hnone.symm.trans hposition
    · rw [hfalse] at hnum
      cases hnum

/-- A survivor stands for itself, or for the numeric variants of its family. -/
theorem tracedSurvivor_cases (hf : fields[i]? = some f)
    (h : tracedSurvivor fields (f, i) = some t) :
    (¬ Pooled fields f ∧ t = ⟨canonicalField f, [f]⟩) ∨
      (Pooled fields f ∧ numericPosition (normalizeNested fields) f = some i ∧
        t.sources = pool fields f ∧ t.column.name = (canonicalField f).name ∧
        (parseVersionedFieldName f.name ≠ none → t.column = canonicalField f)) := by
  by_cases hpooled : Pooled fields f
  · refine .inr ⟨hpooled, ?_⟩
    obtain ⟨g, hg, rfl⟩ := Option.map_eq_some_iff.mp h
    rw [normalizeNestedField_eq] at hg
    obtain ⟨keep, -, hkeep, -⟩ := hpooled.keepPosition
    have hnum : isScalarNumericType (f.mapType normalizeIntegerFloatType) = true := by
      rw [numeric_nested]
      exact hpooled.1
    have hi : numericPosition (normalizeNested fields) f = some i := by
      rcases keepNumeric_numeric hg hnum with ⟨hnone, -⟩ | hsome
      · cases hkeep.symm.trans hnone
      · exact hsome
    refine ⟨hi, if_pos ⟨hpooled.1, hi⟩, ?_⟩
    rcases keepNumeric_cases hg with ⟨rfl, -⟩ | ⟨hint, rfl, -⟩
    · exact ⟨rfl, fun _ => rfl⟩
    · -- a promoted integer is unversioned, and no such name changes
      have hget : (normalizeNested fields)[i]? = some (f.mapType normalizeIntegerFloatType) := by
        rw [normalizeNested_eq, getElem?_map, hf]
        rfl
      have hun : parseVersionedFieldName (f.mapType normalizeIntegerFloatType).name = none :=
        promoted_unversioned hget hint hi
      refine ⟨?_, fun hversioned => absurd hun hversioned⟩
      show (canonicalizeVersionedNameForType _).name = (finishField .schemaContractFirst f).name
      rw [canonicalize_of_unversioned (by exact hun), finishField_name (by exact hun)]
      rfl
  · rw [tracedSurvivor_alone hpooled] at h
    exact .inl ⟨hpooled, (Option.some.inj h).symm⟩

theorem mem_tracedSurvivors :
    t ∈ tracedSurvivors fields ↔
      ∃ i f, fields[i]? = some f ∧ tracedSurvivor fields (f, i) = some t := by
  simp only [tracedSurvivors, mem_filterMap, Prod.exists]
  constructor
  · rintro ⟨f, i, hp, ht⟩
    exact ⟨i, f, mk_mem_zipIdx_iff_getElem?.mp hp, ht⟩
  · rintro ⟨i, f, hf, ht⟩
    exact ⟨f, i, mk_mem_zipIdx_iff_getElem?.mpr hf, ht⟩

section Level

variable {fields : List LogicalField}

/-- The pool of a field is represented. -/
theorem Pooled.survivor (h : Pooled fields f) :
    ∃ t ∈ tracedSurvivors fields, t.sources = pool fields f := by
  obtain ⟨keep, g, hkeep, hg, hpooled, hfam⟩ := h.keepPosition
  have hnum : isScalarNumericType (normalizeNestedField g) = true := by
    rw [normalizeNestedField_eq, numeric_nested]
    exact hpooled.1
  have hposition : (numericFamilyPlan (normalizeNested fields)
      (familyBaseName (normalizeNestedField g))).keepPosition = some keep := by
    rw [normalizeNestedField_eq, show familyBaseName (g.mapType normalizeIntegerFloatType)
      = familyBaseName f from hfam]
    exact hkeep
  obtain ⟨c, hc⟩ : ∃ c, keepNumeric (normalizeNested fields) keep (normalizeNestedField g)
      = some c := by
    unfold keepNumeric
    rw [hposition]
    dsimp only
    rw [if_pos hnum, if_neg (by simp)]
    split
    · exact ⟨_, rfl⟩
    · exact ⟨_, rfl⟩
  obtain ⟨t, ht⟩ : ∃ t, tracedSurvivor fields (g, keep) = some t := by
    rw [tracedSurvivor, hc]
    exact ⟨_, rfl⟩
  refine ⟨t, mem_tracedSurvivors.mpr ⟨keep, g, hg, ht⟩, ?_⟩
  rcases tracedSurvivor_cases hg ht with ⟨hnot, -⟩ | ⟨-, -, hsources, -, -⟩
  · exact absurd hpooled hnot
  · rw [hsources, pool, pool, hfam]

theorem exists_survivor (hf : f ∈ fields) : ∃ t ∈ tracedSurvivors fields, f ∈ t.sources := by
  by_cases h : Pooled fields f
  · obtain ⟨t, ht, hsources⟩ := h.survivor
    exact ⟨t, ht, hsources ▸ mem_pool.mpr ⟨hf, rfl, h.1⟩⟩
  · obtain ⟨i, hi⟩ := getElem?_of_mem hf
    exact ⟨_, mem_tracedSurvivors.mpr ⟨i, f, hi, tracedSurvivor_alone h⟩, mem_cons_self⟩

theorem Pooled.of_mem_pool (hf : Pooled fields f) (hg : g ∈ pool fields f) : Pooled fields g := by
  obtain ⟨-, hfam, hnum⟩ := mem_pool.mp hg
  obtain ⟨h, hh, hhfam, hfloat⟩ := hf.2
  exact ⟨hnum, h, hh, hhfam.trans hfam.symm, hfloat⟩

theorem survivor_of_not_pooled (h : ¬ Pooled fields f)
    (ht : t ∈ tracedSurvivors fields) (hf : f ∈ t.sources) : t = ⟨canonicalField f, [f]⟩ := by
  obtain ⟨i, g, hg, htrace⟩ := mem_tracedSurvivors.mp ht
  rcases tracedSurvivor_cases hg htrace with ⟨-, rfl⟩ | ⟨hpooled, -, hsources, -⟩
  · obtain rfl : f = g := mem_singleton.mp hf
    rfl
  · exact absurd (hpooled.of_mem_pool (hsources ▸ hf)) h

theorem survivor_of_pooled (h : Pooled fields f)
    (ht : t ∈ tracedSurvivors fields) (hf : f ∈ t.sources) : t.sources = pool fields f := by
  obtain ⟨i, g, hg, htrace⟩ := mem_tracedSurvivors.mp ht
  rcases tracedSurvivor_cases hg htrace with ⟨hnot, rfl⟩ | ⟨hpooled, -, hsources, -⟩
  · obtain rfl : f = g := mem_singleton.mp hf
    exact absurd h hnot
  · rw [hsources] at hf
    rw [hsources, pool, pool, (mem_pool.mp hf).2.1]

theorem shared_survivor (ht : t ∈ tracedSurvivors fields) (hf : f ∈ t.sources) (hg : g ∈ t.sources)
    (hne : f ≠ g) : Pooled fields f ∧ g ∈ pool fields f := by
  by_cases h : Pooled fields f
  · exact ⟨h, survivor_of_pooled h ht hf ▸ hg⟩
  · rw [survivor_of_not_pooled h ht hf] at hg
    exact absurd (mem_singleton.mp hg).symm hne

/-! ### Columns -/

variable {c : Traced}

theorem column_survivor (hc : c ∈ tracedColumns fields) (hf : f ∈ c.sources) :
    ∃ t ∈ tracedSurvivors fields, f ∈ t.sources ∧ t.column.name = c.column.name ∧
      t.column.type = c.column.type ∧ t.sources ⊆ c.sources := by
  obtain ⟨g, hg, rfl⟩ := mem_map.mp hc
  obtain ⟨t, ht, hft⟩ := mem_flatMap.mp hf
  have hmem := (group_perm (fun t : Traced => t.column.name) (fun t => t.column.type)
    (tracedSurvivors fields)).mem_iff.mp
      (mem_flatMap.mpr ⟨g, hg, ht⟩)
  obtain ⟨hname, htype⟩ := group_uniform _ _ _ g hg t ht
  refine ⟨t, hmem, hft, hname, htype, ?_⟩
  intro x hx
  exact mem_flatMap.mpr ⟨t, ht, hx⟩

theorem published_column (hc : c ∈ publishedColumns order fields) :
    ∃ c' ∈ tracedColumns fields, c'.sources = c.sources ∧ c'.column.name = c.column.name := by
  cases order with
  | schemaContractFirst => exact ⟨c, hc, rfl, rfl⟩
  | alphabetically =>
    obtain ⟨name, -, hfound⟩ := mem_filterMap.mp hc
    obtain ⟨c', hc', rfl⟩ := Option.map_eq_some_iff.mp hfound
    exact ⟨c', mem_of_find?_eq_some hc', rfl, rfl⟩

theorem published_type (hc : c ∈ publishedColumns order fields) (hf : f ∈ c.sources)
    (h : ¬ Pooled fields f) : c.column.type = f.type.map (finish order) := by
  have hemitted : ∀ {c : Traced}, c ∈ tracedColumns fields → f ∈ c.sources →
      c.column.type = f.type.map normalizeIntegerFloatType := by
    intro c hc hf
    obtain ⟨t, ht, hft, -, htype, -⟩ := column_survivor hc hf
    rw [← htype, survivor_of_not_pooled h ht hft, canonicalField, finishField_type]
    rfl
  cases order with
  | schemaContractFirst => exact hemitted hc hf
  | alphabetically =>
    obtain ⟨name, -, hfound⟩ := mem_filterMap.mp hc
    obtain ⟨c', hc', rfl⟩ := Option.map_eq_some_iff.mp hfound
    rw [mapType_type, hemitted (mem_of_find?_eq_some hc') hf, Option.map_map]
    rfl

theorem survivor_name (hf : fields[i]? = some f)
    (ht : tracedSurvivor fields (f, i) = some t) : t.column.name = (canonicalField f).name := by
  rcases tracedSurvivor_cases hf ht with ⟨-, rfl⟩ | ⟨-, -, -, hname, -⟩
  · rfl
  · exact hname

/-! ### Fields that keep their columns -/

/-- The field has no versioned name, or the suffix of its own type. -/
def OwnSuffix (f : LogicalField) : Prop :=
  ∀ p, parseVersionedFieldName f.name = some p →
    f.type.map variantSemanticType = some p.semanticType

instance : DecidablePred OwnSuffix := fun f =>
  decidable_of_iff (∀ p ∈ (parseVersionedFieldName f.name).toList,
      f.type.map variantSemanticType = some p.semanticType)
    ⟨fun h p hp => h p (Option.mem_toList.mpr hp), fun h p hp => h p (Option.mem_toList.mp hp)⟩

/-- Two fields that may be represented by one column. -/
def MayShare (f g : LogicalField) : Prop :=
  familyBaseName f = familyBaseName g ∧ OwnSuffix f ∧ OwnSuffix g

/-- **Fields keep their columns**: two fields are represented by one column only if they may
share one, and every field is represented. -/
structure KeepsColumns (order : FieldOrderPolicy) (fields : List LogicalField) : Prop where
  shared : ∀ c ∈ publishedColumns order fields, ∀ f ∈ c.sources, ∀ g ∈ c.sources, f ≠ g →
    MayShare f g
  kept : ∀ f ∈ fields, ∃ c ∈ publishedColumns order fields, f ∈ c.sources

/-- **The condition on the fields of a level.**  Numeric fields of a family with a float have
their own suffixes if there is more than one; and restoring the suffixes keeps the fields
apart: no two get one name, or, in the order of arrival, no field gets the name and the type
of the last field of that name before it. -/
structure ColumnsApart (order : FieldOrderPolicy) (fields : List LogicalField) : Prop where
  numeric : ∀ f ∈ fields, ∀ g ∈ fields, f ≠ g → Pooled fields f → g ∈ pool fields f → OwnSuffix f
  apart : match order with
    | .alphabetically => (fields.map fun f => (canonicalField f).name).Nodup
    | .schemaContractFirst =>
      Apart (fun f => (canonicalField f).name) (fun f => (canonicalField f).type) fields

theorem typed_of_canonicalField (h : (canonicalField f).type ≠ none) : f.type ≠ none := by
  intro hnone
  rw [canonicalField, finishField_type, hnone] at h
  exact h rfl

theorem OwnSuffix.canonicalField_name (h : OwnSuffix f) : (canonicalField f).name = f.name := by
  rcases hp : parseVersionedFieldName f.name with - | p
  · exact finishField_name hp
  · obtain ⟨t, ht, hsem⟩ := Option.map_eq_some_iff.mp (h p hp)
    have hkept : canonicalizeVersionedNameForType (f.mapType normalizeIntegerFloatType)
        = f.mapType normalizeIntegerFloatType := by
      simp [canonicalizeVersionedNameForType, hp, ht, levelMap_normalize.semantic, hsem]
    show (canonicalizeVersionedNameForType (f.mapType normalizeIntegerFloatType)).name = f.name
    rw [hkept]
    rfl

theorem not_mayShare (hne : f.name ≠ g.name)
    (h : (canonicalField f).name = (canonicalField g).name) : ¬ MayShare f g := by
  rintro ⟨-, hf, hg⟩
  rw [hf.canonicalField_name, hg.canonicalField_name] at h
  exact hne h

/-- Fields of one canonical name are versions of one base, and a typed one that shares the
name with a numeric field has its type. -/
theorem canonical_twins (hne : f.name ≠ g.name)
    (h : (canonicalField f).name = (canonicalField g).name) :
    familyBaseName f = familyBaseName g ∧ parseVersionedFieldName f.name ≠ none ∧
      (isScalarNumericType g = true → f.type ≠ none → f.type = g.type) := by
  obtain ⟨hbv, hversioned⟩ := versioned_of_canonical_eq
    (f := f.mapType normalizeIntegerFloatType) (g := g.mapType normalizeIntegerFloatType) hne h
  have hp := mt Option.map_eq_none_iff.mpr hversioned
  refine ⟨?_, hp, ?_⟩
  · have hfam : familyBaseName (canonicalField f) = familyBaseName (canonicalField g) :=
      congrArg variantFamilyBase h
    rwa [canonicalField, canonicalField, familyBaseName_finishField,
      familyBaseName_finishField] at hfam
  · intro hnum htyped
    obtain ⟨p, hp⟩ := Option.ne_none_iff_exists'.mp hp
    obtain ⟨q, hq⟩ := Option.ne_none_iff_exists'.mp
      (mt Option.map_eq_none_iff.mpr (hbv ▸ hversioned))
    obtain ⟨t, ht⟩ := Option.ne_none_iff_exists'.mp htyped
    obtain ⟨k, hk⟩ := scalar_of_isScalarNumericType hnum
    have hft : (f.mapType normalizeIntegerFloatType).type
        = some (normalizeIntegerFloatType t) := by
      rw [mapType_type, ht]
      rfl
    have hparse := parse_canonicalize hp hft
    have hparse' := parse_canonicalize hq (mapType_scalar_iff.mpr hk)
    rw [show (canonicalizeVersionedNameForType (f.mapType normalizeIntegerFloatType)).name
      = (canonicalizeVersionedNameForType (g.mapType normalizeIntegerFloatType)).name from h,
      hparse'] at hparse
    have hsem := congrArg VersionedFieldName.semanticType (Option.some.inj hparse)
    rw [levelMap_normalize.semantic] at hsem
    rw [ht, hk, pinned_scalar k t hsem.symm]

/-! ### The condition is sufficient -/

theorem pooled_of_dropped (h : tracedSurvivor fields (f, i) = none) : Pooled fields f := by
  by_contra hnot
  rw [tracedSurvivor_alone hnot] at h
  cases h

theorem kept_once {j : Nat} {u : Traced} (hf : fields[i]? = some f)
    (hg : fields[j]? = some g) (ht : tracedSurvivor fields (f, i) = some t)
    (hu : tracedSurvivor fields (g, j) = some u) (hpooled : Pooled fields f)
    (hpooled' : Pooled fields g) (hfam : familyBaseName f = familyBaseName g) : f = g := by
  rcases tracedSurvivor_cases hf ht with ⟨hnot, -⟩ | ⟨-, hi, -⟩
  · exact absurd hpooled hnot
  rcases tracedSurvivor_cases hg hu with ⟨hnot, -⟩ | ⟨-, hj, -⟩
  · exact absurd hpooled' hnot
  rw [numericPosition, hfam] at hi
  cases hi.symm.trans hj
  exact Option.some.inj (hf.symm.trans hg)

theorem Pooled.of_twin (h : Pooled fields g)
    (hfam : familyBaseName f = familyBaseName g) (htype : f.type = g.type) : Pooled fields f := by
  obtain ⟨hnum, x, hx, hxfam, hfloat⟩ := h
  refine ⟨?_, x, hx, hxfam.trans hfam.symm, hfloat⟩
  rw [isScalarNumericType_iff] at hnum ⊢
  rwa [htype]

theorem names_split {l₁ l₂ l₃ : List LogicalField}
    (h : ((l₁ ++ f :: l₂ ++ g :: l₃).map FieldOf.name).Nodup) :
    f.name ≠ g.name ∧ ∀ x ∈ l₂, x.name ≠ f.name ∧ x.name ≠ g.name := by
  simp only [List.Nodup, pairwise_map, append_assoc, cons_append,
    pairwise_append, pairwise_cons] at h
  obtain ⟨-, ⟨hf, -, -, hcross⟩, -⟩ := h
  refine ⟨hf g (by simp), ?_⟩
  intro x hx
  exact ⟨(hf x (mem_append_left _ hx)).symm, hcross x hx g mem_cons_self⟩

/-- **If the fields of a level are apart, so are its survivors.**  A dropped field between
two survivors of its name would be numeric, and then all three would be. -/
theorem survivors_apart (hnodup : (fields.map FieldOf.name).Nodup)
    (h : Apart (fun f => (canonicalField f).name) (fun f => (canonicalField f).type) fields) :
    Apart (fun t : Traced => t.column.name) (fun t => t.column.type) (tracedSurvivors fields) := by
  intro l₁ t l₂ u l₃ hsplit hkey hbetween hjoin
  -- split the fields where the survivors are split
  rw [tracedSurvivors, append_assoc, cons_append, filterMap_eq_append_iff] at hsplit
  obtain ⟨z₁, za, hz, -, hza⟩ := hsplit
  obtain ⟨n₁, ⟨f, i⟩, zb, rfl, -, hf, hzb⟩ := filterMap_eq_cons_iff.mp hza
  obtain ⟨z₂, zc, rfl, hz₂, hzc⟩ := filterMap_eq_append_iff.mp hzb
  obtain ⟨n₂, ⟨g, j⟩, z₃, rfl, hn₂, hg, -⟩ := filterMap_eq_cons_iff.mp hzc
  have hin : ∀ p ∈ fields.zipIdx, fields[p.2]? = some p.1 :=
    fun p hp => mk_mem_zipIdx_iff_getElem?.mp hp
  have hfi : fields[i]? = some f := hin (f, i) (by simp [hz])
  have hgj : fields[j]? = some g := hin (g, j) (by simp [hz])
  have hfields : fields = (z₁ ++ n₁).map Prod.fst ++ f :: (z₂ ++ n₂).map Prod.fst ++
      g :: z₃.map Prod.fst := by
    rw [← zipIdx_map_fst 0 fields, hz]
    simp
  obtain ⟨hne, hothers⟩ := names_split (hfields ▸ hnodup)
  have hcanonical : (canonicalField f).name = (canonicalField g).name := by
    rw [← survivor_name hfi hf, ← survivor_name hgj hg]
    exact hkey
  obtain ⟨hfam, hversioned, -⟩ := canonical_twins hne hcanonical
  obtain ⟨-, hversioned', -⟩ := canonical_twins hne.symm hcanonical.symm
  -- versioned survivors are canonical fields
  have hcolumn : ∀ {x : LogicalField} {k : Nat} {v : Traced}, fields[k]? = some x →
      tracedSurvivor fields (x, k) = some v → parseVersionedFieldName x.name ≠ none →
      v.column = canonicalField x := by
    intro x k v hx hv hparse
    rcases tracedSurvivor_cases hx hv with ⟨-, rfl⟩ | ⟨-, -, -, -, hcol⟩
    · rfl
    · exact hcol hparse
  have htf := hcolumn hfi hf hversioned
  have hug := hcolumn hgj hg hversioned'
  have hjoin' : Joins (fun f => (canonicalField f).type) f g := by
    refine ⟨?_, ?_⟩
    · show (canonicalField f).type = (canonicalField g).type
      rw [← htf, ← hug]
      exact hjoin.1
    · show (canonicalField g).type ≠ none
      rw [← hug]
      exact hjoin.2
  refine h _ f _ g _ hfields hcanonical ?_ hjoin'
  intro x hx hxname
  obtain ⟨hxf, hxg⟩ := hothers x hx
  obtain ⟨⟨x, k⟩, hmem, rfl⟩ := mem_map.mp hx
  have hxk : fields[k]? = some x := by
    refine hin (x, k) ?_
    rw [hz]
    simp only [mem_append, mem_cons] at hmem ⊢
    tauto
  rcases hv : tracedSurvivor fields (x, k) with - | v
  · -- dropped: a numeric field, and then its twins are pooled with it
    have hpooled := pooled_of_dropped hv
    have hgtyped := typed_of_canonicalField hjoin'.2
    have hftyped := typed_of_canonicalField (hjoin'.1.trans_ne hjoin'.2)
    obtain ⟨hffam, -, hftype⟩ := canonical_twins (f := f) (g := x) hxf.symm hxname.symm
    obtain ⟨hgfam, -, hgtype⟩ := canonical_twins (f := g) (g := x) hxg.symm
      (hcanonical.symm.trans hxname.symm)
    have hpf := hpooled.of_twin hffam (hftype hpooled.1 hftyped)
    have hpg := hpooled.of_twin hgfam (hgtype hpooled.1 hgtyped)
    exact hne (congrArg FieldOf.name (kept_once hfi hgj hf hg hpf hpg hfam))
  · rcases mem_append.mp hmem with hmem | hmem
    · have hl₂ : v ∈ l₂ := hz₂ ▸ mem_filterMap.mpr ⟨(x, k), hmem, hv⟩
      refine hbetween v hl₂ ?_
      show v.column.name = t.column.name
      rw [survivor_name hxk hv, survivor_name hfi hf]
      exact hxname
    · rw [hn₂ (x, k) hmem] at hv
      cases hv

theorem tracedColumns_eq
    (h : Apart (fun t : Traced => t.column.name) (fun t => t.column.type)
      (tracedSurvivors fields)) : tracedColumns fields = tracedSurvivors fields := by
  rw [tracedColumns, group_eq_map h, map_map]
  refine (map_congr_left ?_).trans (map_id _)
  intro t _
  simp

theorem apart_of_nodup (h : (fields.map fun f => (canonicalField f).name).Nodup) :
    Apart (fun f => (canonicalField f).name) (fun f => (canonicalField f).type) fields := by
  rintro l₁ f l₂ g l₃ rfl hname - -
  simp only [List.Nodup, pairwise_map, append_assoc, cons_append,
    pairwise_append, pairwise_cons] at h
  exact h.2.1.1 g (by simp) hname

/-- **Fields that are apart keep their columns.** -/
theorem ColumnsApart.keepsColumns (h : ColumnsApart order fields)
    (hnodup : (fields.map FieldOf.name).Nodup) : KeepsColumns order fields := by
  have hfields : Apart (fun f => (canonicalField f).name) (fun f => (canonicalField f).type)
      fields := by
    cases order with
    | alphabetically => exact apart_of_nodup h.apart
    | schemaContractFirst => exact h.apart
  have hcolumns := tracedColumns_eq (survivors_apart hnodup hfields)
  refine ⟨?_, ?_⟩
  · intro c hc f hf g hg hne
    obtain ⟨t, ht, hsources, -⟩ := published_column hc
    rw [hcolumns] at ht
    rw [← hsources] at hf hg
    -- two sources of one survivor are pooled
    obtain ⟨hpooled, hgpool⟩ := shared_survivor ht hf hg hne
    obtain ⟨hpooled', hfpool⟩ := shared_survivor ht hg hf hne.symm
    have hgf := mem_pool.mp hgpool
    have hfg := mem_pool.mp hfpool
    exact ⟨hfg.2.1, h.numeric f hfg.1 g hgf.1 hne hpooled hgpool,
      h.numeric g hgf.1 f hfg.1 hne.symm hpooled' hfpool⟩
  · intro f hf
    obtain ⟨t, ht, hft⟩ := exists_survivor hf
    cases order with
    | schemaContractFirst =>
      refine ⟨t, ?_, hft⟩
      show t ∈ tracedColumns fields
      rw [hcolumns]
      exact ht
    | alphabetically =>
      -- the first column of its name is its own
      have hcol : t ∈ tracedColumns fields := hcolumns ▸ ht
      obtain ⟨u, hu⟩ : ∃ u, (tracedColumns fields).find?
          (fun v => v.column.name == t.column.name) = some u := by
        apply Option.isSome_iff_exists.mp
        rw [find?_isSome]
        exact ⟨t, hcol, by simp⟩
      have hut : u = t := by
        have hname : u.column.name = t.column.name := by simpa using find?_some hu
        have humem := mem_of_find?_eq_some hu
        rw [hcolumns] at humem
        obtain ⟨i, x, hx, hxt⟩ := mem_tracedSurvivors.mp ht
        obtain ⟨j, y, hy, hyu⟩ := mem_tracedSurvivors.mp humem
        rw [survivor_name hx hxt, survivor_name hy hyu] at hname
        have hnames : (fields.map fun f => (canonicalField f).name).Nodup := h.apart
        have hij : j = i := by
          refine (getElem?_inj ?_ hnames).mp ?_
          · rw [length_map]
            exact (List.getElem?_eq_some_iff.mp hy).1
          · simp [hx, hy, hname]
        subst hij
        rw [hx] at hy
        cases hy
        exact Option.some.inj (hyu.symm.trans hxt)
      refine ⟨{ t with column := t.column.mapType alphabetize }, ?_, hft⟩
      refine mem_filterMap.mpr ⟨t.column.name, ?_, ?_⟩
      · exact (sortNames_perm _).mem_iff.mpr (mem_map_of_mem hcol)
      · rw [hu, hut]
        rfl

/-! ### The condition is necessary -/

theorem KeepsColumns.of_survivor (h : KeepsColumns order fields) (hf : f ∈ fields)
    (hpooled : Pooled fields f) (hg : g ∈ pool fields f) (hne : f ≠ g) : MayShare f g := by
  obtain ⟨c, hc, hfc⟩ := h.kept f hf
  obtain ⟨c', hc', hsources, -⟩ := published_column hc
  obtain ⟨t, ht, hft, -, -, hsub⟩ := column_survivor hc' (hsources ▸ hfc)
  refine h.shared c hc f hfc g ?_ hne
  rw [← hsources]
  refine hsub ?_
  rw [survivor_of_pooled hpooled ht hft]
  exact hg

theorem KeepsColumns.not_pooled (h : KeepsColumns order fields) (hf : f ∈ fields) (hg : g ∈ fields)
    (hne : f.name ≠ g.name) (hcanonical : (canonicalField f).name = (canonicalField g).name)
    (htype : g.type ≠ none) : ¬ Pooled fields f := by
  intro hpooled
  obtain ⟨hfam, -, hsame⟩ := canonical_twins hne.symm hcanonical.symm
  have hgtype := hsame hpooled.1 htype
  have hgpool : g ∈ pool fields f :=
    mem_pool.mpr ⟨hg, hfam, (hpooled.of_twin hfam hgtype).1⟩
  exact not_mayShare hne hcanonical
    (h.of_survivor hf hpooled hgpool fun he => hne (congrArg FieldOf.name he))

/-- Fields that keep their columns have canonical names apart. -/
theorem KeepsColumns.apart (h : KeepsColumns .schemaContractFirst fields)
    (hnodup : (fields.map FieldOf.name).Nodup) :
    Apart (fun f => (canonicalField f).name) (fun f => (canonicalField f).type) fields := by
  intro l₁ f l₂ g l₃ hsplit hcanonical hbetween hjoin
  obtain ⟨hne, -⟩ := names_split (hsplit ▸ hnodup)
  have hf : f ∈ fields := by simp [hsplit]
  have hg : g ∈ fields := by simp [hsplit]
  have hgtyped := typed_of_canonicalField hjoin.2
  have hftyped := typed_of_canonicalField (hjoin.1.trans_ne hjoin.2)
  have hpf := h.not_pooled hf hg hne hcanonical hgtyped
  have hpg := h.not_pooled hg hf hne.symm hcanonical.symm hftyped
  -- both survive alone, and no survivor of their name stands between them
  have hsurvivors : ∃ t₁ t₂ t₃, tracedSurvivors fields
      = t₁ ++ ⟨canonicalField f, [f]⟩ :: t₂ ++ ⟨canonicalField g, [g]⟩ :: t₃ ∧
        ∀ t ∈ t₂, t.column.name ≠ (canonicalField f).name := by
    have hzip : fields.zipIdx = l₁.zipIdx ++ (f, l₁.length) :: l₂.zipIdx (l₁.length + 1) ++
        (g, l₁.length + 1 + l₂.length) :: l₃.zipIdx (l₁.length + 1 + l₂.length + 1) := by
      rw [hsplit]
      simp [zipIdx_append, zipIdx_cons]
    refine ⟨l₁.zipIdx.filterMap (tracedSurvivor fields),
      (l₂.zipIdx (l₁.length + 1)).filterMap (tracedSurvivor fields),
      (l₃.zipIdx (l₁.length + 1 + l₂.length + 1)).filterMap (tracedSurvivor fields), ?_, ?_⟩
    · rw [tracedSurvivors, hzip, filterMap_append, filterMap_append,
        filterMap_cons_some (tracedSurvivor_alone hpf),
        filterMap_cons_some (tracedSurvivor_alone hpg)]
    · intro t ht
      obtain ⟨⟨x, k⟩, hx, hxt⟩ := mem_filterMap.mp ht
      have hxk : fields[k]? = some x := by
        refine mk_mem_zipIdx_iff_getElem?.mp ?_
        rw [hzip]
        simp [hx]
      rw [survivor_name hxk hxt]
      exact hbetween x (fst_mem_of_mem_zipIdx hx)
  obtain ⟨t₁, t₂, t₃, hT, hT₂⟩ := hsurvivors
  obtain ⟨c, hc, hfc, hgc⟩ := group_joined (fun t : Traced => t.column.name)
    (fun t => t.column.type) t₁ t₂ t₃ (x := ⟨canonicalField f, [f]⟩)
    (y := ⟨canonicalField g, [g]⟩) hcanonical hjoin hT₂
  rw [← hT] at hc
  have hcolumn : (⟨c.1.column, c.2.flatMap Traced.sources⟩ : Traced) ∈ tracedColumns fields :=
    mem_map_of_mem hc
  refine not_mayShare hne hcanonical (h.shared _ hcolumn f ?_ g ?_ ?_)
  · exact mem_flatMap.mpr ⟨_, hfc, mem_cons_self⟩
  · exact mem_flatMap.mpr ⟨_, hgc, mem_cons_self⟩
  · exact fun he => hne (congrArg FieldOf.name he)

theorem survivor_name_of_alone (h : Pooled fields f → ∀ g ∈ pool fields f, g = f)
    (ht : t ∈ tracedSurvivors fields) (hf : f ∈ t.sources) :
    t.column.name = (canonicalField f).name := by
  by_cases hpooled : Pooled fields f
  · obtain ⟨i, g, hg, htrace⟩ := mem_tracedSurvivors.mp ht
    have hname := survivor_name hg htrace
    rcases tracedSurvivor_cases hg htrace with ⟨-, rfl⟩ | ⟨hgpooled, -, hsources, -, -⟩
    · obtain rfl : f = g := mem_singleton.mp hf
      exact hname
    · rw [hsources] at hf
      have hgf : g = f := h hpooled g (mem_pool.mpr
        ⟨mem_of_getElem? hg, (mem_pool.mp hf).2.1.symm, hgpooled.1⟩)
      rwa [hgf] at hname
  · rw [survivor_of_not_pooled hpooled ht hf]

theorem KeepsColumns.no_twin (h : KeepsColumns order fields) {x : LogicalField} (hf : f ∈ fields)
    (hg : g ∈ fields) (hne : f.name ≠ g.name) (hpooled : Pooled fields f) (hx : x ∈ pool fields f)
    (hxf : x ≠ f) : (canonicalField f).name ≠ (canonicalField g).name := by
  intro hcanonical
  by_cases hg' : g.type = none
  · -- neither name changes
    have hown := (h.of_survivor hf hpooled hx hxf.symm).2.1
    have hkept : (canonicalField g).name = g.name := by
      rw [canonicalField, finishField, canonicalize_of_untyped (by rw [mapType_type, hg']; rfl)]
      rfl
    rw [hown.canonicalField_name, hkept] at hcanonical
    exact hne hcanonical
  · exact h.not_pooled hf hg hne hcanonical hg' hpooled

/-- In alphabetical order, fields that keep their columns get different names: of two
columns of one name only the first is published. -/
theorem KeepsColumns.nodup (h : KeepsColumns .alphabetically fields)
    (hnodup : (fields.map FieldOf.name).Nodup) :
    (fields.map fun f => (canonicalField f).name).Nodup := by
  refine List.Nodup.map_on ?_ hnodup.of_map
  intro f hf g hg hcanonical
  by_contra hfg
  have hne : f.name ≠ g.name := fun he => hfg (inj_on_of_nodup_map hnodup hf hg he)
  have hcolumn : ∀ {x y : LogicalField}, x ∈ fields → y ∈ fields → x.name ≠ y.name →
      (canonicalField x).name = (canonicalField y).name →
      ∃ c, (tracedColumns fields).find? (fun t => t.column.name == (canonicalField x).name)
        = some c ∧ x ∈ c.sources ∧
          { c with column := c.column.mapType alphabetize }
            ∈ publishedColumns .alphabetically fields := by
    intro x y hx hy hxy hnames
    have halone : Pooled fields x → ∀ z ∈ pool fields x, z = x := by
      intro hpooled z hz
      by_contra hzx
      exact h.no_twin hx hy hxy hpooled hz hzx hnames
    obtain ⟨c, hc, hxc⟩ := h.kept x hx
    obtain ⟨name, hname, hfound⟩ := mem_filterMap.mp hc
    obtain ⟨c, hfind, rfl⟩ := Option.map_eq_some_iff.mp hfound
    obtain ⟨t, ht, hxt, htc, -, -⟩ := column_survivor (mem_of_find?_eq_some hfind) hxc
    have hcname : c.column.name = name := by simpa using find?_some hfind
    have : name = (canonicalField x).name := by
      rw [← hcname, ← htc]
      exact survivor_name_of_alone halone ht hxt
    subst this
    exact ⟨c, hfind, hxc, hc⟩
  -- both are represented by the first column of their common name
  obtain ⟨c, hc, hfc, hpublished⟩ := hcolumn hf hg hne hcanonical
  obtain ⟨d, hd, hgd, -⟩ := hcolumn hg hf hne.symm hcanonical.symm
  rw [← hcanonical, hc] at hd
  obtain rfl : c = d := Option.some.inj hd
  exact not_mayShare hne hcanonical (h.shared _ hpublished f hfc g hgd hfg)

/-- **Fields keep their columns exactly if they are apart.** -/
theorem keepsColumns_iff (hnodup : (fields.map FieldOf.name).Nodup) :
    KeepsColumns order fields ↔ ColumnsApart order fields := by
  refine ⟨?_, fun h => h.keepsColumns hnodup⟩
  intro h
  refine ⟨?_, ?_⟩
  · intro f hf g hg hne hpooled hpool
    exact (h.of_survivor hf hpooled hpool hne).2.1
  · cases order with
    | alphabetically => exact h.nodup hnodup
    | schemaContractFirst => exact h.apart hnodup

end Level

/-! ### Merging into the empty registry -/

/-- **Every inferred field keeps a column of its own, or shares one inside its family and
under its own suffix, exactly if the fields of every level are apart.**  The first two
parts say that the traced columns of a level are the columns that are published for it. -/
theorem merge_keepsColumns_iff {clock : Except Bytes Bytes} {input : SchemaRegistryMergeInput}
    {result : SchemaRegistryMergeResult} (hmode : input.schemaEvolution = .additive)
    (hdistinct : input.inferredSchema.DistinctNames)
    (hok : mergeSchemaRegistryWithPrevious clock input (some ⟨[]⟩) = .ok result) :
    LogicalType.struct result.schema.fields
        = finish input.fieldOrder (.struct input.inferredSchema.fields) ∧
      (∀ fields, finish input.fieldOrder (.struct fields)
          = .struct ((publishedColumns input.fieldOrder fields).map Traced.column) ∧
        ∀ c ∈ publishedColumns input.fieldOrder fields, ∀ f ∈ c.sources, ¬ Pooled fields f →
          c.column.type = f.type.map (finish input.fieldOrder)) ∧
      ((∀ fields, .struct fields ∈ (LogicalType.struct input.inferredSchema.fields).subtypes →
          KeepsColumns input.fieldOrder fields) ↔
        ∀ fields, .struct fields ∈ (LogicalType.struct input.inferredSchema.fields).subtypes →
          ColumnsApart input.fieldOrder fields) := by
  refine ⟨?_, ?_, ?_⟩
  · have hmerge := congrArg Prod.fst (merge_ok_additive hmode hok)
    rw [additiveMerge, if_pos rfl] at hmerge
    rw [← show _ = result.schema from hmerge, applyOrder_normalize_struct]
    exact finish_normalize (.struct input.inferredSchema.fields)
  · intro fields
    exact ⟨(publishedColumns_erase input.fieldOrder fields).symm,
      fun c hc f hf h => published_type hc hf h⟩
  · refine forall₂_congr ?_
    intro fields hfields
    exact keepsColumns_iff (hdistinct _ hfields)

theorem merge_keepsColumns_iff_sample :
    KeepsColumns .alphabetically
      [sampleField "a" (.scalar .float64), sampleField "a_v2_integer" (.scalar .int64)] := by
  refine (@merge_keepsColumns_iff (.ok []) (sampleInput .alphabetically
    [sampleField "a" (.scalar .float64), sampleField "a_v2_integer" (.scalar .int64)])
    _ rfl (by decide) rfl).2.2.mpr ?_ _ (by decide)
  intro fields hfields
  have hroot : fields
      = [sampleField "a" (.scalar .float64), sampleField "a_v2_integer" (.scalar .int64)] := by
    simpa [sampleInput, sampleField, LogicalType.subtypes, subtypesFields, subtypesField,
      subtypesValue] using hfields
  subst hroot
  refine ⟨by decide, ?_⟩
  show (map _ _).Nodup
  decide

/-- **Two fields in one column.**  Both count as version two of `a`, and both are integers. -/
theorem merge_joins_columns :
    ∃ result,
      LogicalSchema.DistinctNames
        ⟨[sampleField "a_v2_foo" (.scalar .int64), sampleField "a_v2_bar" (.scalar .int64)]⟩ ∧
      mergeSchemaRegistryWithPrevious (.ok [])
        (sampleInput .schemaContractFirst
          [sampleField "a_v2_foo" (.scalar .int64), sampleField "a_v2_bar" (.scalar .int64)])
        (some ⟨[]⟩) = .ok result ∧
      result.schema.fields = [sampleField "a_v2_integer" (.scalar .int64)] ∧
      ¬ KeepsColumns .schemaContractFirst
        [sampleField "a_v2_foo" (.scalar .int64), sampleField "a_v2_bar" (.scalar .int64)] := by
  refine ⟨_, by decide, rfl, by decide, ?_⟩
  intro h
  have hshare : MayShare (sampleField "a_v2_foo" (.scalar .int64))
      (sampleField "a_v2_bar" (.scalar .int64)) := by
    refine h.shared ⟨sampleField "a_v2_integer" (.scalar .int64),
      [sampleField "a_v2_foo" (.scalar .int64), sampleField "a_v2_bar" (.scalar .int64)]⟩
      ?_ _ mem_cons_self _ (by simp) (by decide)
    decide
  exact absurd hshare.2.1 (by decide)

end SchemaSanitizer
