/-
SchemaSanitizer/Normalize.lean

The integer/float normalizer of the registry
(`schema_registry/schema_registry_numeric.cc`).  One struct level is normalized
in two passes: the first plans, for every version family, which numeric column
survives when the family holds a float; the second drops the others, turns the
survivor into a float, rewrites version suffixes that no longer name their
type, and skips a column whose name and type were just emitted.

`normalizeLevel` is that pair of loops on one field vector and
`normalizeIntegerFloatType` applies it at every level, innermost first.

Main results:

* `normalizeLevel_eq_self`: a level in normal form (`NormalLevel`) is left alone;
* `normalizeLevel_normal`: the result of normalizing a level is in normal form;
* `normalizeIntegerFloatType_idem`: normalizing a schema twice is normalizing it
  once.
-/
import SchemaSanitizer.LogicalType
import SchemaSanitizer.Lib.NewestFirst

namespace SchemaSanitizer

open Lib List

/-! ### The fields of one level -/

/-- `is_scalar_integer_type`. -/
def isScalarIntegerType (f : LogicalField) : Bool := f.type == some (.scalar .int64)

/-- `is_scalar_float_type`. -/
def isScalarFloatType (f : LogicalField) : Bool := f.type == some (.scalar .float64)

/-- `is_scalar_numeric_type`. -/
def isScalarNumericType (f : LogicalField) : Bool :=
  isScalarIntegerType f || isScalarFloatType f

/-- `family_base_name`. -/
def familyBaseName (f : LogicalField) : Bytes := variantFamilyBase f.name

/-- `canonicalize_versioned_name_for_type`: a versioned name whose suffix does
not name the field's type gets the suffix of the type. -/
def canonicalizeVersionedNameForType (f : LogicalField) : LogicalField :=
  match parseVersionedFieldName f.name, f.type with
  | some parsed, some t =>
    if parsed.semanticType = variantSemanticType t then f
    else { f with
      name := makeVersionedFieldName parsed.base parsed.version (variantSemanticType t) }
  | _, _ => f

/-- `NumericFamilyPlan`. -/
structure NumericFamilyPlan where
  hasFloat : Bool
  firstFloatPosition : Option Nat
  unversionedNumericPosition : Option Nat

/-- The one numeric field retained when a family contains floats. -/
def NumericFamilyPlan.keepPosition (plan : NumericFamilyPlan) : Option Nat :=
  if plan.hasFloat then
    plan.unversionedNumericPosition.or plan.firstFloatPosition
  else none

/-- The plan of one family after the first loop. -/
def numericFamilyPlan (fields : List LogicalField) (base : Bytes) : NumericFamilyPlan where
  hasFloat := fields.any fun f => familyBaseName f == base && isScalarFloatType f
  firstFloatPosition :=
    fields.findIdx? fun f => familyBaseName f == base && isScalarFloatType f
  unversionedNumericPosition :=
    fields.findIdx? fun f => familyBaseName f == base && base == f.name && isScalarNumericType f

/-- The part of the second loop that drops or promotes: what becomes of the
field at position `i`. -/
def keepNumeric (fields : List LogicalField) (i : Nat) (f : LogicalField) :
    Option LogicalField :=
  match (numericFamilyPlan fields (familyBaseName f)).keepPosition with
  | some keep =>
    if isScalarNumericType f then
      if i ≠ keep then none
      else if isScalarIntegerType f then some { f with type := some (.scalar .float64) }
      else some f
    else some f
  | none => some f

/-- The field `emitted_by_name` holds for a name: the last one emitted. -/
def newestNamed (out : List LogicalField) (name : Bytes) : Option LogicalField :=
  lastMatch? (fun _ g => if g.name = name then some g else none) out

/-- The part of the second loop that emits: rename, then append unless the
last emitted field of that name has the same type. -/
def emitField (out : List LogicalField) (f : LogicalField) : List LogicalField :=
  let f := canonicalizeVersionedNameForType f
  match newestNamed out f.name with
  | some previous =>
    if previous.type.isSome && f.type.isSome && previous.type == f.type then out
    else out ++ [f]
  | none => out ++ [f]

/-- The numeric survivors of a level, in order. -/
def survivors (fields : List LogicalField) : List LogicalField :=
  fields.zipIdx.filterMap fun p => keepNumeric fields p.2 p.1

/-- `normalize_integer_float_fields` after the nested types have been
normalized. -/
def normalizeLevel (fields : List LogicalField) : List LogicalField :=
  (survivors fields).foldl emitField []

/-! ### The recursion -/

mutual

/-- `normalize_integer_float_type`. -/
def normalizeIntegerFloatType : LogicalType → LogicalType
  | .scalar k => .scalar k
  | .struct fs => .struct (normalizeLevel (normalizeNested fs))
  | .list v => .list (normalizeValue v)

/-- The element of a list, if it has one. -/
def normalizeValue : Option LogicalType → Option LogicalType
  | none => none
  | some t => some (normalizeIntegerFloatType t)

/-- The type of a field, if it has one. -/
def normalizeNestedField : LogicalField → LogicalField
  | ⟨n, v, b⟩ => ⟨n, normalizeValue v, b⟩

/-- The first loop of `normalize_integer_float_fields`. -/
def normalizeNested : List LogicalField → List LogicalField
  | [] => []
  | f :: fs => normalizeNestedField f :: normalizeNested fs

end

variable {σ τ : Type}

/-- `normalize_integer_float_fields`. -/
def normalizeIntegerFloatFields (fields : List LogicalField) : List LogicalField :=
  normalizeLevel (normalizeNested fields)

/-- `normalize_integer_float_schema`. -/
def normalizeIntegerFloatSchema (schema : LogicalSchema) : LogicalSchema :=
  ⟨normalizeIntegerFloatFields schema.fields⟩

/-- Change the type of a field, keeping its name and nullability. -/
def FieldOf.mapType {σ τ : Type} (g : σ → τ) (f : FieldOf σ) : FieldOf τ :=
  ⟨f.name, f.type.map g, f.nullable⟩

@[simp] theorem mapType_name (g : σ → τ) (f : FieldOf σ) :
    (f.mapType g).name = f.name := rfl

@[simp] theorem mapType_type (g : σ → τ) (f : FieldOf σ) :
    (f.mapType g).type = f.type.map g := rfl

@[simp] theorem mapType_nullable (g : σ → τ) (f : FieldOf σ) :
    (f.mapType g).nullable = f.nullable := rfl

theorem normalizeValue_eq (v : Option LogicalType) :
    normalizeValue v = v.map normalizeIntegerFloatType := by
  cases v <;> rfl

theorem normalizeNested_eq : ∀ fs : List LogicalField,
    normalizeNested fs = fs.map (FieldOf.mapType normalizeIntegerFloatType)
  | [] => rfl
  | ⟨n, v, b⟩ :: fs => by
    rw [normalizeNested, normalizeNested_eq fs, normalizeNestedField, normalizeValue_eq]
    rfl

theorem normalizeIntegerFloatType_struct (fs : List LogicalField) :
    normalizeIntegerFloatType (.struct fs) = .struct (normalizeIntegerFloatFields fs) := rfl

theorem normalizeIntegerFloatType_list (v : Option LogicalType) :
    normalizeIntegerFloatType (.list v) = .list (v.map normalizeIntegerFloatType) := by
  rw [normalizeIntegerFloatType, normalizeValue_eq]

/-! ### Renaming -/

variable {f : LogicalField} {t : LogicalType}

@[simp] theorem canonicalize_type (f : LogicalField) :
    (canonicalizeVersionedNameForType f).type = f.type := by
  unfold canonicalizeVersionedNameForType
  split
  · split <;> rfl
  · rfl

theorem canonicalize_of_unversioned
    (h : parseVersionedFieldName f.name = none) : canonicalizeVersionedNameForType f = f := by
  unfold canonicalizeVersionedNameForType
  rw [h]

theorem canonicalize_of_untyped (h : f.type = none) : canonicalizeVersionedNameForType f = f := by
  unfold canonicalizeVersionedNameForType
  rw [h]
  split
  · rename_i hnone
    cases hnone
  · rfl

theorem parse_canonicalize {p : VersionedFieldName} (hp : parseVersionedFieldName f.name = some p)
    (ht : f.type = some t) :
    parseVersionedFieldName (canonicalizeVersionedNameForType f).name
      = some ⟨p.base, p.version, variantSemanticType t⟩ := by
  unfold canonicalizeVersionedNameForType
  rw [hp, ht]
  dsimp only
  split
  · rename_i hsame
    rw [hp, ← hsame]
  · obtain ⟨_, _, hb, h2, hmax, _⟩ := parseVersionedFieldName_spec hp
    rw [parseVersionedFieldName_make_eq _ _ (isPrintedSuffix_semantic t), if_pos ⟨hb, h2, hmax⟩]

/-- The part of a versioned name that renaming keeps. -/
def baseAndVersion (name : Bytes) : Option (Bytes × Nat) :=
  (parseVersionedFieldName name).map fun p => (p.base, p.version)

@[simp] theorem baseAndVersion_canonicalize (f : LogicalField) :
    baseAndVersion (canonicalizeVersionedNameForType f).name = baseAndVersion f.name := by
  rcases hp : parseVersionedFieldName f.name with - | p
  · rw [canonicalize_of_unversioned hp]
  rcases ht : f.type with - | t
  · rw [canonicalize_of_untyped ht]
  · simp only [baseAndVersion, parse_canonicalize hp ht, hp, Option.map_some]

theorem variantFamilyBase_eq (name : Bytes) :
    variantFamilyBase name = ((baseAndVersion name).map Prod.fst).getD name := by
  rcases hp : parseVersionedFieldName name with - | p
  · simp [baseAndVersion, hp, variantFamilyBase_of_none hp]
  · simp [baseAndVersion, hp, variantFamilyBase_of_parse hp]

@[simp] theorem familyBaseName_canonicalize (f : LogicalField) :
    familyBaseName (canonicalizeVersionedNameForType f) = familyBaseName f := by
  rcases hp : parseVersionedFieldName f.name with - | p
  · rw [canonicalize_of_unversioned hp]
  · have hbv : baseAndVersion f.name = some (p.base, p.version) := by
      rw [baseAndVersion, hp]
      rfl
    simp [familyBaseName, variantFamilyBase_eq, hbv]

theorem canonicalize_idem (f : LogicalField) :
    canonicalizeVersionedNameForType (canonicalizeVersionedNameForType f)
      = canonicalizeVersionedNameForType f := by
  rcases hp : parseVersionedFieldName f.name with - | p
  · rw [canonicalize_of_unversioned hp, canonicalize_of_unversioned hp]
  rcases ht : f.type with - | t
  · rw [canonicalize_of_untyped ht, canonicalize_of_untyped ht]
  · have hparse := parse_canonicalize hp ht
    have htype : (canonicalizeVersionedNameForType f).type = some t := by
      rw [canonicalize_type, ht]
    generalize canonicalizeVersionedNameForType f = g at hparse htype ⊢
    simp [canonicalizeVersionedNameForType, hparse, htype]

/-! ### Dropping and promoting numeric columns -/

variable {fields : List LogicalField} {i : Nat} {g : LogicalField}

theorem isScalarNumericType_iff :
    isScalarNumericType f = true ↔
      f.type = some (.scalar .int64) ∨ f.type = some (.scalar .float64) := by
  simp [isScalarNumericType, isScalarIntegerType, isScalarFloatType]

theorem scalar_of_isScalarNumericType (h : isScalarNumericType f = true) :
    ∃ k, f.type = some (.scalar k) := by
  rcases isScalarNumericType_iff.mp h with hk | hk
  exacts [⟨_, hk⟩, ⟨_, hk⟩]

theorem isScalarFloatType_iff : isScalarFloatType f = true ↔ f.type = some (.scalar .float64) := by
  simp [isScalarFloatType]

theorem isScalarNumericType_of_float (h : isScalarFloatType f = true) :
    isScalarNumericType f = true := by
  simp [isScalarNumericType, h]

/-- Where the numeric fields of the family of a field are kept. -/
abbrev numericPosition (fields : List LogicalField) (f : LogicalField) : Option Nat :=
  (numericFamilyPlan fields (familyBaseName f)).keepPosition

/-- The kept position is a numeric field of a family with a float. -/
theorem keepPosition_spec {base : Bytes} {keep : Nat}
    (h : (numericFamilyPlan fields base).keepPosition = some keep) :
    (∃ g, fields[keep]? = some g ∧ familyBaseName g = base ∧ isScalarNumericType g = true) ∧
      ∃ g ∈ fields, familyBaseName g = base ∧ isScalarFloatType g = true := by
  simp only [NumericFamilyPlan.keepPosition, numericFamilyPlan, Option.ite_none_right_eq_some,
    any_eq_true, Bool.and_eq_true, beq_iff_eq, Option.or_eq_some_iff] at h
  obtain ⟨hfloat, hkeep⟩ := h
  refine ⟨?_, hfloat⟩
  rcases hkeep with hkeep | ⟨_, hkeep⟩
  · obtain ⟨hlt, hp, _⟩ := findIdx?_eq_some_iff_getElem.mp hkeep
    simp only [Bool.and_eq_true, beq_iff_eq] at hp
    exact ⟨fields[keep], getElem?_eq_getElem hlt, hp.1.1, hp.2⟩
  · obtain ⟨hlt, hp, _⟩ := findIdx?_eq_some_iff_getElem.mp hkeep
    simp only [Bool.and_eq_true, beq_iff_eq] at hp
    exact ⟨fields[keep], getElem?_eq_getElem hlt, hp.1, isScalarNumericType_of_float hp.2⟩

theorem keepPosition_eq_none_iff {base : Bytes} :
    (numericFamilyPlan fields base).keepPosition = none ↔
      ∀ g ∈ fields, familyBaseName g = base → isScalarFloatType g = false := by
  have hiff : (numericFamilyPlan fields base).hasFloat = true ↔
      ∃ g ∈ fields, familyBaseName g = base ∧ isScalarFloatType g = true := by
    simp [numericFamilyPlan]
  constructor
  · intro h g hg hbase
    by_contra hf
    rw [Bool.not_eq_false] at hf
    rw [NumericFamilyPlan.keepPosition, if_pos (hiff.mpr ⟨g, hg, hbase, hf⟩),
      Option.or_eq_none_iff] at h
    have hnone := findIdx?_eq_none_iff.mp h.2 g hg
    simp [hbase, hf] at hnone
  · intro h
    refine if_neg fun hfloat => ?_
    obtain ⟨g, hg, hbase, hf⟩ := hiff.mp hfloat
    rw [h g hg hbase] at hf
    exact Bool.false_ne_true hf

/-- What the second loop does to one field before renaming: keep it, turn a
kept integer into a float, or drop it. -/
theorem keepNumeric_cases (h : keepNumeric fields i f = some g) :
    (g = f ∧ (isScalarNumericType f = true →
        numericPosition fields f = none ∨
        numericPosition fields f = some i)) ∨
      (f.type = some (.scalar .int64) ∧ g = { f with type := some (.scalar .float64) } ∧
        numericPosition fields f = some i) := by
  unfold keepNumeric at h
  rcases e : (numericFamilyPlan fields (familyBaseName f)).keepPosition with - | keep
  · rw [e] at h
    exact .inl ⟨(Option.some.inj h).symm, fun _ => .inl e⟩
  · rw [e] at h
    dsimp only at h
    split at h
    · rename_i hnum
      split at h
      · cases h
      rename_i hi
      rw [not_not] at hi
      subst hi
      split at h
      · rename_i hint
        refine .inr ⟨by simpa [isScalarIntegerType] using hint, (Option.some.inj h).symm, e⟩
      · exact .inl ⟨(Option.some.inj h).symm, fun _ => .inr e⟩
    · rename_i hnum
      exact .inl ⟨(Option.some.inj h).symm, fun hn => absurd hn hnum⟩

/-- Two siblings are numerically apart unless they are numeric columns of one
family and one of them is a float. -/
def NumericApart (f g : LogicalField) : Prop :=
  familyBaseName f = familyBaseName g → isScalarNumericType f = true →
    isScalarNumericType g = true → isScalarFloatType f = false ∧ isScalarFloatType g = false

instance : DecidableRel NumericApart := fun f g =>
  inferInstanceAs (Decidable (familyBaseName f = familyBaseName g → isScalarNumericType f = true →
    isScalarNumericType g = true → isScalarFloatType f = false ∧ isScalarFloatType g = false))

theorem NumericApart.symm (h : NumericApart f g) : NumericApart g f :=
  fun hfam hg hf => (h hfam.symm hf hg).symm

theorem numericApart_of_ne (h : fields.Pairwise NumericApart) {j : Nat} (hf : fields[i]? = some f)
    (hg : fields[j]? = some g) (hij : i ≠ j) : NumericApart f g := by
  obtain ⟨hi, rfl⟩ := List.getElem?_eq_some_iff.mp hf
  obtain ⟨hj, rfl⟩ := List.getElem?_eq_some_iff.mp hg
  rw [pairwise_iff_getElem] at h
  rcases Nat.lt_or_gt_of_ne hij with hlt | hgt
  · exact h i j hi hj hlt
  · exact (h j i hj hi hgt).symm

theorem keepNumeric_eq_self (h : fields.Pairwise NumericApart) (hf : fields[i]? = some f) :
    keepNumeric fields i f = some f := by
  unfold keepNumeric
  rcases e : (numericFamilyPlan fields (familyBaseName f)).keepPosition with - | keep
  · rfl
  by_cases hnum : isScalarNumericType f = true
  · -- the float of the family, the column kept and `f` stand at one position
    obtain ⟨⟨k, hk, hkfam, hknum⟩, g, hg, hgfam, hgfloat⟩ := keepPosition_spec e
    obtain ⟨m, hm⟩ := getElem?_of_mem hg
    have hgnum := isScalarNumericType_of_float hgfloat
    have hneq : isScalarFloatType g ≠ false := by simp [hgfloat]
    have him : i = m := by
      by_contra hne
      exact hneq (numericApart_of_ne h hf hm hne hgfam.symm hnum hgnum).2
    have hkm : keep = m := by
      by_contra hne
      exact hneq (numericApart_of_ne h hk hm hne (hkfam.trans hgfam.symm) hknum hgnum).2
    obtain rfl : f = g := by
      rw [him, hm] at hf
      exact (Option.some.inj hf).symm
    have hint : isScalarIntegerType f = false := by
      rw [isScalarFloatType_iff] at hgfloat
      simp [isScalarIntegerType, hgfloat]
    simp [him, hkm, hint]
  · simp [hnum]

theorem survivors_eq_self (h : fields.Pairwise NumericApart) : survivors fields = fields := by
  have hall : ∀ p ∈ fields.zipIdx, keepNumeric fields p.2 p.1 = some p.1 := by
    rintro ⟨f, i⟩ hp
    exact keepNumeric_eq_self h (mk_mem_zipIdx_iff_getElem?.mp hp)
  rw [survivors, filterMap_congr hall]
  show fields.zipIdx.filterMap (some ∘ Prod.fst) = fields
  rw [filterMap_eq_map]
  exact zipIdx_map_fst 0 fields

theorem mem_survivors :
    g ∈ survivors fields ↔ ∃ i f, fields[i]? = some f ∧ keepNumeric fields i f = some g := by
  simp only [survivors, mem_filterMap, Prod.exists]
  constructor
  · rintro ⟨f, i, hp, hk⟩
    exact ⟨i, f, mk_mem_zipIdx_iff_getElem?.mp hp, hk⟩
  · rintro ⟨i, f, hf, hk⟩
    exact ⟨f, i, mk_mem_zipIdx_iff_getElem?.mpr hf, hk⟩

theorem keepNumeric_keeps (h : keepNumeric fields i f = some g) :
    g.name = f.name ∧ g.nullable = f.nullable ∧
      isScalarNumericType g = isScalarNumericType f := by
  rcases keepNumeric_cases h with ⟨rfl, -⟩ | ⟨hint, rfl, -⟩
  · exact ⟨rfl, rfl, rfl⟩
  · refine ⟨rfl, rfl, ?_⟩
    rw [isScalarNumericType_of_float (isScalarFloatType_iff.mpr rfl),
      isScalarNumericType_iff.mpr (.inl hint)]

/-- A numeric survivor is untouched in a family without floats, and otherwise
stands at the position its family keeps. -/
theorem keepNumeric_numeric
    (h : keepNumeric fields i f = some g) (hnum : isScalarNumericType f = true) :
    (numericPosition fields f = none ∧ g = f) ∨
      numericPosition fields f = some i := by
  rcases keepNumeric_cases h with ⟨rfl, hkeep⟩ | ⟨-, -, hkeep⟩
  · rcases hkeep hnum with hnone | hsome
    · exact .inl ⟨hnone, rfl⟩
    · exact .inr hsome
  · exact .inr hkeep

/-- No two survivors are numeric variants of one family. -/
theorem survivors_pairwise (fields : List LogicalField) :
    (survivors fields).Pairwise NumericApart := by
  have hlt : fields.zipIdx.Pairwise fun p q => p.2 < q.2 := by
    rw [← pairwise_map (f := Prod.snd), zipIdx_map_snd]
    exact pairwise_lt_range'
  rw [survivors, pairwise_filterMap]
  refine hlt.imp_of_mem ?_
  rintro ⟨f, i⟩ ⟨g, j⟩ hf hg hij f' hf' g' hg' hfam hnf hng
  obtain ⟨hfname, -, hfnum⟩ := keepNumeric_keeps hf'
  obtain ⟨hgname, -, hgnum⟩ := keepNumeric_keeps hg'
  have hfam' : familyBaseName f = familyBaseName g := by
    simpa [familyBaseName, hfname, hgname] using hfam
  have hsame : numericPosition fields f = numericPosition fields g := by
    rw [numericPosition, hfam']
  rcases keepNumeric_numeric hf' (hfnum ▸ hnf) with ⟨hnone, rfl⟩ | hsome
  · rcases keepNumeric_numeric hg' (hgnum ▸ hng) with ⟨-, rfl⟩ | hsome'
    · -- no column to keep: the family holds no float
      have hno := keepPosition_eq_none_iff.mp hnone
      exact ⟨hno _ (fst_mem_of_mem_zipIdx hf) rfl,
        hno _ (fst_mem_of_mem_zipIdx hg) hfam'.symm⟩
    · rw [← hsame, hnone] at hsome'
      cases hsome'
  · rcases keepNumeric_numeric hg' (hgnum ▸ hng) with ⟨hnone, -⟩ | hsome'
    · rw [← hsame, hsome] at hnone
      cases hnone
    · -- both stand at the position kept
      rw [← hsame, hsome] at hsome'
      cases hsome'
      exact absurd hij (lt_irrefl _)

/-! ### Emitting -/

variable {out : List LogicalField}

theorem newestNamed_mem {name : Bytes}
    (h : newestNamed out name = some g) : g ∈ out ∧ g.name = name := by
  obtain ⟨i, x, hx, hg, -⟩ := lastMatch?_eq_some_iff.mp h
  obtain ⟨hname, hsome⟩ := Option.ite_none_right_eq_some.mp hg
  cases hsome
  exact ⟨mem_of_getElem? hx, hname⟩

theorem newestNamed_eq_none_iff {name : Bytes} :
    newestNamed out name = none ↔ name ∉ out.map FieldOf.name := by
  simp only [newestNamed, lastMatch?_eq_none_iff, ite_eq_right_iff, reduceCtorEq, imp_false,
    mem_map, not_exists, not_and]
  constructor
  · intro h g hg
    obtain ⟨i, hi⟩ := getElem?_of_mem hg
    exact h i g hi
  · intro h i g hg
    exact h g (mem_of_getElem? hg)

/-- A field echoes an emitted vector if the newest field of its name has its
type: the loop skips such a field. -/
def Echoes (out : List LogicalField) (f : LogicalField) : Prop :=
  ∃ g, newestNamed out f.name = some g ∧ f.type ≠ none ∧ g.type = f.type

theorem emitField_of_echoes
    (h : Echoes out (canonicalizeVersionedNameForType f)) : emitField out f = out := by
  obtain ⟨g, hg, htyped, heq⟩ := h
  have hsome : (canonicalizeVersionedNameForType f).type.isSome = true :=
    Option.isSome_iff_ne_none.mpr htyped
  simp only [emitField, hg, heq, hsome, Bool.and_self, beq_self_eq_true, if_true]

theorem emitField_of_not_echoes (h : ¬ Echoes out (canonicalizeVersionedNameForType f)) :
    emitField out f = out ++ [canonicalizeVersionedNameForType f] := by
  simp only [emitField]
  split
  · rename_i g hg
    refine if_neg fun hcond => h ⟨g, hg, ?_, ?_⟩
    · simp only [Bool.and_eq_true] at hcond
      exact Option.isSome_iff_ne_none.mp hcond.1.2
    · simp only [Bool.and_eq_true, beq_iff_eq] at hcond
      exact hcond.2
  · rfl

/-- No field of the vector echoes the fields before it. -/
def NoEcho (fields : List LogicalField) : Prop :=
  ∀ pre f post, fields = pre ++ f :: post → ¬ Echoes pre f

theorem noEcho_nil : NoEcho [] := by
  intro pre f post h
  simp at h

theorem NoEcho.concat (h : NoEcho out) (hf : ¬ Echoes out f) : NoEcho (out ++ [f]) := by
  intro pre g post heq
  rcases eq_nil_or_concat post with rfl | ⟨post', x, rfl⟩
  · obtain ⟨rfl, hg⟩ := append_inj' heq rfl
    cases hg
    exact hf
  · rw [concat_eq_append, ← cons_append, ← append_assoc] at heq
    exact h pre g post' (append_inj' heq rfl).1

theorem noEcho_of_nodup (h : (fields.map FieldOf.name).Nodup) : NoEcho fields := by
  rintro pre f post rfl ⟨g, hg, -, -⟩
  obtain ⟨hmem, hname⟩ := newestNamed_mem hg
  rw [map_append, nodup_append'] at h
  exact h.2.2 (mem_map_of_mem hmem) (by simp [hname])

theorem foldl_emitField_eq : ∀ {l out : List LogicalField},
    NoEcho (out ++ l.map canonicalizeVersionedNameForType) →
    l.foldl emitField out = out ++ l.map canonicalizeVersionedNameForType
  | [], out, _ => by simp
  | f :: l, out, h => by
    have hf : ¬ Echoes out (canonicalizeVersionedNameForType f) := h out _ _ rfl
    rw [foldl_cons, emitField_of_not_echoes hf, foldl_emitField_eq]
    · simp
    · simpa using h

theorem foldl_emitField_noEcho : ∀ {l out : List LogicalField}, NoEcho out →
    NoEcho (l.foldl emitField out)
  | [], _, h => h
  | f :: l, out, h => by
    rw [foldl_cons]
    apply foldl_emitField_noEcho
    by_cases hf : Echoes out (canonicalizeVersionedNameForType f)
    · rwa [emitField_of_echoes hf]
    · rw [emitField_of_not_echoes hf]
      exact h.concat hf

theorem foldl_emitField_sublist : ∀ {l out : List LogicalField},
    (l.foldl emitField out).Sublist (out ++ l.map canonicalizeVersionedNameForType)
  | [], out => by simp
  | f :: l, out => by
    rw [foldl_cons]
    refine foldl_emitField_sublist.trans ?_
    by_cases hf : Echoes out (canonicalizeVersionedNameForType f)
    · rw [emitField_of_echoes hf, map_cons]
      exact (List.Sublist.refl out).append (sublist_cons_self _ _)
    · rw [emitField_of_not_echoes hf, append_assoc]
      rfl

/-! ### Normal form of a level -/

/-- **Normal form of one level**: every version suffix names its type, a family
with a float has no other numeric column, and no column echoes another. -/
structure NormalLevel (fields : List LogicalField) : Prop where
  named : ∀ f ∈ fields, canonicalizeVersionedNameForType f = f
  apart : fields.Pairwise NumericApart
  noEcho : NoEcho fields

theorem normalizeLevel_eq_map (hapart : fields.Pairwise NumericApart)
    (hecho : NoEcho (fields.map canonicalizeVersionedNameForType)) :
    normalizeLevel fields = fields.map canonicalizeVersionedNameForType := by
  rw [normalizeLevel, survivors_eq_self hapart]
  exact foldl_emitField_eq hecho

theorem normalizeLevel_eq_self (h : NormalLevel fields) : normalizeLevel fields = fields := by
  have hmap : fields.map canonicalizeVersionedNameForType = fields :=
    (map_congr_left h.named).trans (map_id' fields)
  rw [normalizeLevel_eq_map h.apart (hmap.symm ▸ h.noEcho), hmap]

theorem normalizeLevel_sublist (fields : List LogicalField) :
    (normalizeLevel fields).Sublist
      ((survivors fields).map canonicalizeVersionedNameForType) := by
  have h : (normalizeLevel fields).Sublist
      ([] ++ (survivors fields).map canonicalizeVersionedNameForType) := foldl_emitField_sublist
  rwa [nil_append] at h

theorem mem_normalizeLevel (h : g ∈ normalizeLevel fields) :
    ∃ f ∈ survivors fields, canonicalizeVersionedNameForType f = g := by
  simpa using (normalizeLevel_sublist fields).subset h

theorem NumericApart.canonicalize (h : NumericApart f g) :
    NumericApart (canonicalizeVersionedNameForType f) (canonicalizeVersionedNameForType g) := by
  simpa [NumericApart, isScalarNumericType, isScalarIntegerType, isScalarFloatType] using h

/-- **Normalizing a level brings it into normal form.** -/
theorem normalizeLevel_normal (fields : List LogicalField) :
    NormalLevel (normalizeLevel fields) where
  named := by
    intro g hg
    obtain ⟨f, -, rfl⟩ := mem_normalizeLevel hg
    exact canonicalize_idem f
  apart := by
    refine List.Pairwise.sublist (normalizeLevel_sublist fields) ?_
    rw [pairwise_map]
    exact (survivors_pairwise fields).imp NumericApart.canonicalize
  noEcho := foldl_emitField_noEcho noEcho_nil

/-! ### Normal form of a schema -/

/-- Every struct level of the tree is in normal form. -/
def NormalNode : LogicalType → Prop
  | .struct fields => NormalLevel fields
  | _ => True

theorem normalizeLevel_type (hg : g ∈ normalizeLevel fields) (ht : g.type = some t) :
    (∃ f ∈ fields, f.type = some t) ∨ t = .scalar .float64 := by
  obtain ⟨f, hf, rfl⟩ := mem_normalizeLevel hg
  obtain ⟨i, f₀, hi, hkeep⟩ := mem_survivors.mp hf
  rw [canonicalize_type] at ht
  rcases keepNumeric_cases hkeep with ⟨rfl, -⟩ | ⟨-, rfl, -⟩
  · exact .inl ⟨_, mem_of_getElem? hi, ht⟩
  · cases ht
    exact .inr rfl

theorem mapType_eq_self {g : LogicalType → LogicalType}
    (h : ∀ t, f.type = some t → g t = t) : f.mapType g = f := by
  obtain ⟨n, v, b⟩ := f
  rcases v with - | t
  · rfl
  · simp [FieldOf.mapType, h t rfl]

theorem map_mapType_eq_self {g : LogicalType → LogicalType}
    (h : ∀ f ∈ fields, ∀ t, f.type = some t → g t = t) : fields.map (FieldOf.mapType g) = fields :=
  (map_congr_left fun f hf => mapType_eq_self (h f hf)).trans (map_id' fields)

theorem normalizeIntegerFloatFields_eq (fields : List LogicalField) :
    normalizeIntegerFloatFields fields
      = normalizeLevel (fields.map (FieldOf.mapType normalizeIntegerFloatType)) := by
  rw [normalizeIntegerFloatFields, normalizeNested_eq]

theorem levelMap_normalize : LevelMap normalizeIntegerFloatType normalizeIntegerFloatFields where
  scalar := fun _ => rfl
  struct := fun _ => rfl
  list := normalizeIntegerFloatType_list
  types := by
    intro fields g t hg ht
    rw [normalizeIntegerFloatFields_eq] at hg
    refine (normalizeLevel_type hg ht).imp_left fun ⟨f', hf', ht⟩ => ?_
    obtain ⟨f, hf, rfl⟩ := mem_map.mp hf'
    exact ⟨f, hf, Option.map_eq_some_iff.mp ht⟩

/-- **Every level of a normalized type is in normal form.** -/
theorem normalizeIntegerFloatType_normal (t : LogicalType) :
    (normalizeIntegerFloatType t).Forall NormalNode := by
  refine levelMap_normalize.all (P := fun _ => True) (fun _ => trivial) id (fun _ => trivial)
    (fun fields _ => ?_) fun _ _ => trivial
  rw [normalizeIntegerFloatFields_eq]
  exact normalizeLevel_normal _

/-- **A type in normal form is left alone.** -/
theorem normalizeIntegerFloatType_eq_self (h : t.Forall NormalNode) :
    normalizeIntegerFloatType t = t := by
  refine levelMap_normalize.rule (R := fun t u => u = t) (fun _ => rfl) (fun _ => rfl)
    (fun hu => by rw [hu]) (fun {fields} hlevel ih => ?_) h
  rw [normalizeIntegerFloatFields_eq, map_mapType_eq_self ih, normalizeLevel_eq_self hlevel]

/-- **Normalizing is idempotent.** -/
theorem normalizeIntegerFloatType_idem (t : LogicalType) :
    normalizeIntegerFloatType (normalizeIntegerFloatType t) = normalizeIntegerFloatType t :=
  normalizeIntegerFloatType_eq_self (normalizeIntegerFloatType_normal t)

theorem normalizeIntegerFloatFields_idem (fields : List LogicalField) :
    normalizeIntegerFloatFields (normalizeIntegerFloatFields fields)
      = normalizeIntegerFloatFields fields :=
  LogicalType.struct.inj (normalizeIntegerFloatType_idem (.struct fields))

/-- **One pass is enough.**  Normalizing a schema twice is normalizing it once, and at
every struct level of the result a family with a float column has no other numeric
column. -/
theorem normalize_reaches_normal_form (schema : LogicalSchema) :
    normalizeIntegerFloatSchema (normalizeIntegerFloatSchema schema)
        = normalizeIntegerFloatSchema schema ∧
      ∀ fields : List LogicalField,
        .struct fields ∈ (LogicalType.struct (normalizeIntegerFloatSchema schema).fields).subtypes →
        ∀ (i j : Nat) (f g : LogicalField), fields[i]? = some f → fields[j]? = some g → i ≠ j →
          familyBaseName f = familyBaseName g → isScalarFloatType f = true →
          isScalarNumericType g = false := by
  constructor
  · exact congrArg LogicalSchema.mk (normalizeIntegerFloatFields_idem schema.fields)
  · intro fields hfields i j f g hf hg hij hfamily hfloat
    have hlevel : NormalLevel fields :=
      normalizeIntegerFloatType_normal (.struct schema.fields) (.struct fields) hfields
    by_contra hnumeric
    rw [Bool.not_eq_false] at hnumeric
    have hapart := numericApart_of_ne hlevel.apart hf hg hij hfamily
      (isScalarNumericType_of_float hfloat) hnumeric
    rw [hfloat] at hapart
    exact absurd hapart.1 (by simp)

/-- A family of an integer and a float column, and a float column of another family. -/
def numericSample : LogicalSchema where
  fields := [⟨bytes "a", some (.scalar .int64), true⟩,
    ⟨bytes "a_v2_float", some (.scalar .float64), true⟩,
    ⟨bytes "b", some (.scalar .float64), true⟩]

theorem normalize_reaches_normal_form_sample :
    normalizeIntegerFloatSchema numericSample
        = ⟨[⟨bytes "a", some (.scalar .float64), true⟩,
          ⟨bytes "b", some (.scalar .float64), true⟩]⟩ ∧
      normalizeIntegerFloatSchema (normalizeIntegerFloatSchema numericSample)
        = normalizeIntegerFloatSchema numericSample :=
  ⟨rfl, (normalize_reaches_normal_form numericSample).1⟩

end SchemaSanitizer
