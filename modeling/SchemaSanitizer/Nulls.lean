/-
SchemaSanitizer/Nulls.lean

Null in a registry merge.

An incoming null goes down through the elements of lists and the wrapper fields
of structs until it meets a scalar, which keeps its type.  Where the way ends
before, it leaves a mark: a struct without wrapper field gets one of type null, an
untyped wrapper field becomes null, and a list without an element type refuses
it.  `absorbsNull` is that way, and `mergeTypes_null_iff` says that it decides
when null changes nothing.

In the other direction an all-null field is a scalar like any other: it takes
scalars, and refuses structs and lists (`mergeTypes_into_null`), which then
go to another member of the family.
-/
import SchemaSanitizer.Reachable

namespace SchemaSanitizer

open List

/-! ### An incoming null -/

mutual

/-- An incoming null ends at a scalar: through list elements, and in a struct
through the first field called `key`. -/
def absorbsNull (key : Bytes) : LogicalType → Bool
  | .scalar _ => true
  | .struct fs => absorbsNullFields key fs
  | .list v => absorbsNullValue key v

/-- The element of a list or the type of a field; it has to be there. -/
def absorbsNullValue (key : Bytes) : Option LogicalType → Bool
  | none => false
  | some t => absorbsNull key t

/-- A wrapper field. -/
def absorbsNullField (key : Bytes) : LogicalField → Bool
  | ⟨_, v, _⟩ => absorbsNullValue key v

/-- The fields of a struct. -/
def absorbsNullFields (key : Bytes) : List LogicalField → Bool
  | [] => false
  | f :: fs => if f.name = key then absorbsNullField key f else absorbsNullFields key fs

end

theorem promotionDrifts_eq_nil_iff {path name : Bytes} {before after : LogicalType}
    {drifts : List DriftEvent} :
    promotionDrifts path name before after drifts = [] ↔ before = after ∧ drifts = [] := by
  rw [promotionDrifts]
  split
  · rename_i h
    simp [h.1]
  · rename_i h
    by_cases heq : before = after
    · simp [heq]
    · simp only [heq, false_and, iff_false]
      exact fun hnil => h ⟨heq, hnil⟩

theorem wrapScalarField_null_iff {key : Bytes} (path : Bytes) {f : LogicalField}
    (ih : ∀ t, f.type = some t → ∀ path,
      mergeScalarInto key .null t path = some (t, []) ↔ absorbsNull key t = true) :
    wrapScalarField key .null f path = some (f, []) ↔ absorbsNullField key f = true := by
  obtain ⟨n, v, b⟩ := f
  rcases v with - | t
  · simp [wrapScalarField, absorbsNullField, absorbsNullValue]
  · rw [absorbsNullField, absorbsNullValue, ← ih t rfl path, wrapScalarField, mergeScalarValue]
    rcases hmerged : mergeScalarInto key .null t path with - | ⟨t', drifts⟩
    · simp
    · simp only [Option.map_some, Option.some.injEq, Prod.mk.injEq, FieldOf.mk.injEq, true_and,
        and_true, promotionDrifts_eq_nil_iff]
      constructor
      · rintro ⟨rfl, -, hnil⟩
        exact ⟨rfl, hnil⟩
      · rintro ⟨rfl, hnil⟩
        exact ⟨rfl, rfl, hnil⟩

theorem wrapScalar_null_iff {key : Bytes} (path : Bytes) : ∀ {fs : List LogicalField},
    (∀ f ∈ fs, ∀ t, f.type = some t → ∀ path,
      mergeScalarInto key .null t path = some (t, []) ↔ absorbsNull key t = true) →
    (wrapScalar key .null fs path = some (fs, []) ↔ absorbsNullFields key fs = true)
  | [], _ => by simp [wrapScalar, absorbsNullFields]
  | f :: fs, ih => by
    rw [wrapScalar, absorbsNullFields]
    split
    · -- the wrapper field
      rw [← wrapScalarField_null_iff path (ih f mem_cons_self)]
      rcases wrapScalarField key .null f path with - | ⟨f', drifts⟩ <;> simp
    · rw [← wrapScalar_null_iff path fun g hg => ih g (mem_cons_of_mem _ hg)]
      rcases wrapScalar key .null fs path with - | ⟨fs', drifts⟩ <;> simp

theorem mergeScalarInto_null_iff (key : Bytes) (t : LogicalType) :
    ∀ path, mergeScalarInto key .null t path = some (t, []) ↔ absorbsNull key t = true := by
  induction t with
  | scalar k =>
    intro path
    simp [mergeScalarInto, mergeScalarKinds, absorbsNull]
  | struct fs ih =>
    intro path
    rw [mergeScalarInto, absorbsNull, ← wrapScalar_null_iff (joinPath path key) ih]
    rcases wrapScalar key .null fs (joinPath path key) with - | ⟨fs', drifts⟩ <;> simp
  | listNone =>
    intro path
    simp [mergeScalarInto, mergeScalarValue, absorbsNull, absorbsNullValue]
  | listSome t ih =>
    intro path
    rw [mergeScalarInto, absorbsNull, absorbsNullValue, ← ih (path ++ bytes "[]"),
      mergeScalarValue]
    rcases mergeScalarInto key .null t (path ++ bytes "[]") with - | ⟨t', drifts⟩ <;> simp

/-- **Null is absorbed exactly where it meets a scalar.** -/
theorem mergeTypes_null_iff (key path : Bytes) (t : LogicalType) :
    mergeTypes key t (.scalar .null) path = some (t, []) ↔
      absorbsNull (wrapperKey key) t = true := by
  cases t with
  | list v => cases v <;> exact mergeScalarInto_null_iff _ _ path
  | scalar | struct => exact mergeScalarInto_null_iff _ _ path

/-! ### An all-null field -/

/-- `is_scalar_type`. -/
def isScalarType : LogicalType → Bool
  | .scalar _ => true
  | _ => false

theorem mergeTypes_into_null (key path : Bytes) (t : LogicalType) :
    mergeTypes key (.scalar .null) t path = if isScalarType t then some (t, []) else none := by
  cases t with
  | scalar k => cases k <;> rfl
  | struct fs => rfl
  | list v => rfl

/-- A field whose type refuses the incoming one keeps its place and type. -/
theorem mergeField_refused {key : Bytes} (parentPath : Bytes) {out : List LogicalField} {i : Nat}
    {f : LogicalField} (incoming : LogicalField) {c t : LogicalType}
    (hpos : newestPosition out incoming.name = some (i, f)) (hc : f.type = some c)
    (ht : incoming.type = some t) (hfail : ∀ path, mergeTypes key c t path = none) :
    (mergeField key out incoming parentPath).1[i]? = some f := by
  obtain ⟨n, v, b⟩ := incoming
  obtain rfl : v = some t := ht
  obtain ⟨hf, -⟩ := newestPosition_eq_some hpos
  have hlt : i < out.length := (List.getElem?_eq_some_iff.mp hf).1
  simp only [mergeField, mergeIncoming, hpos, hc, mergeElement, hfail]
  generalize joinPath parentPath (sourceSegmentForOutput n) = path
  rcases mergeIntoExistingFamilyVariant_cases out (variantFamilyBase n) (some i) t path
      fun base => mergeTypes key base t path with
    ⟨j, g, -, -, -, -, h⟩ | ⟨j, g, d, r, -, -, hskip, -, -, -, -, h⟩ | ⟨h, -⟩
  · rw [h]
    exact hf
  · rw [h]
    have hne : j ≠ i := fun hji => hskip (congrArg some hji.symm)
    rw [Option.getD_some, getElem?_set_ne hne]
    exact hf
  · rw [h, Option.getD_none, appendVariant, getElem?_append_left hlt]
    exact hf

/-- **When null carries no shape.**  An incoming null leaves a type as it is, without
drift, exactly if its way down ends at a scalar; and the newest all-null field of a
name takes a later type exactly if that type is a scalar. -/
theorem null_carries_no_shape_iff (key path parentPath : Bytes) (t : LogicalType)
    (nullable : Bool) (out : List LogicalField) (i : Nat) (f : LogicalField)
    (hpos : newestPosition out f.name = some (i, f)) (hnull : f.type = some (.scalar .null)) :
    (mergeTypes key t (.scalar .null) path = some (t, []) ↔
      absorbsNull (wrapperKey key) t = true) ∧
    ((mergeField key out ⟨f.name, some t, nullable⟩ parentPath).1 =
        out.set i { f with type := some t } ↔
      isScalarType t = true) := by
  refine ⟨mergeTypes_null_iff key path t, ?_⟩
  have hmerge := fun path => mergeTypes_into_null key path t
  constructor
  · intro heq
    by_contra hscalar
    have hkept := mergeField_refused parentPath ⟨f.name, some t, nullable⟩ hpos hnull rfl
      fun path => (hmerge path).trans (if_neg hscalar)
    have hlt := (List.getElem?_eq_some_iff.mp (newestPosition_eq_some hpos).1).1
    -- the field would have the types null and `t` at once
    rw [heq, getElem?_set_self hlt] at hkept
    have htype : some t = f.type := congrArg FieldOf.type (Option.some.inj hkept)
    rw [hnull] at htype
    exact hscalar (Option.some.inj htype ▸ rfl)
  · intro hscalar
    simp only [mergeField, mergeIncoming, hpos, hnull, mergeElement, hmerge, hscalar, if_true]

/-- A null column takes an integer, and a struct with a wrapper field takes a null. -/
theorem null_carries_no_shape_sample :
    (mergeTypes [] (sampleStruct ["default_key"]) (.scalar .null) [] =
        some (sampleStruct ["default_key"], [])) ∧
    (mergeField [] [sampleField "a" (.scalar .null)] (sampleField "a" (.scalar .int64)) []).1 =
      [sampleField "a" (.scalar .int64)] :=
  ⟨(null_carries_no_shape_iff [] [] [] (sampleStruct ["default_key"]) true
      [sampleField "a" (.scalar .null)] 0 (sampleField "a" (.scalar .null)) rfl rfl).1.mpr rfl,
    (null_carries_no_shape_iff [] [] [] (.scalar .int64) true
      [sampleField "a" (.scalar .null)] 0 (sampleField "a" (.scalar .null)) rfl rfl).2.mpr rfl⟩

/-- **Null leaves a shape**: a struct gets a null column and a drift, and an all-null
column `a` does not become a struct but gets a sibling `a_v2_struct`. -/
theorem null_leaves_a_shape :
    mergeTypes (bytes "default_key") (sampleStruct ["x"]) (.scalar .null) (bytes "a") =
      some (.struct [sampleField "x" (.scalar .int64), sampleField "default_key" (.scalar .null)],
        [⟨bytes "a.default_key", bytes "default_key", .newlyAdded, none, bytes "null"⟩]) ∧
    (mergeField (bytes "default_key") [sampleField "a" (.scalar .null)]
        (sampleField "a" (sampleStruct ["x"])) []).1 =
      [sampleField "a" (.scalar .null), sampleField "a_v2_struct" (sampleStruct ["x"])] := by
  decide +kernel

end SchemaSanitizer
