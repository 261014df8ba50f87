/-
SchemaSanitizer/Absent.lean

Fields that behave like absent ones.  A field that matches no planned field and
is an empty container can be added to a row, or to any object that is converted
as a struct, and nothing changes: neither the cells nor the verdict of a strict
contract.

`Padded` describes the change of a value, relative to the plan it is converted
with: every column that converts the object in which a field is inserted reads
it as a struct.  The condition matters, because a column with a flattened name
may read the same object as text.  Only empty
containers are treated so.  An unknown field that is null is refused by a strict
contract (`strict_unknown_null_refused`).
-/
import SchemaSanitizer.Reading
import SchemaSanitizer.Strict

namespace SchemaSanitizer

open Lib List

/-! ### Inserted fields -/

/-- A field that matches no planned field and is an empty container. -/
def IsPadding (opts : ConvertOptions) (layout : StructLayout) (f : Bytes × Value) : Prop :=
  matchesPlannedField layout opts.toNameOptions f.1 = false ∧ f.2.containerIsEmpty = true

/-- A member of a family that does not get a value. -/
def PassedOver (opts : ConvertOptions) (columns : List ColumnPlan) (index : Nat)
    (column : ColumnPlan)
    (v : Value) : Prop :=
  column.hasVariantSibling = true ∧ preferredVariant opts columns column index v ≠ index

/-- The second value has one more padding field in an object that the plan
converts as a struct. -/
inductive Padded (opts : ConvertOptions) : ColumnPlan → Value → Value → Prop
  | insert {plan : ColumnPlan} {layout : StructLayout} {pre post : Row} {f : Bytes × Value} :
      plan.kind = .struct → plan.layout = some layout → pre ++ post ≠ [] → IsPadding opts layout f →
      Padded opts plan (.object (pre ++ post)) (.object (pre ++ f :: post))
  | field {plan child : ColumnPlan} {pre post : Row} {key : Bytes} {v v' : Value} :
      plan.kind = .struct → Padded opts child v v' →
      (∀ index column, plan.children[index]? = some column →
        childFieldIndex opts plan.layout plan.children (pre ++ (key, v) :: post) index column =
          some pre.length →
        ¬ PassedOver opts plan.children index column v → Padded opts column v v') →
      Padded opts plan (.object (pre ++ (key, v) :: post)) (.object (pre ++ (key, v') :: post))
  | wrapped {plan child : ColumnPlan} {v v' : Value} :
      plan.kind = .struct → v.isObject = false → Padded opts child v v' →
      (∀ column ∈ plan.children,
        fieldNameMatchesOutput opts.toNameOptions opts.defaultKeyName column.name = true →
        Padded opts column v v') →
      Padded opts plan v v'
  | element {plan elem : ColumnPlan} {pre post : List Value} {v v' : Value} :
      plan.kind = .list → plan.value = some elem → Padded opts elem v v' →
      Padded opts plan (.array (pre ++ v :: post)) (.array (pre ++ v' :: post))
  | single {plan elem : ColumnPlan} {v v' : Value} :
      plan.kind = .list → v.isArray = false → plan.value = some elem → Padded opts elem v v' →
      Padded opts plan v v'

section Padding

variable {opts : ConvertOptions} {plan : ColumnPlan} {v v' : Value}

/-- Both values are containers of one kind, and not empty. -/
def SameShape : Value → Value → Prop
  | .array vs, .array vs' => vs ≠ [] ∧ vs' ≠ []
  | .object fs, .object fs' => fs ≠ [] ∧ fs' ≠ []
  | _, _ => False

theorem Padded.sameShape (h : Padded opts plan v v') : SameShape v v' := by
  induction h with
  | insert _ _ hne _ => exact ⟨hne, by simp⟩
  | field | element => exact ⟨by simp, by simp⟩
  | wrapped _ _ _ _ ih _ => exact ih
  | single _ _ _ _ ih => exact ih

section

variable (h : SameShape v v')

include h

theorem SameShape.containerIsEmpty : v.containerIsEmpty = false ∧ v'.containerIsEmpty = false := by
  unfold SameShape at h
  split at h
  · rename_i vs vs'
    obtain ⟨⟨_, _, rfl⟩, ⟨_, _, rfl⟩⟩ := h.imp exists_cons_of_ne_nil exists_cons_of_ne_nil
    exact ⟨rfl, rfl⟩
  · rename_i fs fs'
    obtain ⟨⟨_, _, rfl⟩, ⟨_, _, rfl⟩⟩ := h.imp exists_cons_of_ne_nil exists_cons_of_ne_nil
    exact ⟨rfl, rfl⟩
  · exact h.elim

theorem SameShape.ne_null : v ≠ .null ∧ v' ≠ .null := by
  constructor
  · rintro rfl
    exact h
  · rintro rfl
    cases v <;> exact h

theorem SameShape.isObject : v.isObject = v'.isObject := by
  unfold SameShape at h
  split at h <;> first | rfl | exact h.elim

theorem SameShape.isArray : v.isArray = v'.isArray := by
  unfold SameShape at h
  split at h <;> first | rfl | exact h.elim

theorem SameShape.score (column : ColumnPlan) :
    variantCompatibilityScore opts column v = variantCompatibilityScore opts column v' := by
  unfold SameShape at h
  split at h <;> first | rfl | exact h.elim

theorem SameShape.preferredVariant (columns : List ColumnPlan) (column : ColumnPlan) (index : Nat) :
    preferredVariant opts columns column index v =
    preferredVariant opts columns column index v' := by
  have hstep : preferSibling opts columns v = preferSibling opts columns v' := by
    funext best sibling
    simp only [preferSibling, h.score]
  rw [SchemaSanitizer.preferredVariant, SchemaSanitizer.preferredVariant, hstep]

end

/-! ### Conversion of a padded value -/

theorem convertSiblings_congr {columns : List ColumnPlan}
    {source source' : Nat → ColumnPlan → Option Value} :
    ∀ {rest : List ColumnPlan} {index : Nat},
    (∀ k column, rest[k]? = some column →
      convertSibling opts columns (index + k) column (sourceValue (source' (index + k) column))
          (convertValue opts column) =
        convertSibling opts columns (index + k) column (sourceValue (source (index + k) column))
          (convertValue opts column)) →
    convertSiblings opts columns source' index rest = convertSiblings opts columns source index rest
  | [], _, _ => by rw [convertSiblings, convertSiblings]
  | column :: rest, index, h => by
    have hrest := @convertSiblings_congr columns source source' rest (index + 1) fun k c hc => by
      rw [Nat.add_assoc, Nat.add_comm 1 k]
      exact h (k + 1) c hc
    have hfirst := h 0 column rfl
    rw [Nat.add_zero] at hfirst
    rw [convertSiblings, convertSiblings, hrest, hfirst]

theorem convertWrapped_congr : ∀ {rest : List ColumnPlan},
    (∀ child ∈ rest,
      fieldNameMatchesOutput opts.toNameOptions opts.defaultKeyName child.name = true →
      convertValue opts child v' = convertValue opts child v) →
    convertWrapped opts v' rest = convertWrapped opts v rest
  | [], _ => by rw [convertWrapped, convertWrapped]
  | child :: rest, h => by
    have hrest := convertWrapped_congr fun c hc => h c (mem_cons_of_mem child hc)
    rw [convertWrapped, convertWrapped, hrest]
    by_cases hmatch : fieldNameMatchesOutput opts.toNameOptions opts.defaultKeyName child.name =
      true
    · simp only [hmatch, if_true, h child mem_cons_self hmatch]
    · simp only [hmatch, Bool.false_eq_true, if_false]

/-- A member of a family that is passed over has no say. -/
theorem convertSibling_padded (hshape : SameShape v v') {columns : List ColumnPlan} {index : Nat}
    {column : ColumnPlan} {convert : Value → Except CoerceError Cell}
    (h : ¬ PassedOver opts columns index column v → convert v' = convert v) :
    convertSibling opts columns index column v' convert =
      convertSibling opts columns index column v convert := by
  rw [convertSibling.eq_2 _ _ _ _ _ _ hshape.ne_null.1,
    convertSibling.eq_2 _ _ _ _ _ _ hshape.ne_null.2,
    ← hshape.preferredVariant]
  split
  · rfl
  · rename_i hpassed
    have hkept : ¬ PassedOver opts columns index column v := by
      rintro ⟨hvariant, hother⟩
      simp [hvariant, hother] at hpassed
    rw [h hkept]

theorem sourceValue_of_nonempty (h : v.containerIsEmpty = false) : sourceValue (some v) = v := by
  rw [sourceValue, h]
  rfl

/-- Replacing the value of one field is seen only by the child that reads this field. -/
theorem objectChildValue_replace {layout : Option StructLayout} {children : List ColumnPlan}
    {pre post : Row} {key : Bytes} (hshape : SameShape v v') {index : Nat} {column : ColumnPlan}
    {R : Value → Value → Prop} (hrefl : ∀ w, R w w)
    (hread : childFieldIndex opts layout children (pre ++ (key, v) :: post) index column =
      some pre.length → R v v') :
    R (sourceValue (objectChildValue opts layout children (pre ++ (key, v) :: post) index column))
      (sourceValue (objectChildValue opts layout children
        (pre ++ (key, v') :: post) index column)) := by
  have hprofile : (pre ++ (key, v) :: post).map fieldProfile =
      (pre ++ (key, v') :: post).map fieldProfile := by
    simp only [map_append, map_cons, fieldProfile, hshape.containerIsEmpty.1,
      hshape.containerIsEmpty.2]
  rw [objectChildValue_eq, objectChildValue_eq, ← childFieldIndex_congr hprofile]
  rcases hindex : childFieldIndex opts layout children (pre ++ (key, v) :: post) index column
    with - | position
  · exact hrefl _
  by_cases hposition : position = pre.length
  · -- the column reads the field that differs
    subst hposition
    have hat : ∀ w : Value, valueAt (pre ++ (key, w) :: post) pre.length = some w := by
      intro w
      simp [valueAt]
    rw [Option.bind_some, Option.bind_some, hat, hat,
      sourceValue_of_nonempty hshape.containerIsEmpty.1,
      sourceValue_of_nonempty hshape.containerIsEmpty.2]
    exact hread hindex
  · have hsame : valueAt (pre ++ (key, v) :: post) position =
        valueAt (pre ++ (key, v') :: post) position := by
      rw [valueAt, valueAt]
      rcases Nat.lt_or_gt_of_ne hposition with hlt | hgt
      · rw [getElem?_append_left hlt, getElem?_append_left hlt]
      · have hsub : position - pre.length = (position - pre.length - 1) + 1 := by omega
        rw [getElem?_append_right (by omega), getElem?_append_right (by omega), hsub,
          getElem?_cons_succ, getElem?_cons_succ]
    rw [Option.bind_some, Option.bind_some, hsame]
    exact hrefl _

/-- **A padded value is converted to the same cell.** -/
theorem convertValue_padded (h : Padded opts plan v v') :
    convertValue opts plan v' = convertValue opts plan v := by
  induction h with
  | @insert plan layout pre post f hkind hlayout hne hpad =>
    have hextra : strictExtraField opts plan.layout plan.children (pre ++ f :: post) =
        strictExtraField opts plan.layout plan.children (pre ++ post) := by
      have hkeys : extraKeys opts layout (pre ++ f :: post) =
        extraKeys opts layout (pre ++ post) := by
        simp [extraKeys, hpad.2]
      rw [hlayout, strictExtraField, strictExtraField, findStrictExtraField, findStrictExtraField,
        hkeys]
    have hsource : objectChildValue opts plan.layout plan.children (pre ++ f :: post) =
        objectChildValue opts plan.layout plan.children (pre ++ post) := by
      funext index child
      rw [hlayout]
      exact objectChildValue_insert hpad.2 index child
    rw [convertValue_object hkind hne, convertValue_object hkind (by simp), hextra, hsource]
  | @field plan child pre post key v v' hkind hchild hread _ ihread =>
    have hshape := hchild.sameShape
    have hprofile : (pre ++ (key, v') :: post).map fieldProfile =
        (pre ++ (key, v) :: post).map fieldProfile := by
      simp only [map_append, map_cons, fieldProfile, hshape.containerIsEmpty.1,
        hshape.containerIsEmpty.2]
    rw [convertValue_object hkind (by simp), convertValue_object hkind (by simp),
      strictExtraField_congr hprofile, convertSiblings_congr]
    intro k column hcolumn
    rw [Nat.zero_add]
    exact objectChildValue_replace hshape
      (R := fun w w' => convertSibling opts plan.children k column w' (convertValue opts column) =
        convertSibling opts plan.children k column w (convertValue opts column)) (fun _ => rfl)
      fun hindex => convertSibling_padded hshape fun hkept => ihread k column hcolumn hindex hkept
  | @wrapped plan child v v' hkind hobject hchild hread _ ihread =>
    have hshape := hchild.sameShape
    rw [convertValue_wrapped hkind hobject hshape.ne_null.1 hshape.containerIsEmpty.1,
      convertValue_wrapped hkind (hshape.isObject ▸ hobject) hshape.ne_null.2
        hshape.containerIsEmpty.2, convertWrapped_congr ihread]
  | @element plan elem pre post v v' hkind hvalue _ ih =>
    rw [convertValue_list hkind (by simp) (by cases pre <;> rfl),
      convertValue_list hkind (by simp) (by cases pre <;> rfl), hvalue, convertList, convertList,
      mapM_append, mapM_append, mapM_cons, mapM_cons, ih]
  | @single plan elem v v' hkind harray hvalue hchild ih =>
    have hshape := hchild.sameShape
    have hsingle : ∀ w : Value, w.isArray = false →
        convertList opts plan w (some elem) = (do
          let cell ← convertValue opts elem w
          .ok (.list [cell])) := by
      intro w hw
      rw [convertList.eq_def]
      cases w <;> first | rfl | exact absurd hw Bool.noConfusion
    rw [convertValue_list hkind hshape.ne_null.1 hshape.containerIsEmpty.1,
      convertValue_list hkind hshape.ne_null.2 hshape.containerIsEmpty.2, hvalue,
      hsingle v harray, hsingle v' (hshape.isArray ▸ harray), ih]

end Padding

/-! ### Padded rows -/

/-- The second row has one more padding field, in the row itself or in an
object that every column converting it converts as a struct. -/
inductive PaddedRow (opts : ConvertOptions) (plan : CompiledPlan) : RowRef → RowRef → Prop
  | insert {pre post : Row} {f : Bytes × Value} {sourceFile : Bytes} :
      IsPadding opts plan.rootLayout f →
      PaddedRow opts plan ⟨pre ++ post, sourceFile⟩ ⟨pre ++ f :: post, sourceFile⟩
  | field {child : ColumnPlan} {pre post : Row} {key sourceFile : Bytes} {v v' : Value} :
      Padded opts child v v' →
      (∀ index column, plan.columns[index]? = some column →
        childFieldIndex opts (some plan.rootLayout) plan.columns
          (pre ++ (key, v) :: post) index column =
          some pre.length →
        ¬ PassedOver opts plan.columns index column v → Padded opts column v v') →
      PaddedRow opts plan ⟨pre ++ (key, v) :: post, sourceFile⟩
        ⟨pre ++ (key, v') :: post, sourceFile⟩

section PaddedRows

variable {opts : ConvertOptions} {plan : CompiledPlan} {row row' : RowRef}

theorem checkStrictRow_padded (h : PaddedRow opts plan row row') :
    checkStrictRow opts plan row' = checkStrictRow opts plan row := by
  have hfields : hasUnplannedField opts plan.rootLayout row'.fields =
      hasUnplannedField opts plan.rootLayout row.fields := by
    cases h with
    | insert hpad => simp [hasUnplannedField, hpad.2]
    | field hchild _ =>
      apply hasUnplannedField_congr
      simp only [map_append, map_cons, fieldProfile, hchild.sameShape.containerIsEmpty.1,
        hchild.sameShape.containerIsEmpty.2]
  rw [checkStrictRow, checkStrictRow, hfields]

/-- A row padded with nulls converts to the same columns. -/
theorem rootColumns_padded (h : PaddedRow opts plan row row') :
    convertSiblings opts plan.columns (rootSource opts plan row') 0 plan.columns =
      convertSiblings opts plan.columns (rootSource opts plan row) 0 plan.columns := by
  apply convertSiblings_congr
  intro k column hcolumn
  rw [Nat.zero_add, rootSource_eq row k (mem_of_getElem? hcolumn),
    rootSource_eq row' k (mem_of_getElem? hcolumn)]
  cases h with
  | insert hpad =>
    rw [objectChildValue_insert hpad.2]
    rfl
  | @field child pre post key sourceFile v v' hchild hread =>
    have hshape := hchild.sameShape
    have hfile : takesSourceFile ⟨pre ++ (key, v') :: post, sourceFile⟩ column =
        takesSourceFile ⟨pre ++ (key, v) :: post, sourceFile⟩ column := rfl
    rw [hfile]
    split
    · rfl
    · exact objectChildValue_replace hshape
        (R := fun w w' => convertSibling opts plan.columns k column w' (convertValue opts column) =
          convertSibling opts plan.columns k column w (convertValue opts column)) (fun _ => rfl)
        fun hindex => convertSibling_padded hshape fun hkept =>
          convertValue_padded (hread k column hcolumn hindex hkept)

theorem prepare_padded (h : Relation.ReflTransGen (PaddedRow opts plan) row row')
    (skippedRows : Nat) : prepareMaterializedRow opts plan row' skippedRows =
      prepareMaterializedRow opts plan row skippedRows := by
  induction h with
  | refl => rfl
  | tail _ hstep ih =>
    rw [← ih, prepareMaterializedRow, prepareMaterializedRow, convertMaterializedCells,
      convertMaterializedCells, checkStrictRow_padded hstep, rootColumns_padded hstep]

/-- A null is no empty container: the check of the row objects to it. -/
theorem prepare_unknown_null_fails (hstrict : opts.rejectsUnknown = true) {pre post : Row}
    {key sourceFile : Bytes}
    (hkey : matchesPlannedField plan.rootLayout opts.toNameOptions key = false)
    (skippedRows : Nat) :
    Fails (prepareMaterializedRow opts plan ⟨pre ++ (key, .null) :: post,
      sourceFile⟩ skippedRows) := by
  have hcheck : Fails (checkStrictRow opts plan ⟨pre ++ (key, .null) :: post, sourceFile⟩) := by
    rw [fails_checkStrictRow, hasUnplannedField, Option.isSome_map, find?_isSome]
    exact ⟨hstrict, (key, .null), by simp, by simp [hkey, Value.containerIsEmpty]⟩
  obtain ⟨message, hmessage⟩ := hcheck
  rw [prepareMaterializedRow, convertMaterializedCells, hmessage]
  exact fails_error message

/-- An object with an unknown null that the check of a struct finds: its key is not empty, and
it is the first unknown key where the check looks at the first one only. -/
def HasUnknownNull (opts : ConvertOptions) (target : ColumnPlan) (object : Row) : Prop :=
  ∃ layout pre post key, target.layout = some layout ∧ object = pre ++ (key, .null) :: post ∧
    matchesPlannedField layout opts.toNameOptions key = false ∧ key ≠ [] ∧
    (shouldSnapshot target.children = true → extraKeys opts layout pre = [])

theorem HasUnknownNull.reports {target : ColumnPlan} {object : Row}
    (h : HasUnknownNull opts target object) : ReportsUnknown opts target object := by
  obtain ⟨layout, pre, post, key, hlayout, rfl, hkey, hne, hfirst⟩ := h
  have hkeys : extraKeys opts layout (pre ++ (key, .null) :: post)
      = extraKeys opts layout pre ++ key :: extraKeys opts layout post := by
    simp [extraKeys, hkey, Value.containerIsEmpty]
  refine ⟨layout, hlayout, key, by simp [hkeys], hne, fun hsnapshot => ?_⟩
  rw [hkeys, hfirst hsnapshot]
  rfl

/-- An unknown null inside the row is refused, unless a version family hides the error. -/
theorem prepare_nested_null_fails (hstop : opts.onError = .stop)
    (hstrict : opts.rejectsUnknown = true) {target : ColumnPlan} {object : Row}
    (hreach : RowReaches opts plan row false target object)
    (hnull : HasUnknownNull opts target object) (skippedRows : Nat) :
    Fails (prepareMaterializedRow opts plan row skippedRows) := by
  rw [fails_prepareMaterializedRow hstop, fails_rootColumns_strict]
  exact .inr (.inr ⟨target, object, hreach, (strictExtraField_ne_nil hstrict).mpr hnull.reports⟩)

end PaddedRows

/-- **Unknown fields under a strict contract.**  Empty containers behave like
absent fields: adding any number of them, to the row or to objects that are
converted as structs, leaves the outcome as it was, with the same cells.  Nulls
do not: a row with an unknown null is refused, and so is one with an unknown null in
an object that conversion reaches outside of every version family. -/
theorem strict_unknown_fields (opts : ConvertOptions) (plan : CompiledPlan) (row : RowRef)
    (skippedRows : Nat) (hstrict : opts.rejectsUnknown = true) :
    (∀ row', Relation.ReflTransGen (PaddedRow opts plan) row row' →
      prepareMaterializedRow opts plan row' skippedRows =
        prepareMaterializedRow opts plan row skippedRows) ∧
    (∀ pre post key, row.fields = pre ++ post →
      matchesPlannedField plan.rootLayout opts.toNameOptions key = false →
      Fails (prepareMaterializedRow opts plan ⟨pre ++ (key, .null) :: post, row.sourceFile⟩
        skippedRows)) ∧
    (∀ target object, opts.onError = .stop → RowReaches opts plan row false target object →
      HasUnknownNull opts target object →
      Fails (prepareMaterializedRow opts plan row skippedRows)) :=
  ⟨fun _ h => prepare_padded h skippedRows,
    fun _ _ _ _ hkey => prepare_unknown_null_fails hstrict hkey skippedRows,
    fun _ _ hstop hreach hnull => prepare_nested_null_fails hstop hstrict hreach hnull skippedRows⟩

/-- Padding in the row and in the object of a struct column. -/
theorem strict_unknown_fields_sample :
    prepareMaterializedRow strictOptions structPlan
      ⟨[(bytes "a", .object [(bytes "x", .int 1), (bytes "u", .array [])]),
        (bytes "w", .object [])], []⟩ 0 =
    prepareMaterializedRow strictOptions structPlan
      ⟨[(bytes "a", .object [(bytes "x", .int 1)])], []⟩ 0 := by
  refine (strict_unknown_fields strictOptions structPlan _ 0 rfl).1 _ ?_
  have hobject : ∀ (index : Nat) column, structPlan.columns[index]? = some column →
      Padded strictOptions column (.object [(bytes "x", .int 1)])
        (.object ([(bytes "x", .int 1)] ++ [(bytes "u", .array [])])) := by
    intro index column hcolumn
    match index, hcolumn with
    | 0, rfl =>
      exact @Padded.insert strictOptions _ _ [(bytes "x", .int 1)] [] (bytes "u", .array []) rfl rfl
        (by simp) ⟨rfl, rfl⟩
  refine Relation.ReflTransGen.tail (Relation.ReflTransGen.single
    (@PaddedRow.field strictOptions structPlan _ [] [] (bytes "a") [] _ _ (hobject 0 _ rfl)
      fun index column hcolumn _ _ => hobject index column hcolumn)) ?_
  exact @PaddedRow.insert strictOptions structPlan
    [(bytes "a", .object [(bytes "x", .int 1), (bytes "u", .array [])])] []
      (bytes "w", .object []) []
    ⟨rfl, rfl⟩

/-- A row is accepted, and refused with an unknown field that is null. -/
theorem strict_unknown_null_refused :
    prepareMaterializedRow strictOptions structPlan
    ⟨[(bytes "a", .object [(bytes "x", .int 1)])], []⟩ 0 =
      .ok (⟨.appendCells [.struct [.i64 .int64 1]], {}⟩, 0) ∧
    prepareMaterializedRow strictOptions structPlan
      ⟨[(bytes "a", .object [(bytes "x", .int 1)]), (bytes "u", .null)], []⟩ 0 =
      .error (bytes "Strict schema evolution: observed extra field 'u'") :=
  ⟨rfl, rfl⟩

end SchemaSanitizer
