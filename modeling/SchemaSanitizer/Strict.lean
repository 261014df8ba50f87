/-
SchemaSanitizer/Strict.lean

Strict contracts.  Under a contract with strict evolution a row is refused when
it has a field that the plan does not know.  The check is made for the row and,
separately, for every object that is converted as a struct.

`Reaches` lists the objects that conversion comes to, and whether a column of a
version family is on the way.  `prepare_strict_fails_iff` says exactly which
rows strictness refuses: those with an unknown field at the root, and those in
which an object is reached outside of every version family whose first unknown
key can be reported.  Two kinds of unknown data pass, therefore: everything below
a family column, whose errors become nulls (`strict_family_passes`), and a field
of a struct with the empty key, which the check takes for "none".
-/
import SchemaSanitizer.Rows

namespace SchemaSanitizer

open Lib List

/-! ### Objects that conversion reaches -/

variable {target : ColumnPlan} {object fields : Row}

/-- Conversion of a value against a plan comes to an object that it converts as
the struct `target`; the flag says that a member of a version family is on the
way. -/
inductive Reaches (opts : ConvertOptions) :
    ColumnPlan → Value → Bool → ColumnPlan → Row → Prop
  | here {plan : ColumnPlan} {fields : Row} : plan.kind = .struct → fields ≠ [] →
      Reaches opts plan (.object fields) false plan fields
  | child {plan child target : ColumnPlan} {fields object : Row} {index : Nat}
      {family onTheWay : Bool} :
      plan.kind = .struct → fields ≠ [] → plan.children[index]? = some child →
      (child.hasVariantSibling = true → preferredVariant opts plan.children child index
        (sourceValue (objectChildValue opts plan.layout plan.children fields index child)) =
          index) →
      Reaches opts child
        (sourceValue (objectChildValue opts plan.layout plan.children fields index child)) family
        target object →
      onTheWay = (family || child.hasVariantSibling) →
      Reaches opts plan (.object fields) onTheWay target object
  | wrapped {plan child target : ColumnPlan} {v : Value} {object : Row} {family : Bool} :
      plan.kind = .struct → v.isObject = false →
      hasDefaultKeyChild opts plan.layout plan.children = true → child ∈ plan.children →
      fieldNameMatchesOutput opts.toNameOptions opts.defaultKeyName child.name = true →
      Reaches opts child v family target object → Reaches opts plan v family target object
  | element {plan elem target : ColumnPlan} {v part : Value} {object : Row} {family : Bool} :
      plan.kind = .list → plan.value = some elem → part ∈ listParts v →
      Reaches opts elem part family target object → Reaches opts plan v family target object

section Hits

variable {opts : ConvertOptions} {plan : ColumnPlan} {v : Value}

theorem Reaches.nonempty {family : Bool} (h : Reaches opts plan v family target object) :
    v ≠ .null ∧ v.containerIsEmpty = false := by
  induction h with
  | @here _ fields _ hne | @child _ _ _ fields _ _ _ _ _ hne =>
    obtain ⟨f, fs, rfl⟩ := exists_cons_of_ne_nil hne
    exact ⟨by simp, rfl⟩
  | wrapped _ _ _ _ _ _ ih => exact ih
  | @element _ _ _ v part _ _ _ _ hpart _ ih =>
    cases v with
    | array elements =>
      obtain ⟨e, es, rfl⟩ := exists_cons_of_ne_nil (ne_nil_of_mem hpart)
      exact ⟨by simp, rfl⟩
    | null | bool | int | float | string | object =>
      obtain rfl := mem_singleton.mp hpart
      exact ih

/-- An object is reached, outside of families, with an unknown key that strict
contracts report. -/
def Hits (opts : ConvertOptions) (plan : ColumnPlan) (v : Value) : Prop :=
  ∃ target object, Reaches opts plan v false target object ∧
    strictExtraField opts target.layout target.children object ≠ []

/-- An object is hit by its own fields or below a child. -/
theorem hits_object (hkind : plan.kind = .struct) (hne : fields ≠ []) :
    Hits opts plan (.object fields) ↔
      strictExtraField opts plan.layout plan.children fields ≠ [] ∨
      ∃ index child, plan.children[index]? = some child ∧ child.hasVariantSibling = false ∧
        Hits opts child
          (sourceValue (objectChildValue opts plan.layout plan.children fields index child)) := by
  constructor
  · rintro ⟨target, object, hreach, hextra⟩
    cases hreach with
    | here => exact .inl hextra
    | child _ _ hchild _ hrest hfamily =>
      obtain ⟨rfl, hvariant⟩ := Bool.or_eq_false_iff.mp hfamily.symm
      exact .inr ⟨_, _, hchild, hvariant, target, object, hrest, hextra⟩
    | wrapped _ hobject => exact absurd hobject Bool.noConfusion
    | element hlist => exact absurd (hkind.symm.trans hlist) LogicalKind.noConfusion
  · rintro (hextra | ⟨index, child, hchild, hvariant, target, object, hrest, hextra⟩)
    · exact ⟨plan, fields, Reaches.here hkind hne, hextra⟩
    · refine ⟨target, object, Reaches.child hkind hne hchild ?_ hrest ?_, hextra⟩
      · intro h
        exact absurd (hvariant.symm.trans h) Bool.noConfusion
      · rw [hvariant]
        rfl

theorem hits_wrapped (hkind : plan.kind = .struct) (hobject : v.isObject = false) :
    Hits opts plan v ↔ hasDefaultKeyChild opts plan.layout plan.children = true ∧
      ∃ child ∈ plan.children,
        fieldNameMatchesOutput opts.toNameOptions opts.defaultKeyName child.name = true ∧
          Hits opts child v := by
  constructor
  · rintro ⟨target, object, hreach, hextra⟩
    cases hreach with
    | here | child => exact absurd hobject Bool.noConfusion
    | wrapped _ _ hdefault hmem hmatch hrest =>
      exact ⟨hdefault, _, hmem, hmatch, target, object, hrest, hextra⟩
    | element hlist => exact absurd (hkind.symm.trans hlist) LogicalKind.noConfusion
  · rintro ⟨hdefault, child, hmem, hmatch, target, object, hrest, hextra⟩
    exact ⟨target, object, Reaches.wrapped hkind hobject hdefault hmem hmatch hrest, hextra⟩

theorem hits_list (hkind : plan.kind = .list) :
    Hits opts plan v ↔ ∃ elem, plan.value = some elem ∧
    ∃ part ∈ listParts v, Hits opts elem part := by
  constructor
  · rintro ⟨target, object, hreach, hextra⟩
    cases hreach with
    | here hstruct | child hstruct | wrapped hstruct =>
      exact absurd (hkind.symm.trans hstruct) LogicalKind.noConfusion
    | element _ helem hpart hrest =>
      exact ⟨_, helem, _, hpart, target, object, hrest, hextra⟩
  · rintro ⟨elem, helem, part, hpart, target, object, hrest, hextra⟩
    exact ⟨target, object, Reaches.element hkind helem hpart hrest, hextra⟩

theorem not_hits_scalar {kind : ScalarKind} (hkind : plan.kind = .scalar kind) :
    ¬ Hits opts plan v := by
  rintro ⟨target, object, hreach, -⟩
  cases hreach with
  | here h | child h | wrapped h | element h =>
    exact absurd (hkind.symm.trans h) LogicalKind.noConfusion

end Hits

/-! ### What strictness refuses -/

/-- The same options without strictness. -/
def ConvertOptions.lenient (opts : ConvertOptions) : ConvertOptions :=
  { opts with schemaEvolution := .additive }

theorem rejectsUnknown_lenient (opts : ConvertOptions) : opts.lenient.rejectsUnknown = false :=
  Bool.and_false _

theorem strictExtraField_lenient (opts : ConvertOptions) (layout : Option StructLayout)
    (children : List ColumnPlan) (fields : Row) :
    strictExtraField opts.lenient layout children fields = [] := by
  cases layout with
  | none => rfl
  | some l =>
    rw [strictExtraField, rejectsUnknown_lenient]
    rfl

/-- The check of one object has an unknown key to report.  Struct plans that use
a snapshot look at the first unknown key only. -/
def ReportsUnknown (opts : ConvertOptions) (target : ColumnPlan) (object : Row) : Prop :=
  ∃ layout, target.layout = some layout ∧ ∃ key ∈ extraKeys opts layout object, key ≠ [] ∧
    (shouldSnapshot target.children = true → (extraKeys opts layout object).head? = some key)

/-- The strict check reports a field exactly if one is unknown. -/
theorem strictExtraField_ne_nil {opts : ConvertOptions} (hstrict : opts.rejectsUnknown = true) :
    strictExtraField opts target.layout target.children object ≠ [] ↔
      ReportsUnknown opts target object := by
  cases hlayout : target.layout with
  | none =>
    rw [strictExtraField]
    simp [ReportsUnknown, hlayout]
  | some layout =>
    simp only [strictExtraField, hstrict, if_true, findStrictExtraField, ReportsUnknown, hlayout,
      Option.some.injEq, exists_eq_left']
    by_cases hsnapshot : shouldSnapshot target.children = true
    · simp only [hsnapshot, if_true, true_implies]
      rcases extraKeys opts layout object with - | ⟨key, keys⟩ <;> simp
    · simp only [hsnapshot, Bool.false_eq_true, if_false, false_implies, and_true]
      rcases hfind : (extraKeys opts layout object).find? (· != []) with - | key
      · rw [find?_eq_none] at hfind
        simp only [bne_iff_ne, ne_eq, not_not] at hfind
        simp only [Option.getD_none, ne_eq, not_true, false_iff, not_exists, not_and, not_not]
        exact hfind
      · have hkey := find?_some hfind
        rw [bne_iff_ne] at hkey
        simp only [Option.getD_some, hkey, ne_eq, not_false_eq_true, true_iff]
        exact ⟨key, mem_of_find?_eq_some hfind, hkey⟩

section Refuses

variable {opts : ConvertOptions} {plan : ColumnPlan} {v : Value}

/-- Strictness adds exactly the errors of the objects it hits. -/
def StrictAdds (opts : ConvertOptions) (plan : ColumnPlan) (v : Value) : Prop :=
  Fails (convertValue opts plan v) ↔ Fails (convertValue opts.lenient plan v) ∨ Hits opts plan v

theorem strictAdds_list (hkind : plan.kind = .list) (hnull : v ≠ .null)
    (hfull : v.containerIsEmpty = false)
    (ih : ∀ elem, plan.value = some elem → ∀ part, StrictAdds opts elem part) :
    StrictAdds opts plan v := by
  rw [StrictAdds, convertValue_list hkind hnull hfull, convertValue_list hkind hnull hfull,
    hits_list hkind]
  cases hvalue : plan.value with
  | none =>
    rw [convertList, convertList]
    simp
  | some elem =>
    rw [fails_convertList, fails_convertList]
    constructor
    · rintro ⟨part, hpart, hfails⟩
      rcases (ih elem hvalue part).mp hfails with hfails | hhits
      · exact .inl ⟨part, hpart, hfails⟩
      · exact .inr ⟨elem, rfl, part, hpart, hhits⟩
    · rintro (⟨part, hpart, hfails⟩ | ⟨_, ⟨rfl⟩, part, hpart, hhits⟩)
      · exact ⟨part, hpart, (ih elem hvalue part).mpr (.inl hfails)⟩
      · exact ⟨part, hpart, (ih elem hvalue part).mpr (.inr hhits)⟩

theorem strictAdds_wrapped (hkind : plan.kind = .struct) (hobject : v.isObject = false)
    (hnull : v ≠ .null) (hfull : v.containerIsEmpty = false)
    (ih : ∀ child ∈ plan.children, StrictAdds opts child v) : StrictAdds opts plan v := by
  rw [StrictAdds, convertValue_wrapped hkind hobject hnull hfull,
    convertValue_wrapped hkind hobject hnull hfull, hits_wrapped hkind hobject]
  show Fails (if hasDefaultKeyChild opts _ _ = true then _ else _) ↔
    Fails (if hasDefaultKeyChild opts _ _ = true then _ else _) ∨ _
  by_cases hdefault : hasDefaultKeyChild opts plan.layout plan.children = true
  · rw [if_pos hdefault, if_pos hdefault, fails_map, fails_map, fails_convertWrapped,
      fails_convertWrapped]
    constructor
    · rintro ⟨child, hmem, hmatch, hfails⟩
      rcases (ih child hmem).mp hfails with hfails | hhits
      · exact .inl ⟨child, hmem, hmatch, hfails⟩
      · exact .inr ⟨hdefault, child, hmem, hmatch, hhits⟩
    · rintro (⟨child, hmem, hmatch, hfails⟩ | ⟨-, child, hmem, hmatch, hhits⟩)
      · exact ⟨child, hmem, hmatch, (ih child hmem).mpr (.inl hfails)⟩
      · exact ⟨child, hmem, hmatch, (ih child hmem).mpr (.inr hhits)⟩
  · simp [hdefault, expectedError]

/-- Strictness adds to a row's failures exactly its hits. -/
theorem strictAdds_columns {columns rest : List ColumnPlan}
    {source : Nat → ColumnPlan → Option Value}
    (ih : ∀ column ∈ rest, ∀ v, StrictAdds opts column v) :
    Fails (convertSiblings opts columns source 0 rest) ↔
      Fails (convertSiblings opts.lenient columns source 0 rest) ∨
      ∃ (k : Nat) (column : ColumnPlan), rest[k]? = some column ∧ column.hasVariantSibling = false ∧
        Hits opts column (sourceValue (source k column)) := by
  rw [fails_convertSiblings, fails_convertSiblings]
  simp only [Nat.zero_add]
  constructor
  · rintro ⟨k, column, hcolumn, hvariant, hsource, hfails⟩
    rcases (ih column (mem_of_getElem? hcolumn) _).mp hfails with hfails | hhits
    · exact .inl ⟨k, column, hcolumn, hvariant, hsource, hfails⟩
    · exact .inr ⟨k, column, hcolumn, hvariant, hhits⟩
  · rintro (⟨k, column, hcolumn, hvariant, hsource, hfails⟩ | ⟨k, column, hcolumn, hvariant, hhits⟩)
    · exact ⟨k, column, hcolumn, hvariant, hsource,
        (ih column (mem_of_getElem? hcolumn) _).mpr (.inl hfails)⟩
    · obtain ⟨target, object, hreach, -⟩ := id hhits
      exact ⟨k, column, hcolumn, hvariant, hreach.nonempty.1,
        (ih column (mem_of_getElem? hcolumn) _).mpr (.inr hhits)⟩

theorem strictAdds_object (hkind : plan.kind = .struct) (hne : fields ≠ [])
    (ih : ∀ child ∈ plan.children, ∀ v, StrictAdds opts child v) :
    StrictAdds opts plan (.object fields) := by
  rw [StrictAdds, convertValue_object hkind hne, convertValue_object hkind hne,
    hits_object hkind hne, if_neg (not_not.mpr (strictExtraField_lenient opts _ _ _)), fails_map]
  by_cases hextra : strictExtraField opts plan.layout plan.children fields = []
  · rw [if_neg (not_not.mpr hextra), fails_map, strictAdds_columns ih]
    simp only [hextra, ne_eq, not_true, false_or]
    rfl
  · rw [if_pos hextra]
    simp [hextra]

/-- **One value.** -/
theorem strictAdds (plan : ColumnPlan) : ∀ v : Value, StrictAdds opts plan v := by
  induction plan with
  | plan plan ihchild ihelem =>
    intro v
    by_cases hempty : v.containerIsEmpty = true
    · have hno : ¬ Hits opts plan v := by
        rintro ⟨target, object, hreach, -⟩
        exact absurd (hempty.symm.trans hreach.nonempty.2) Bool.noConfusion
      simp [StrictAdds, convertValue_empty hempty, hno]
    by_cases hnull : v = .null
    · have hno : ¬ Hits opts plan .null := by
        rintro ⟨target, object, hreach, -⟩
        exact hreach.nonempty.1 rfl
      simp [StrictAdds, hnull, convertValue_null, hno]
    have hfull : v.containerIsEmpty = false := by simpa using hempty
    cases hkind : plan.kind with
    | scalar kind =>
      rw [StrictAdds, convertValue_scalar hkind hfull, convertValue_scalar hkind hfull,
        or_iff_left (not_hits_scalar hkind)]
      rfl
    | list => exact strictAdds_list hkind hnull hfull ihelem
    | struct =>
      cases hobject : v.isObject with
      | false => exact strictAdds_wrapped hkind hobject hnull hfull fun c hc => ihchild c hc v
      | true =>
        cases v with
        | object fields =>
          refine strictAdds_object hkind ?_ ihchild
          rintro rfl
          exact absurd hfull Bool.noConfusion
        | null | bool | int | float | string | array =>
          exact absurd hobject Bool.noConfusion

end Refuses

section RefusesRow

variable {opts : ConvertOptions} {plan : CompiledPlan} {row : RowRef}

/-- Conversion of a row comes to an object, through some root column. -/
def RowReaches (opts : ConvertOptions) (plan : CompiledPlan) (row : RowRef) (family : Bool)
    (target : ColumnPlan) (object : Row) : Prop :=
  ∃ index column inner, plan.columns[index]? = some column ∧
    (column.hasVariantSibling = true → preferredVariant opts plan.columns column index
      (sourceValue (rootSource opts plan row index column)) = index) ∧
    Reaches opts column (sourceValue (rootSource opts plan row index column)) inner target object ∧
    family = (inner || column.hasVariantSibling)

/-- With `on_error=stop` a row fails at the strict check or at a column. -/
theorem fails_prepareMaterializedRow (hstop : opts.onError = .stop) (skippedRows : Nat) :
    Fails (prepareMaterializedRow opts plan row skippedRows) ↔
      Fails (checkStrictRow opts plan row) ∨
      Fails (convertSiblings opts plan.columns (rootSource opts plan row) 0 plan.columns) := by
  unfold prepareMaterializedRow convertMaterializedCells
  rcases checkStrictRow opts plan row with message | -
  · show Fails (.error message) ↔ _
    simp
  · rcases convertSiblings opts plan.columns (rootSource opts plan row) 0 plan.columns
      with error | cells
    · show Fails (preparedErrorForPolicy opts error skippedRows) ↔ _
      rw [preparedErrorForPolicy, hstop]
      simp
    · show Fails (.ok _) ↔ _
      simp

theorem fails_checkStrictRow : Fails (checkStrictRow opts plan row) ↔
    opts.rejectsUnknown = true ∧ (hasUnplannedField opts plan.rootLayout row.fields).isSome =
    true := by
  rw [checkStrictRow]
  cases opts.rejectsUnknown with
  | false =>
    show Fails (.ok ()) ↔ _
    simp
  | true => rcases hasUnplannedField opts plan.rootLayout row.fields <;> simp

/-- Strict columns fail where lenient ones do, or where a field is unknown. -/
theorem fails_rootColumns_strict :
    Fails (convertSiblings opts plan.columns (rootSource opts plan row) 0 plan.columns) ↔
      Fails (convertSiblings opts.lenient plan.columns (rootSource opts.lenient plan row) 0
        plan.columns) ∨
      ∃ target object, RowReaches opts plan row false target object ∧
        strictExtraField opts target.layout target.children object ≠ [] := by
  rw [strictAdds_columns fun column _ => strictAdds column]
  refine or_congr Iff.rfl ⟨?_, ?_⟩
  · rintro ⟨k, column, hcolumn, hvariant, target, object, hreach, hextra⟩
    refine ⟨target, object, ⟨k, column, false, hcolumn, ?_, hreach, ?_⟩, hextra⟩
    · intro h
      exact absurd (hvariant.symm.trans h) Bool.noConfusion
    · rw [hvariant]
      rfl
  · rintro ⟨target, object, ⟨k, column, inner, hcolumn, -, hreach, hfamily⟩, hextra⟩
    obtain ⟨rfl, hvariant⟩ := Bool.or_eq_false_iff.mp hfamily.symm
    exact ⟨k, column, hcolumn, hvariant, target, object, hreach, hextra⟩

/-- **What strict mode refuses.**  Under a strict contract and `on_error=stop` a
row is refused exactly when it is refused without strictness, or has an unknown
field at the root, or conversion reaches an object outside of every version
family in which the check finds an unknown key. -/
theorem prepare_strict_fails_iff (opts : ConvertOptions) (plan : CompiledPlan) (row : RowRef)
    (skippedRows : Nat) (hstop : opts.onError = .stop) (hstrict : opts.rejectsUnknown = true) :
    Fails (prepareMaterializedRow opts plan row skippedRows) ↔
      Fails (prepareMaterializedRow opts.lenient plan row skippedRows) ∨
      (hasUnplannedField opts plan.rootLayout row.fields).isSome = true ∨
      ∃ target object, RowReaches opts plan row false target object ∧
        ReportsUnknown opts target object := by
  have hlenient : ¬ Fails (checkStrictRow opts.lenient plan row) := by
    rw [fails_checkStrictRow, rejectsUnknown_lenient]
    simp
  rw [fails_prepareMaterializedRow hstop, @fails_prepareMaterializedRow opts.lenient plan row hstop,
    fails_checkStrictRow, fails_rootColumns_strict]
  simp only [hstrict, hlenient, true_and, false_or, strictExtraField_ne_nil hstrict]
  exact or_left_comm

end RefusesRow

/-! ### Samples -/

/-- Options of a run under a strict contract. -/
def strictOptions : ConvertOptions :=
  { plainOptions with arrowSchemaContract := true, schemaEvolution := .strict }

/-- The contract of a struct column with one child. -/
def structPlan : CompiledPlan :=
  compilePlan ⟨[⟨bytes "a", some (.struct [⟨bytes "x", some (.scalar .int64), true⟩]), true⟩]⟩

/-- An unknown field in an object of a struct column. -/
theorem prepare_strict_fails_iff_sample :
    Fails (prepareMaterializedRow strictOptions structPlan
      ⟨[(bytes "a", .object [(bytes "x", .int 1), (bytes "y", .int 2)])], []⟩ 0) := by
  apply (prepare_strict_fails_iff strictOptions structPlan _ 0 rfl rfl).mpr
  refine .inr (.inr ⟨_, _, ⟨0, _, false, rfl, fun _ => rfl,
    Reaches.here rfl (cons_ne_nil _ _), rfl⟩, ?_⟩)
  exact ⟨_, rfl, bytes "y", by decide +kernel, by decide, fun _ => rfl⟩

/-- A contract with a version family: the second member is a struct. -/
def familyPlan : CompiledPlan :=
  compilePlan ⟨[⟨bytes "a", some (.scalar .int64), true⟩,
    ⟨bytes "a_v2_struct", some (.struct [⟨bytes "x", some (.scalar .int64), true⟩]), true⟩]⟩

/-- An object with an unknown field goes to the struct of a version family.  The
row is accepted, and the whole object is replaced by nulls. -/
theorem strict_family_passes :
    (∃ target, RowReaches strictOptions familyPlan
      ⟨[(bytes "a", .object [(bytes "x", .int 1), (bytes "extra", .int 2)])], []⟩ true target
      [(bytes "x", .int 1), (bytes "extra", .int 2)] ∧
      target.layout.map (fun l =>
        matchesPlannedField l strictOptions.toNameOptions (bytes "extra")) =
        some false) ∧
    prepareMaterializedRow strictOptions familyPlan
      ⟨[(bytes "a", .object [(bytes "x", .int 1), (bytes "extra", .int 2)])], []⟩ 0 =
      .ok (⟨.appendCells [.null (.scalar .int64) [], .null .struct [.null (.scalar .int64) []]],
        {}⟩, 0) := by
  refine ⟨⟨_, ⟨1, _, false, rfl, fun _ => rfl, Reaches.here rfl (cons_ne_nil _ _), rfl⟩, ?_⟩, rfl⟩
  rfl

end SchemaSanitizer
