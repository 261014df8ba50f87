/-
SchemaSanitizer/ContractEvolution.lean

Additive contract evolution (`evolve_schema`) as a stable extension.  With
distinct sibling names at every level of a contract and of an inferred schema,

* evolving the result once more with the same inferred schema returns it
  (`mergeTypeAdditive_reorder`, `evolved_in_order`);
* every field of the contract is kept, with a type that has at most got more
  struct fields (`Within`), and every inferred name is there (`NamesIn`);
* in alphabetical order the result does not depend on the order of siblings.

The merge and the reordering are separate recursions.  For the first point they
meet in `mergeTypeAdditive_reorder`: a merged and reordered type has nothing more to
take from the inferred type.  For the last one both are pushed below
`alphabetize`: sorting forgets the contract (`reorderType_alphabetically`) and the
order of what is merged (`alphabetize_merge`).
-/
import SchemaSanitizer.Distinct
import SchemaSanitizer.Drift

namespace SchemaSanitizer

open List

/-! ### Types with more fields -/

mutual

/-- The second type has everything the first one has: the same scalars and lists,
and in place of every struct one with at least the same fields. -/
def LogicalType.Within : LogicalType → LogicalType → Prop
  | .scalar k, .scalar k' => k = k'
  | .struct fields, .struct more => FieldsWithin fields more
  | .list value, .list value' => ValueWithin value value'
  | _, _ => False
termination_by structural t => t

/-- The same for the element of a list or the type of a field. -/
def ValueWithin : Option LogicalType → Option LogicalType → Prop
  | none, none => True
  | some t, some u => t.Within u
  | _, _ => False
termination_by structural v => v

/-- The same field, with more in its type. -/
def FieldWithin : LogicalField → LogicalField → Prop
  | ⟨name, value, nullable⟩, g =>
    g.name = name ∧ g.nullable = nullable ∧ ValueWithin value g.type
termination_by structural f => f

/-- Every field of a level has its place among more fields. -/
def FieldsWithin : List LogicalField → List LogicalField → Prop
  | [], _ => True
  | f :: fs, more => (∃ g ∈ more, FieldWithin f g) ∧ FieldsWithin fs more
termination_by structural fs => fs

end

variable {f g : LogicalField} {fields more : List LogicalField}

section Within

theorem fieldWithin_iff : FieldWithin f g ↔
    g.name = f.name ∧ g.nullable = f.nullable ∧ ValueWithin f.type g.type := by
  obtain ⟨_, _, _⟩ := f
  rfl

theorem fieldsWithin_iff :
    FieldsWithin fields more ↔ ∀ f ∈ fields, ∃ g ∈ more, FieldWithin f g := by
  induction fields with
  | nil => simp [FieldsWithin]
  | cons f fs ih => simp [FieldsWithin, ih]

theorem within_struct :
    (LogicalType.struct fields).Within (.struct more) ↔
      ∀ f ∈ fields, ∃ g ∈ more, FieldWithin f g :=
  fieldsWithin_iff

theorem valueWithin_of_types {v w : Option LogicalType} (hnone : v = none → w = none)
    (hsome : ∀ t, v = some t → ∃ u, w = some u ∧ t.Within u) : ValueWithin v w := by
  cases v with
  | none =>
    rw [hnone rfl]
    trivial
  | some t =>
    obtain ⟨u, rfl, hu⟩ := hsome t rfl
    exact hu

theorem within_refl (t : LogicalType) : t.Within t := by
  induction t with
  | scalar k => rfl
  | struct fields ih =>
    refine within_struct.mpr fun f hf => ⟨f, hf, fieldWithin_iff.mpr ⟨rfl, rfl, ?_⟩⟩
    exact valueWithin_of_types id fun t ht => ⟨t, ht, ih f hf t ht⟩
  | listNone => trivial
  | listSome t ih => exact ih

theorem fieldWithin_refl (f : LogicalField) : FieldWithin f f :=
  fieldWithin_iff.mpr ⟨rfl, rfl, valueWithin_of_types id fun t ht => ⟨t, ht, within_refl t⟩⟩

end Within

/-! ### The merge of a level -/

variable {t : LogicalType}

/-- The field of the contract after merging the inferred field of its name. -/
def mergedField (inferred : List LogicalField) (f : LogicalField) : LogicalField :=
  match fieldNamed inferred f.name with
  | none => f
  | some g => mergeFieldAdditive f g

/-- The inferred fields that are new. -/
def newFields (base inferred : List LogicalField) : List LogicalField :=
  inferred.filter fun f => !(base.map FieldOf.name).contains f.name

section MergeLevel

variable {base inferred : List LogicalField}

theorem mergeBaseFields_eq (inferred : List LogicalField) : ∀ base : List LogicalField,
    mergeBaseFields base inferred = base.map (mergedField inferred)
  | [] => rfl
  | f :: fs => by
    rw [mergeBaseFields, mergeBaseFields_eq inferred fs]
    rfl

theorem mergeTypeAdditive_struct (base inferred : List LogicalField) :
    mergeTypeAdditive (.struct base) (.struct inferred) =
      .struct (base.map (mergedField inferred) ++ newFields base inferred) := by
  rw [mergeTypeAdditive, mergeBaseFields_eq]
  rfl

theorem mergeFieldAdditive_name (f g : LogicalField) : (mergeFieldAdditive f g).name = f.name := by
  obtain ⟨_, _, _⟩ := f
  rfl

theorem mergeFieldAdditive_nullable (f g : LogicalField) :
    (mergeFieldAdditive f g).nullable = f.nullable := by
  obtain ⟨_, _, _⟩ := f
  rfl

theorem mergeFieldAdditive_type (f g : LogicalField) :
    (mergeFieldAdditive f g).type = mergeValueAdditive f.type g.type := by
  obtain ⟨_, _, _⟩ := f
  rfl

theorem mergedField_none (h : fieldNamed inferred f.name = none) : mergedField inferred f = f := by
  unfold mergedField
  rw [h]

theorem mergedField_some (h : fieldNamed inferred f.name = some g) :
    mergedField inferred f = mergeFieldAdditive f g := by
  unfold mergedField
  rw [h]

theorem mergedField_name (inferred : List LogicalField) (f : LogicalField) :
    (mergedField inferred f).name = f.name := by
  unfold mergedField
  split
  · rfl
  · exact mergeFieldAdditive_name _ _

theorem mem_newFields :
    f ∈ newFields base inferred ↔ f ∈ inferred ∧ f.name ∉ base.map FieldOf.name := by
  simp [newFields]

theorem map_name_merged :
    (base.map (mergedField inferred) ++ newFields base inferred).map FieldOf.name =
      base.map FieldOf.name ++ (newFields base inferred).map FieldOf.name := by
  rw [map_append, map_map]
  congr 1
  apply map_congr_left
  intro f _
  exact mergedField_name inferred f

theorem mem_merged_names {name : Bytes} (h : name ∈ inferred.map FieldOf.name) :
    name ∈ (base.map (mergedField inferred) ++ newFields base inferred).map FieldOf.name := by
  rw [map_name_merged, mem_append]
  obtain ⟨f, hf, rfl⟩ := mem_map.mp h
  by_cases hbase : f.name ∈ base.map FieldOf.name
  · exact .inl hbase
  · exact .inr (mem_map_of_mem (mem_newFields.mpr ⟨hf, hbase⟩))

theorem merged_names_nodup (hbase : (base.map FieldOf.name).Nodup)
    (hinferred : (inferred.map FieldOf.name).Nodup) :
    ((base.map (mergedField inferred) ++ newFields base inferred).map FieldOf.name).Nodup := by
  rw [map_name_merged]
  have hnew : ((newFields base inferred).map FieldOf.name).Nodup :=
    hinferred.sublist ((filter_sublist).map FieldOf.name)
  refine nodup_append.mpr ⟨hbase, hnew, ?_⟩
  rintro n hn m hm rfl
  obtain ⟨f, hf, rfl⟩ := mem_map.mp hm
  exact (mem_newFields.mp hf).2 hn

/-- **The merge of types keeps what the contract has.** -/
theorem within_mergeTypeAdditive (t : LogicalType) : ∀ u, t.Within (mergeTypeAdditive t u) := by
  induction t with
  | scalar k => exact fun u => by cases u <;> rfl
  | struct fields ih =>
    intro u
    cases u with
    | scalar | list => exact within_refl _
    | struct inferred =>
      rw [mergeTypeAdditive_struct]
      refine within_struct.mpr fun f hf =>
        ⟨mergedField inferred f, mem_append_left _ (mem_map_of_mem hf), ?_⟩
      unfold mergedField
      split
      · exact fieldWithin_refl f
      · rename_i g _
        refine fieldWithin_iff.mpr
          ⟨mergeFieldAdditive_name f g, mergeFieldAdditive_nullable f g, ?_⟩
        rw [mergeFieldAdditive_type]
        refine valueWithin_of_types (fun hnone => ?_) fun t ht => ?_
        · rw [hnone]
          rfl
        · rw [ht]
          rcases g.type with - | v
          · exact ⟨t, rfl, within_refl t⟩
          · exact ⟨_, rfl, ih f hf t ht v⟩
  | listNone => exact fun u => by cases u <;> trivial
  | listSome t ih =>
    intro u
    cases u with
    | scalar | struct => exact within_refl _
    | list value =>
      cases value with
      | none => exact within_refl _
      | some v => exact ih v

/-- **The merge keeps names distinct**, at every level. -/
theorem mergeTypeAdditive_distinct (ht : t.Forall DistinctNode) :
    ∀ {u : LogicalType}, u.Forall DistinctNode → (mergeTypeAdditive t u).Forall DistinctNode := by
  induction t with
  | scalar | listNone =>
    intro u _
    cases u <;> exact ht
  | struct fields ih =>
    intro u hu
    cases u with
    | scalar | list => exact ht
    | struct inferred =>
      obtain ⟨hlevel, hnested⟩ := forall_struct.mp ht
      obtain ⟨hinferred, hnestedInferred⟩ := forall_struct.mp hu
      rw [mergeTypeAdditive_struct]
      refine forall_struct.mpr ⟨merged_names_nodup hlevel hinferred, fun h hh v hv => ?_⟩
      rcases mem_append.mp hh with hh | hh
      · obtain ⟨f, hf, rfl⟩ := mem_map.mp hh
        unfold mergedField at hv
        split at hv
        · exact hnested f hf v hv
        · rename_i g hg
          rw [mergeFieldAdditive_type] at hv
          have hmem := mem_of_find?_eq_some hg
          rcases hft : f.type with - | a
          · rw [hft] at hv
            cases hv
          · rw [hft] at hv
            rcases hgt : g.type with - | b
            · rw [hgt] at hv
              cases hv
              exact hnested f hf _ hft
            · rw [hgt] at hv
              cases hv
              exact ih f hf a hft (hnested f hf a hft) (hnestedInferred g hmem b hgt)
      · exact hnestedInferred h (mem_newFields.mp hh).1 v hv
  | listSome t ih =>
    intro u hu
    cases u with
    | scalar | struct => exact ht
    | list value =>
      cases value with
      | none => exact ht
      | some v =>
        exact forall_listSome.mpr ⟨trivial,
          ih (forall_listSome.mp ht).2 (forall_listSome.mp hu).2⟩

end MergeLevel

/-! ### The order of a level -/

section ArrangeLevel

variable {order : FieldOrderPolicy} {fields : List LogicalField} {base : Option LogicalType}

theorem map_name_place {place : Bytes → LogicalField → LogicalField}
    (hplace : ∀ n f, (place n f).name = f.name) : ∀ {l : List Bytes},
    (∀ n ∈ l, n ∈ fields.map FieldOf.name) →
    (l.filterMap fun n => (fieldNamed fields n).map (place n)).map FieldOf.name = l
  | [], _ => rfl
  | n :: l, hl => by
    obtain ⟨f, hf⟩ := fieldNamed_isSome (hl n mem_cons_self)
    have hrest := map_name_place hplace fun m hm => hl m (mem_cons_of_mem n hm)
    rw [filterMap_cons, hf]
    show (place n f).name :: _ = n :: l
    rw [hplace, (mem_fieldNamed hf).2, hrest]

theorem map_name_sortedFields (baseFields : List LogicalField) :
    (sortedFields (reorderers order fields) baseFields).map FieldOf.name =
      sortNames (fields.map FieldOf.name) := by
  rw [sortedFields_eq]
  refine map_name_place (fun n f =>
    reorderField_name order f ((fieldNamed baseFields n).bind FieldOf.type)) fun n hn => ?_
  exact (sortNames_perm _).subset hn

theorem map_name_unusedSortedFields (baseFields : List LogicalField) :
    (unusedSortedFields (reorderers order fields) baseFields).map FieldOf.name =
      sortNames ((fields.map FieldOf.name).filter fun n =>
        !(baseFields.map FieldOf.name).contains n) := by
  rw [unusedSortedFields_eq]
  refine map_name_place (fun _ f => reorderField_name order f none) fun n hn => ?_
  exact (mem_filter.mp ((sortNames_perm _).subset hn)).1

theorem map_name_baseOrderedFields_sublist : ∀ baseFields : List LogicalField,
    ((baseOrderedFields (reorderers order fields) baseFields).map FieldOf.name).Sublist
      (baseFields.map FieldOf.name) := by
  intro baseFields
  rw [baseOrderedFields_eq]
  induction baseFields with
  | nil => exact List.Sublist.slnil
  | cons b bs ih =>
    rw [map_cons]
    rcases hf : fieldNamed fields b.name with - | f
    · rw [filterMap_cons_none (by rw [hf]; rfl)]
      exact ih.cons _
    · rw [filterMap_cons_some (by rw [hf]; rfl), map_cons, reorderField_name,
        (mem_fieldNamed hf).2]
      exact ih.cons_cons _

/-- **Every field is placed**, under distinct names. -/
theorem reorderField_mem_arrange (hnodup : (fields.map FieldOf.name).Nodup) {f : LogicalField}
    (hf : f ∈ fields) :
    ∃ contract, reorderField order f contract ∈ arrange order (reorderers order fields) base := by
  have hself := fieldNamed_self hnodup hf
  have hname : f.name ∈ fields.map FieldOf.name := mem_map_of_mem hf
  have hsorted : ∀ baseFields, ∃ contract,
      reorderField order f contract ∈ sortedFields (reorderers order fields) baseFields := by
    intro baseFields
    refine ⟨(fieldNamed baseFields f.name).bind FieldOf.type, ?_⟩
    rw [sortedFields_eq]
    exact mem_filterMap.mpr ⟨f.name, (sortNames_perm _).mem_iff.mpr hname, by rw [hself]; rfl⟩
  unfold arrange
  split
  · rename_i baseFields
    by_cases hbase : f.name ∈ baseFields.map FieldOf.name
    · obtain ⟨b, hb, hbname⟩ := mem_map.mp hbase
      refine ⟨b.type, mem_append_left _ ?_⟩
      rw [baseOrderedFields_eq]
      exact mem_filterMap.mpr ⟨b, hb, by rw [hbname, hself]; rfl⟩
    · refine ⟨none, mem_append_right _ ?_⟩
      rw [unusedSortedFields_eq]
      refine mem_filterMap.mpr ⟨f.name, (sortNames_perm _).mem_iff.mpr ?_, by rw [hself]; rfl⟩
      exact mem_filter.mpr ⟨hname, by simpa using hbase⟩
  · refine ⟨none, ?_⟩
    rw [reorderers_eq, map_map]
    exact mem_map_of_mem hf
  · exact hsorted _
  · exact hsorted _

/-- The level of a contract has distinct names. -/
def DistinctContract (base : Option LogicalType) : Prop :=
  ∀ t, base = some t → t.Forall DistinctNode

/-- Arranging fields by a policy repeats no name. -/
theorem arrange_names_nodup (hnodup : (fields.map FieldOf.name).Nodup)
    (hbase : DistinctContract base) :
    ((arrange order (reorderers order fields) base).map FieldOf.name).Nodup := by
  have hsorted : ∀ baseFields,
      ((sortedFields (reorderers order fields) baseFields).map FieldOf.name).Nodup := by
    intro baseFields
    rw [map_name_sortedFields]
    exact (sortNames_perm _).nodup_iff.mpr hnodup
  unfold arrange
  split
  · rename_i baseFields
    have hcontract : (baseFields.map FieldOf.name).Nodup := (hbase _ rfl).self
    have hsublist := @map_name_baseOrderedFields_sublist .schemaContractFirst fields baseFields
    rw [map_append, map_name_unusedSortedFields]
    refine nodup_append.mpr ⟨hcontract.sublist hsublist, ?_, ?_⟩
    · exact (sortNames_perm _).nodup_iff.mpr (hnodup.filter _)
    · rintro n hn m hm rfl
      have hunused := (mem_filter.mp ((sortNames_perm _).subset hm)).2
      simp only [Bool.not_eq_true', contains_eq_mem, decide_eq_false_iff_not] at hunused
      exact hunused (hsublist.subset hn)
  · rw [reorderers_eq, map_map, map_map]
    have hnames : fields.map ((FieldOf.name ∘ fun r => r.2 none) ∘ fun f =>
        (f.name, reorderField .schemaContractFirst f)) = fields.map FieldOf.name := by
      apply map_congr_left
      intro f _
      exact reorderField_name _ f none
    rw [hnames]
    exact hnodup
  · exact hsorted _
  · exact hsorted _

end ArrangeLevel

/-! ### Reordered types -/

variable {inferred : List LogicalField}

section Reordered

variable {order : FieldOrderPolicy} {base : Option LogicalType}

theorem reorderType_list (v base : Option LogicalType) :
    reorderType order (.list v) base =
      .list (v.map fun t => reorderType order t (baseValue base)) := by
  cases v <;> rfl

theorem reorderField_nullable (f : LogicalField) (base : Option LogicalType) :
    (reorderField order f base).nullable = f.nullable := by
  obtain ⟨n, v, b⟩ := f
  rfl

theorem reorderField_eq_self (h : ∀ t, f.type = some t → reorderType order t base = t) :
    reorderField order f base = f := by
  obtain ⟨n, v, b⟩ := f
  cases v with
  | none => rfl
  | some t =>
    show (⟨n, some (reorderType order t base), b⟩ : LogicalField) = _
    rw [h t rfl]

theorem DistinctContract.nested {base contract : Option LogicalType} (h : DistinctContract base)
    (hcontract : ContractFor base contract) : DistinctContract contract := by
  intro t ht
  obtain ⟨baseFields, rfl, b, hb, hbt⟩ := hcontract t ht
  exact (forall_struct.mp (h _ rfl)).2 b hb t hbt

theorem DistinctContract.value (h : DistinctContract base) : DistinctContract (baseValue base) := by
  intro t ht
  unfold baseValue at ht
  split at ht
  · subst ht
    exact (forall_listSome.mp (h _ rfl)).2
  · cases ht

/-- **Reordering keeps names distinct**, by a contract with distinct names. -/
theorem reorderType_distinct (ht : t.Forall DistinctNode) :
    ∀ {base : Option LogicalType}, DistinctContract base →
      (reorderType order t base).Forall DistinctNode := by
  induction t with
  | scalar | listNone => exact fun _ => ht
  | struct fields ih =>
    intro base hbase
    obtain ⟨hlevel, hnested⟩ := forall_struct.mp ht
    show (LogicalType.struct (arrange order (reorderers order fields) base)).Forall _
    refine forall_struct.mpr ⟨arrange_names_nodup hlevel hbase, fun g hg u hu => ?_⟩
    obtain ⟨f, hf, contract, rfl, hcontract⟩ := mem_arrange hg
    rw [reorderField_type] at hu
    obtain ⟨t, ht, rfl⟩ := Option.map_eq_some_iff.mp hu
    exact ih f hf t ht (hnested f hf t ht) (hbase.nested hcontract)
  | listSome t ih =>
    intro base hbase
    rw [reorderType_list]
    exact forall_listSome.mpr ⟨trivial, ih (forall_listSome.mp ht).2 hbase.value⟩

/-- Reordering drops nothing: what was within the type still is. -/
theorem within_reorderType : ∀ {u : LogicalType}, t.Within u →
    u.Forall DistinctNode → ∀ base, t.Within (reorderType order u base) := by
  induction t with
  | scalar k =>
    intro u hu _ _
    cases u with
    | scalar => exact hu
    | struct | list => exact hu.elim
  | struct fields ih =>
    intro u hu hdistinct base
    cases u with
    | scalar | list => exact hu.elim
    | struct more =>
      obtain ⟨hlevel, hnested⟩ := forall_struct.mp hdistinct
      refine within_struct.mpr fun f hf => ?_
      obtain ⟨g, hg, hfg⟩ := within_struct.mp hu f hf
      obtain ⟨hname, hnullable, hvalue⟩ := fieldWithin_iff.mp hfg
      obtain ⟨contract, hplaced⟩ := @reorderField_mem_arrange order more base hlevel g hg
      refine ⟨_, hplaced, fieldWithin_iff.mpr ⟨?_, ?_, ?_⟩⟩
      · rw [reorderField_name, hname]
      · rw [reorderField_nullable, hnullable]
      · rw [reorderField_type]
        rcases hft : f.type with - | a
        · rw [hft] at hvalue
          rcases hgt : g.type with - | b
          · trivial
          · rw [hgt] at hvalue
            exact hvalue.elim
        · rw [hft] at hvalue
          rcases hgt : g.type with - | b
          · rw [hgt] at hvalue
            exact hvalue.elim
          · rw [hgt] at hvalue
            exact ih f hf a hft hvalue (hnested g hg b hgt) contract
  | listNone =>
    intro u hu _ _
    cases u with
    | scalar | struct => exact hu.elim
    | list value =>
      cases value with
      | none => trivial
      | some => exact hu.elim
  | listSome t ih =>
    intro u hu hdistinct base
    cases u with
    | scalar | struct => exact hu.elim
    | list value =>
      cases value with
      | none => exact hu.elim
      | some v => exact ih hu (forall_listSome.mp hdistinct).2 (baseValue base)

/-! ### Nothing more to take -/

theorem mergeFieldAdditive_eq_self (h : mergeValueAdditive f.type g.type = f.type) :
    mergeFieldAdditive f g = f := by
  obtain ⟨n, v, b⟩ := f
  show (⟨n, mergeValueAdditive v g.type, b⟩ : LogicalField) = ⟨n, v, b⟩
  rw [h]

theorem mergeTypeAdditive_absorbed (hfields : ∀ f ∈ fields, mergedField inferred f = f)
    (hnames : ∀ f ∈ inferred, f.name ∈ fields.map FieldOf.name) :
    mergeTypeAdditive (.struct fields) (.struct inferred) = .struct fields := by
  have hkept : fields.map (mergedField inferred) = fields :=
    (map_congr_left hfields).trans (map_id fields)
  have hnew : newFields fields inferred = [] := by
    apply eq_nil_iff_forall_not_mem.mpr
    intro f hf
    obtain ⟨hmem, hfresh⟩ := mem_newFields.mp hf
    exact hfresh (hnames f hmem)
  rw [mergeTypeAdditive_struct, hkept, hnew, append_nil]

theorem mem_arrange_names (hnodup : (fields.map FieldOf.name).Nodup) {name : Bytes}
    (h : name ∈ fields.map FieldOf.name) :
    name ∈ (arrange order (reorderers order fields) base).map FieldOf.name := by
  obtain ⟨f, hf, rfl⟩ := mem_map.mp h
  obtain ⟨contract, hplaced⟩ := @reorderField_mem_arrange order fields base hnodup f hf
  exact mem_map.mpr ⟨_, hplaced, reorderField_name order f contract⟩

/-- A reordered type absorbs the type it was made from. -/
theorem mergeTypeAdditive_reordered (ht : t.Forall DistinctNode) :
    ∀ base, mergeTypeAdditive (reorderType order t base) t = reorderType order t base := by
  induction t with
  | scalar | listNone => exact fun _ => rfl
  | struct fields ih =>
    intro base
    obtain ⟨hlevel, hnested⟩ := forall_struct.mp ht
    refine mergeTypeAdditive_absorbed (fun g hg => ?_) fun f hf =>
      mem_arrange_names hlevel (mem_map_of_mem hf)
    obtain ⟨f, hf, contract, rfl, -⟩ := mem_arrange hg
    rw [mergedField_some (by rw [reorderField_name, fieldNamed_self hlevel hf])]
    refine mergeFieldAdditive_eq_self ?_
    rw [reorderField_type]
    rcases htype : f.type with - | u
    · rfl
    · exact congrArg some (ih f hf u htype (hnested f hf u htype) contract)
  | listSome t ih =>
    exact fun base => congrArg (fun t => LogicalType.list (some t))
      (ih (forall_listSome.mp ht).2 (baseValue base))

/-- **A merged and reordered type takes nothing more from the inferred type.**  Each field of
a level is the contract's, merged with the inferred field of its name, or it is an inferred
one. -/
theorem mergeTypeAdditive_reorder (ht : t.Forall DistinctNode) :
    ∀ {u : LogicalType}, u.Forall DistinctNode → ∀ base,
      mergeTypeAdditive (reorderType order (mergeTypeAdditive t u) base) u =
        reorderType order (mergeTypeAdditive t u) base := by
  induction t with
  | scalar k => exact fun _ _ => by rfl
  | struct fields ih =>
    intro u hu base
    cases u with
    | scalar | list => rfl
    | struct inferred =>
      have hdistinct := mergeTypeAdditive_distinct ht hu
      obtain ⟨-, hnested⟩ := forall_struct.mp ht
      obtain ⟨hinferred, hbelow⟩ := forall_struct.mp hu
      rw [mergeTypeAdditive_struct] at hdistinct ⊢
      have hlevel := (forall_struct.mp hdistinct).1
      refine mergeTypeAdditive_absorbed (fun g hg => ?_) fun f hf =>
        mem_arrange_names hlevel (mem_merged_names (mem_map_of_mem hf))
      obtain ⟨f, hf, contract, rfl, -⟩ := mem_arrange hg
      rcases mem_append.mp hf with hmerged | hnew
      · -- a field of the contract: the second merge meets the field of the first one
        obtain ⟨f, hbase, rfl⟩ := mem_map.mp hmerged
        have hname : (reorderField order (mergedField inferred f) contract).name = f.name := by
          rw [reorderField_name, mergedField_name]
        rcases hg : fieldNamed inferred f.name with - | h
        · exact mergedField_none (by rw [hname, hg])
        · rw [mergedField_some (by rw [hname, hg])]
          refine mergeFieldAdditive_eq_self ?_
          rw [reorderField_type, mergedField_some hg, mergeFieldAdditive_type]
          rcases hft : f.type with - | a
          · rfl
          · rcases hht : h.type with - | b
            · rfl
            · exact congrArg some (ih f hbase a hft (hnested f hbase a hft)
                (hbelow h (mem_of_find?_eq_some hg) b hht) contract)
      · have hmem := (mem_newFields.mp hnew).1
        rw [mergedField_some (by rw [reorderField_name, fieldNamed_self hinferred hmem])]
        refine mergeFieldAdditive_eq_self ?_
        rw [reorderField_type]
        rcases htype : f.type with - | a
        · rfl
        · exact congrArg some (mergeTypeAdditive_reordered (hbelow f hmem a htype) contract)
  | listNone =>
    intro u _ base
    cases u <;> rfl
  | listSome t ih =>
    intro u hu base
    cases u with
    | scalar | struct => rfl
    | list value =>
      cases value with
      | none => rfl
      | some v =>
        exact congrArg (fun t => LogicalType.list (some t))
          (ih (forall_listSome.mp ht).2 (forall_listSome.mp hu).2 (baseValue base))

/-- Reordering a type by itself as the contract changes nothing. -/
theorem reorderType_self (ht : t.Forall DistinctNode) :
    reorderType .schemaContractFirst t (some t) = t := by
  induction t with
  | scalar k => rfl
  | struct fields ih =>
    obtain ⟨hlevel, hnested⟩ := forall_struct.mp ht
    have hkept : baseOrderedFields (reorderers .schemaContractFirst fields) fields = fields := by
      rw [baseOrderedFields_eq]
      refine (filterMap_congr fun f hf => ?_).trans filterMap_some
      rw [fieldNamed_self hlevel hf, Option.map_some]
      refine congrArg some (reorderField_eq_self fun t ht => ?_)
      rw [ht]
      exact ih f hf t ht (hnested f hf t ht)
    have hunused : unusedSortedFields (reorderers .schemaContractFirst fields) fields = [] := by
      rw [unusedSortedFields_eq]
      have hnone : ((fields.map FieldOf.name).filter fun n =>
          !(fields.map FieldOf.name).contains n) = [] := by
        apply filter_eq_nil_iff.mpr
        intro n hn
        simpa using hn
      rw [hnone]
      rfl
    show LogicalType.struct (baseOrderedFields _ fields ++ unusedSortedFields _ fields) = _
    rw [hkept, hunused, append_nil]
  | listNone => rfl
  | listSome t ih =>
    exact congrArg (fun t => LogicalType.list (some t)) (ih (forall_listSome.mp ht).2)

end Reordered

/-! ### Alphabetical order -/

section Alphabetical

/-- Under the alphabetical policy the contract has no influence. -/
theorem reorderType_alphabetically (t : LogicalType) :
    ∀ base, reorderType .alphabetically t base = alphabetize t := by
  induction t with
  | scalar | listNone => exact fun _ => rfl
  | struct fields ih =>
    intro base
    have hlevel : ∀ baseFields, sortedFields (reorderers .alphabetically fields) baseFields =
        sortedFields (reorderers .alphabetically fields) [] := by
      intro baseFields
      rw [sortedFields_eq, sortedFields_eq]
      congr 1
      funext n
      refine Option.map_congr fun f hf => ?_
      obtain ⟨hmem, -⟩ := mem_fieldNamed hf
      obtain ⟨name, value, nullable⟩ := f
      cases value with
      | none => rfl
      | some t =>
        show (⟨name, some (reorderType .alphabetically t _), nullable⟩ : LogicalField) =
          ⟨name, some (reorderType .alphabetically t _), nullable⟩
        rw [ih _ hmem t rfl, ih _ hmem t rfl]
    show LogicalType.struct (arrange .alphabetically _ base) = .struct (sortedFields _ [])
    unfold arrange
    split
    · contradiction
    · contradiction
    · rw [hlevel]
    · rfl
  | listSome t ih =>
    exact fun base => congrArg (fun t => LogicalType.list (some t)) (ih (baseValue base))

theorem fieldNamed_perm {fields' : List LogicalField} (hnodup : (fields.map FieldOf.name).Nodup)
    (hperm : fields.Perm fields') (name : Bytes) :
    fieldNamed fields name = fieldNamed fields' name := by
  have hnodup' : (fields'.map FieldOf.name).Nodup := (hperm.map _).nodup_iff.mp hnodup
  rcases h : fieldNamed fields name with - | f
  · rcases h' : fieldNamed fields' name with - | g
    · rfl
    · obtain ⟨hmem, hname⟩ := mem_fieldNamed h'
      obtain ⟨f, hf⟩ := fieldNamed_isSome (mem_map.mpr ⟨g, hperm.mem_iff.mpr hmem, hname⟩)
      rw [h] at hf
      cases hf
  · obtain ⟨hmem, rfl⟩ := mem_fieldNamed h
    exact (fieldNamed_self hnodup' (hperm.subset hmem)).symm

theorem sortFields_congr {fields' : List LogicalField} (hnodup : (fields.map FieldOf.name).Nodup)
    (hperm : fields.Perm fields') : sortFields fields = sortFields fields' := by
  unfold sortFields
  rw [sortNames_congr (hperm.map FieldOf.name)]
  congr 1
  funext n
  exact fieldNamed_perm hnodup hperm n

theorem map_name_mapType (g : LogicalType → LogicalType) (fields : List LogicalField) :
    (fields.map (FieldOf.mapType g)).map FieldOf.name = fields.map FieldOf.name := by
  rw [map_map]
  rfl

theorem alphabetize_distinct (ht : t.Forall DistinctNode) : (alphabetize t).Forall DistinctNode :=
  reorderType_distinct ht fun _ h => nomatch h

theorem alphabetize_idem (ht : t.Forall DistinctNode) :
    alphabetize (alphabetize t) = alphabetize t :=
  alphabetize_eq_self (alphabetize_distinct ht) (alphabetize_alphabetical t)

/-- **Sorting forgets the order of siblings.** -/
theorem SameUpToOrder.alphabetize {u : LogicalType} (h : SameUpToOrder t u) :
    t.Forall DistinctNode → SchemaSanitizer.alphabetize t = SchemaSanitizer.alphabetize u ∧
      u.Forall DistinctNode := by
  induction h with
  | scalar | listNone => exact fun h => ⟨rfl, h⟩
  | listSome h ih =>
    intro ht
    obtain ⟨hsame, hdistinct⟩ := ih (forall_listSome.mp ht).2
    exact ⟨congrArg (fun t => LogicalType.list (some t)) hsame,
      forall_listSome.mpr ⟨trivial, hdistinct⟩⟩
  | struct hperm hlen hfield htype ih =>
    rename_i fs gs hs
    intro ht
    obtain ⟨hlevel, hnested⟩ := forall_struct.mp ht
    have hpair : ∀ (i : Nat) (hi : i < fs.length) (hi' : i < hs.length),
        fs[i].name = hs[i].name ∧
          fs[i].mapType SchemaSanitizer.alphabetize = hs[i].mapType SchemaSanitizer.alphabetize ∧
          ∀ u, hs[i].type = some u → u.Forall DistinctNode := by
      intro i hi hi'
      have hf := getElem?_eq_getElem hi
      have hh := getElem?_eq_getElem hi'
      obtain ⟨hname, hnullable, htypes⟩ := hfield i _ _ hf hh
      refine ⟨hname, ?_⟩
      rcases hft : fs[i].type with - | t
      · have hht := htypes.mp hft
        refine ⟨?_, fun u hu => ?_⟩
        · rw [FieldOf.mapType, FieldOf.mapType, hname, hnullable, hft, hht]
        · rw [hht] at hu
          cases hu
      · rcases hht : hs[i].type with - | u
        · rw [htypes.mpr hht] at hft
          cases hft
        · obtain ⟨hsame, hdistinct⟩ :=
            ih i _ _ t u hf hh hft hht (hnested _ (getElem_mem hi) t hft)
          refine ⟨?_, fun v hv => ?_⟩
          · rw [FieldOf.mapType, FieldOf.mapType, hname, hnullable, hft, hht, Option.map_some,
              Option.map_some, hsame]
          · cases hv
            exact hdistinct
    have hnames : fs.map FieldOf.name = hs.map FieldOf.name := by
      apply ext_getElem
      · rw [length_map, length_map, hlen]
      · intro i hi hi'
        rw [length_map] at hi hi'
        rw [getElem_map, getElem_map]
        exact (hpair i hi hi').1
    have hsorted : fs.map (FieldOf.mapType SchemaSanitizer.alphabetize) =
        hs.map (FieldOf.mapType SchemaSanitizer.alphabetize) := by
      apply ext_getElem
      · rw [length_map, length_map, hlen]
      · intro i hi hi'
        rw [length_map] at hi hi'
        rw [getElem_map, getElem_map]
        exact (hpair i hi hi').2.1
    have hnodup : (hs.map FieldOf.name).Nodup := hnames ▸ hlevel
    refine ⟨?_, forall_struct.mpr ⟨(hperm.map _).nodup_iff.mp hnodup, fun g hg u hu => ?_⟩⟩
    · rw [alphabetize_struct, alphabetize_struct, hsorted]
      refine congrArg LogicalType.struct (sortFields_congr ?_ (hperm.map _))
      rw [map_name_mapType]
      exact hnodup
    · obtain ⟨i, hi, rfl⟩ := mem_iff_getElem.mp (hperm.mem_iff.mpr hg)
      exact (hpair i (hlen ▸ hi) hi).2.2 u hu

/-- The merged fields depend on the order of neither side, up to a permutation. -/
theorem merged_perm {base base' inferred' : List LogicalField}
    (hnodup : (inferred.map FieldOf.name).Nodup) (hbase : base.Perm base')
    (hinferred : inferred.Perm inferred') :
    (base.map (mergedField inferred) ++ newFields base inferred).Perm
      (base'.map (mergedField inferred') ++ newFields base' inferred') := by
  have hmerged : mergedField inferred = mergedField inferred' := by
    funext f
    unfold mergedField
    rw [fieldNamed_perm hnodup hinferred]
  have hnew : (fun f : LogicalField => !(base.map FieldOf.name).contains f.name) =
      fun f => !(base'.map FieldOf.name).contains f.name := by
    funext f
    rw [(hbase.map FieldOf.name).contains_eq]
  refine List.Perm.append ?_ ?_
  · rw [hmerged]
    exact hbase.map _
  · unfold newFields
    rw [hnew]
    exact hinferred.filter _

theorem mapType_alphabetize_idem (h : ∀ t, f.type = some t → t.Forall DistinctNode) :
    (f.mapType alphabetize).mapType alphabetize = f.mapType alphabetize := by
  refine mapType_eq_self fun u hu => ?_
  obtain ⟨t, ht, rfl⟩ := Option.map_eq_some_iff.mp hu
  exact alphabetize_idem (h t ht)

theorem newFields_mapType (g : LogicalType → LogicalType) (base inferred : List LogicalField) :
    newFields (base.map (FieldOf.mapType g)) (inferred.map (FieldOf.mapType g)) =
      (newFields base inferred).map (FieldOf.mapType g) := by
  unfold newFields
  rw [filter_map, map_name_mapType]
  rfl

theorem mapType_mergedField {f : LogicalField} {inferred : List LogicalField}
    (hf : ∀ t, f.type = some t → t.Forall DistinctNode)
    (hinferred : ∀ g ∈ inferred, ∀ u, g.type = some u → u.Forall DistinctNode)
    (hmerge : ∀ t, f.type = some t → ∀ u : LogicalType, u.Forall DistinctNode →
      alphabetize (mergeTypeAdditive t u) =
        alphabetize (mergeTypeAdditive (alphabetize t) (alphabetize u))) :
    (mergedField (inferred.map (FieldOf.mapType alphabetize))
        (f.mapType alphabetize)).mapType alphabetize =
      (mergedField inferred f).mapType alphabetize := by
  have hfound : fieldNamed (inferred.map (FieldOf.mapType alphabetize)) (f.mapType alphabetize).name
      = (fieldNamed inferred f.name).map (FieldOf.mapType alphabetize) :=
    fieldNamed_map alphabetize inferred f.name
  rcases hg : fieldNamed inferred f.name with - | g
  · rw [hg] at hfound
    rw [mergedField_none hfound, mergedField_none hg]
    exact mapType_alphabetize_idem hf
  · rw [hg] at hfound
    rw [mergedField_some hfound, mergedField_some hg]
    have hbelow := hinferred g (mem_of_find?_eq_some hg)
    obtain ⟨name, value, nullable⟩ := f
    show (⟨name, (mergeValueAdditive (value.map alphabetize)
      (g.type.map alphabetize)).map alphabetize,
        nullable⟩ : LogicalField) =
          ⟨name, (mergeValueAdditive value g.type).map alphabetize, nullable⟩
    cases value with
    | none => rfl
    | some t =>
      rcases hgt : g.type with - | u
      · show (⟨name, some (alphabetize (alphabetize t)), nullable⟩ : LogicalField) = _
        rw [alphabetize_idem (hf t rfl)]
        rfl
      · show (⟨name, some (alphabetize (mergeTypeAdditive (alphabetize t) (alphabetize u))),
          nullable⟩ : LogicalField) = _
        rw [← hmerge t rfl u (hbelow u hgt)]
        rfl

/-- **Sorting what is merged gives the same sorted result.** -/
theorem alphabetize_merge (ht : t.Forall DistinctNode) :
    ∀ u : LogicalType, u.Forall DistinctNode →
      alphabetize (mergeTypeAdditive t u) =
        alphabetize (mergeTypeAdditive (alphabetize t) (alphabetize u)) := by
  induction t with
  | scalar k => exact fun _ _ => rfl
  | struct fields ih =>
    intro u hu
    cases u with
    | scalar | list => exact (alphabetize_idem ht).symm
    | struct inferred =>
      obtain ⟨hlevel, hnested⟩ := forall_struct.mp ht
      obtain ⟨hinferred, hbelow⟩ := forall_struct.mp hu
      have hnodup : ((fields.map (FieldOf.mapType alphabetize)).map FieldOf.name).Nodup := by
        rw [map_name_mapType]
        exact hlevel
      have hnodup' : ((inferred.map (FieldOf.mapType alphabetize)).map FieldOf.name).Nodup := by
        rw [map_name_mapType]
        exact hinferred
      have hsame : ((fields.map (FieldOf.mapType alphabetize)).map
            (mergedField (inferred.map (FieldOf.mapType alphabetize))) ++
          newFields (fields.map (FieldOf.mapType alphabetize))
            (inferred.map (FieldOf.mapType alphabetize))).map (FieldOf.mapType alphabetize) =
          (fields.map (mergedField inferred) ++ newFields fields inferred).map
            (FieldOf.mapType alphabetize) := by
        rw [map_append, map_append, newFields_mapType]
        simp only [map_map]
        congr 1
        · apply map_congr_left
          intro f hf
          exact mapType_mergedField (hnested f hf) hbelow fun t ht =>
            ih f hf t ht (hnested f hf t ht)
        · apply map_congr_left
          intro f hf
          exact mapType_alphabetize_idem (hbelow f (mem_newFields.mp hf).1)
      -- the sorted levels are merged to the same fields as the levels with sorted types
      have hperm := merged_perm hnodup' (sortFields_perm hnodup).symm
        (sortFields_perm hnodup').symm
      rw [alphabetize_struct fields, alphabetize_struct inferred, mergeTypeAdditive_struct,
        mergeTypeAdditive_struct, alphabetize_struct, alphabetize_struct, ← hsame]
      refine congrArg LogicalType.struct (sortFields_congr ?_ (hperm.map _))
      rw [map_name_mapType]
      exact merged_names_nodup hnodup hnodup'
  | listNone => exact fun u _ => by cases u <;> rfl
  | listSome t ih =>
    intro u hu
    cases u with
    | scalar | struct => exact (alphabetize_idem ht).symm
    | list value =>
      cases value with
      | none => exact (alphabetize_idem ht).symm
      | some v =>
        exact congrArg (fun t => LogicalType.list (some t))
          (ih (forall_listSome.mp ht).2 v (forall_listSome.mp hu).2)

end Alphabetical

/-! ### Inferred names -/

mutual

/-- Every name of the first type has its place in the second one, at the root and below it
wherever both have a struct. -/
def LogicalType.NamesIn : LogicalType → LogicalType → Prop
  | .struct fields, .struct more => FieldsNamedIn fields more
  | .list value, .list value' => ValueNamesIn value value'
  | _, _ => True
termination_by structural t => t

/-- The same for the element of a list or the type of a field. -/
def ValueNamesIn : Option LogicalType → Option LogicalType → Prop
  | some t, some u => t.NamesIn u
  | _, _ => True
termination_by structural v => v

/-- A field of that name, with the names below it. -/
def FieldNamedIn : LogicalField → LogicalField → Prop
  | ⟨name, value, _⟩, g => g.name = name ∧ ValueNamesIn value g.type
termination_by structural f => f

/-- Every name of a level has its field. -/
def FieldsNamedIn : List LogicalField → List LogicalField → Prop
  | [], _ => True
  | f :: fs, more => (∃ g ∈ more, FieldNamedIn f g) ∧ FieldsNamedIn fs more
termination_by structural fs => fs

end

theorem namesIn_struct :
    (LogicalType.struct fields).NamesIn (.struct more) ↔
      ∀ f ∈ fields, ∃ g ∈ more, FieldNamedIn f g := by
  show FieldsNamedIn fields more ↔ _
  induction fields with
  | nil => simp [FieldsNamedIn]
  | cons f fs ih => simp [FieldsNamedIn, ih]

/-- A type absorbs only types whose names it already has. -/
theorem namesIn_of_absorbed (ht : t.Forall DistinctNode) :
    ∀ {u : LogicalType}, mergeTypeAdditive u t = u → t.NamesIn u := by
  induction t with
  | scalar | listNone => exact fun {u} _ => by cases u <;> trivial
  | struct fields ih =>
    intro u hu
    cases u with
    | scalar | list => trivial
    | struct more =>
      obtain ⟨hlevel, hnested⟩ := forall_struct.mp ht
      rw [mergeTypeAdditive_struct] at hu
      have hmore := LogicalType.struct.inj hu
      have hnew : newFields more fields = [] := by
        have hlength := congrArg length hmore
        rw [length_append, length_map] at hlength
        exact eq_nil_of_length_eq_zero (by omega)
      rw [hnew, append_nil] at hmore
      refine namesIn_struct.mpr fun f hf => ?_
      have hname : f.name ∈ more.map FieldOf.name := by
        by_contra hfresh
        have hmem := mem_newFields.mpr ⟨hf, hfresh⟩
        rw [hnew] at hmem
        cases hmem
      obtain ⟨g, hg, hgname⟩ := mem_map.mp hname
      have hkept : mergedField fields g = g := by
        have hself : more.map (mergedField fields) = more.map id := by
          rw [hmore, map_id]
        exact map_inj_left.mp hself g hg
      rw [mergedField_some (by rw [hgname, fieldNamed_self hlevel hf])] at hkept
      have htype := congrArg FieldOf.type hkept
      rw [mergeFieldAdditive_type] at htype
      refine ⟨g, hg, ?_⟩
      obtain ⟨name, value, nullable⟩ := f
      refine ⟨hgname, ?_⟩
      cases value with
      | none => trivial
      | some a =>
        rcases hgt : g.type with - | b
        · trivial
        · rw [hgt] at htype
          exact ih _ hf a rfl (hnested _ hf a rfl) (Option.some.inj htype)
  | listSome t ih =>
    intro u hu
    cases u with
    | scalar | struct => trivial
    | list value =>
      cases value with
      | none => trivial
      | some v =>
        exact ih (forall_listSome.mp ht).2 (Option.some.inj (LogicalType.list.inj hu))

/-! ### Evolution of schemas -/

/-- The contract a level is reordered by: an empty schema is no contract. -/
def contractType (base : LogicalSchema) : Option LogicalType :=
  if base.fields = [] then none else some (.struct base.fields)

section Evolve

variable {base inferred : LogicalSchema} {order : FieldOrderPolicy}

theorem mergeSchemaAdditive_struct :
    LogicalType.struct (mergeSchemaAdditive base inferred).fields =
      mergeTypeAdditive (.struct base.fields) (.struct inferred.fields) := by
  unfold mergeSchemaAdditive
  split
  · rename_i hempty
    rw [mergeTypeAdditive_struct, hempty]
    have hall : newFields [] inferred.fields = inferred.fields :=
      filter_eq_self.mpr fun _ _ => rfl
    rw [hall]
    rfl
  · rw [mergeTypeAdditive_struct, mergeFieldsAdditive, mergeBaseFields_eq]
    rfl

theorem arrange_nil (contract : Option LogicalType) :
    arrange order (reorderers order []) contract = [] := by
  apply eq_nil_iff_forall_not_mem.mpr
  intro g hg
  obtain ⟨f, hf, -⟩ := mem_arrange hg
  cases hf

/-- Additive evolution never fails: it merges and reorders. -/
theorem evolveSchema_additive (base inferred : LogicalSchema) (order : FieldOrderPolicy) :
    ∃ evolved, evolveSchema base inferred .additive order = .ok evolved ∧
      .struct evolved.fields =
        reorderType order (mergeTypeAdditive (.struct base.fields) (.struct inferred.fields))
          (contractType base) := by
  refine ⟨_, rfl, ?_⟩
  rw [← mergeSchemaAdditive_struct]
  show _ = LogicalType.struct (arrange order (reorderers order _) (contractType base))
  unfold reorderSchemaFields contractType
  split
  · rename_i hempty
    rw [hempty, arrange_nil]
  · by_cases hcontract : base.fields = []
    · simp only [if_pos hcontract]
    · simp only [if_neg hcontract]

theorem distinctContract_contractType (hbase : base.DistinctNames) :
    DistinctContract (contractType base) := by
  intro t ht
  unfold contractType at ht
  split at ht
  · cases ht
  · cases ht
    exact hbase

/-- An evolved schema is already in the order of its policy. -/
theorem evolved_in_order {evolved : LogicalSchema} (hdistinct : evolved.DistinctNames)
    (hsorted : order = .alphabetically →
      alphabetize (.struct evolved.fields) = .struct evolved.fields) :
    reorderType order (.struct evolved.fields) (contractType evolved) = .struct evolved.fields := by
  cases order with
  | alphabetically =>
    rw [reorderType_alphabetically]
    exact hsorted rfl
  | schemaContractFirst =>
    unfold contractType
    split
    · rename_i hempty
      rw [hempty]
      rfl
    · exact reorderType_self hdistinct

/-- **Additive evolution is a stable extension.**  It succeeds; evolving its result once more
with the same inferred schema returns it; every field of the contract is there with a type that
has only got more struct fields; every inferred name is there, below the root as well wherever
the result has a struct; and in alphabetical order it is the same for any order of siblings. -/
theorem evolveSchema_stable_extension (base inferred : LogicalSchema) (order : FieldOrderPolicy)
    (hbase : base.DistinctNames) (hinferred : inferred.DistinctNames) :
    ∃ evolved, evolveSchema base inferred .additive order = .ok evolved ∧
      evolveSchema evolved inferred .additive order = .ok evolved ∧
      (∀ f ∈ base.fields, ∃ g ∈ evolved.fields, FieldWithin f g) ∧
      (∀ f ∈ inferred.fields, ∃ g ∈ evolved.fields, FieldNamedIn f g) ∧
      (order = .alphabetically → ∀ base' inferred' : LogicalSchema,
        SameUpToOrder (.struct base.fields) (.struct base'.fields) →
        SameUpToOrder (.struct inferred.fields) (.struct inferred'.fields) →
        evolveSchema base' inferred' .additive order = .ok evolved) := by
  obtain ⟨evolved, hevolved, htype⟩ := evolveSchema_additive base inferred order
  have hmerged := mergeTypeAdditive_distinct hbase hinferred
  have hdistinct : evolved.DistinctNames := by
    unfold LogicalSchema.DistinctNames
    rw [htype]
    exact reorderType_distinct hmerged (distinctContract_contractType hbase)
  have habsorbed : mergeTypeAdditive (.struct evolved.fields) (.struct inferred.fields) =
      .struct evolved.fields := by
    rw [htype]
    exact mergeTypeAdditive_reorder hbase hinferred (contractType base)
  refine ⟨evolved, hevolved, ?_, ?_, ?_, ?_⟩
  · obtain ⟨again, hagain, htypeAgain⟩ := evolveSchema_additive evolved inferred order
    rw [habsorbed, evolved_in_order hdistinct] at htypeAgain
    · obtain ⟨fields⟩ := again
      obtain ⟨fields'⟩ := evolved
      cases htypeAgain
      exact hagain
    · rintro rfl
      rw [htype, reorderType_alphabetically]
      exact alphabetize_idem hmerged
  · refine within_struct.mp ?_
    rw [htype]
    exact within_reorderType (within_mergeTypeAdditive _ _) hmerged (contractType base)
  · exact namesIn_struct.mp (namesIn_of_absorbed hinferred habsorbed)
  · rintro rfl base' inferred' hsame hsame'
    obtain ⟨hsorted, hbase'⟩ := hsame.alphabetize hbase
    obtain ⟨hsorted', hinferred'⟩ := hsame'.alphabetize hinferred
    obtain ⟨other, hother, htypeOther⟩ := evolveSchema_additive base' inferred' .alphabetically
    have hequal : LogicalType.struct other.fields = .struct evolved.fields := by
      rw [htypeOther, htype, reorderType_alphabetically, reorderType_alphabetically,
        alphabetize_merge hbase' _ hinferred', alphabetize_merge hbase _ hinferred,
          hsorted, hsorted']
    obtain ⟨fields⟩ := other
    obtain ⟨fields'⟩ := evolved
    cases hequal
    exact hother

end Evolve

/-- A contract with a list of structs whose elements the inferred schema extends. -/
def listContract : LogicalSchema :=
  ⟨[⟨bytes "rows", some (.list (some (.struct [⟨bytes "y", some (.scalar .int64), true⟩]))), true⟩,
    ⟨bytes "id", some (.scalar .int64), true⟩]⟩

/-- The inferred schema: one more field in the elements and one at the root, and another type
for a field of the contract. -/
def listInferred : LogicalSchema :=
  ⟨[⟨bytes "id", some (.scalar .utf8), true⟩, ⟨bytes "day", some (.scalar .utf8), true⟩,
    ⟨bytes "rows", some (.list (some (.struct [⟨bytes "x", some (.scalar .utf8), true⟩]))), true⟩]⟩

theorem evolveSchema_stable_extension_lists :
    listContract.DistinctNames ∧ listInferred.DistinctNames ∧
      ∃ evolved, evolveSchema listContract listInferred .additive .schemaContractFirst =
      .ok evolved ∧
        evolveSchema evolved listInferred .additive .schemaContractFirst = .ok evolved ∧
        (∀ f ∈ listContract.fields, ∃ g ∈ evolved.fields, FieldWithin f g) ∧
        ∀ f ∈ listInferred.fields, ∃ g ∈ evolved.fields, FieldNamedIn f g := by
  have hbase : listContract.DistinctNames := by decide
  have hinferred : listInferred.DistinctNames := by decide
  obtain ⟨evolved, hevolved, hagain, hkept, hnames, -⟩ :=
    evolveSchema_stable_extension listContract listInferred .schemaContractFirst hbase hinferred
  exact ⟨hbase, hinferred, evolved, hevolved, hagain, hkept, hnames⟩

end SchemaSanitizer
