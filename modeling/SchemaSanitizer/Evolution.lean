/-
SchemaSanitizer/Evolution.lean

Contract evolution and field order (`planning/schema_evolution.cc`).  A schema
is reconciled with a contract strictly or additively and its fields are then put
in contract order or in alphabetical order, at every level.

The recursion of `reorder_type` follows the current schema, while the fields of
a struct are emitted in the order of names found elsewhere.  The model makes
that structural: each field is first turned into a function from its contract
type to the reordered field (`reorderers`), and `arrange` then places these
functions without any recursion.

`FieldMap` keeps the first field of each name, as `emplace` does; names repeated
in the current schema therefore all stand for their first field.

The registry never passes a contract: `reorderSchemaFields_alphabetically` says
that alphabetical order is then `alphabetize`, which sorts the fields of every level.
-/
import SchemaSanitizer.Normalize

namespace SchemaSanitizer

open List

/-- `SchemaEvolutionMode`. -/
inductive SchemaEvolutionMode
  | strict
  | additive
  deriving DecidableEq, Repr

/-- `FieldOrderPolicy`. -/
inductive FieldOrderPolicy
  | alphabetically
  | schemaContractFirst
  deriving DecidableEq, Repr

/-- A lookup in `build_field_map`: the first field of a name. -/
def fieldNamed (fields : List LogicalField) (name : Bytes) : Option LogicalField :=
  fields.find? fun f => f.name == name

/-- The lexical order of `std::ranges::sort` on names. -/
def sortNames (names : List Bytes) : List Bytes := names.insertionSort (· ≤ ·)

/-! ### Additive merge with a contract -/

mutual

/-- `merge_type_additive`: containers are merged, everything else keeps the
contract type. -/
def mergeTypeAdditive : LogicalType → LogicalType → LogicalType
  | .struct base, .struct inferred =>
    .struct (mergeBaseFields base inferred ++
      inferred.filter fun f => !(base.map FieldOf.name).contains f.name)
  | .list base, .list inferred => .list (mergeValueAdditive base inferred)
  | base, _ => base
termination_by structural t => t

/-- The elements of two lists are merged when both are known. -/
def mergeValueAdditive : Option LogicalType → Option LogicalType → Option LogicalType
  | some base, some inferred => some (mergeTypeAdditive base inferred)
  | base, _ => base
termination_by structural v => v

/-- `merge_field_additive`: the contract's field, with its type merged when
both types are known. -/
def mergeFieldAdditive : LogicalField → LogicalField → LogicalField
  | ⟨n, v, b⟩, inferred => ⟨n, mergeValueAdditive v inferred.type, b⟩
termination_by structural f => f

/-- The contract's fields, each merged with the inferred field of its name. -/
def mergeBaseFields : List LogicalField → List LogicalField → List LogicalField
  | [], _ => []
  | f :: fs, inferred =>
    (match fieldNamed inferred f.name with
      | none => f
      | some g => mergeFieldAdditive f g) :: mergeBaseFields fs inferred
termination_by structural fs => fs

end

/-- `merge_fields_additive`: the contract's fields, then the new ones. -/
def mergeFieldsAdditive (base inferred : List LogicalField) : List LogicalField :=
  mergeBaseFields base inferred ++
    inferred.filter fun f => !(base.map FieldOf.name).contains f.name

/-- `merge_schema_additive`. -/
def mergeSchemaAdditive (base inferred : LogicalSchema) : LogicalSchema :=
  if base.fields = [] then inferred else ⟨mergeFieldsAdditive base.fields inferred.fields⟩

/-! ### Field order -/

/-- A field waiting for its contract type: its name and what it becomes. -/
abbrev Reorderer := Bytes × (Option LogicalType → LogicalField)

/-- The reorderer `FieldMap` holds for a name. -/
def reordererNamed (current : List Reorderer) (name : Bytes) :
    Option (Option LogicalType → LogicalField) :=
  (current.find? fun r => r.1 == name).map Prod.snd

/-- `append_base_ordered_fields`. -/
def baseOrderedFields (current : List Reorderer) (base : List LogicalField) :
    List LogicalField :=
  base.filterMap fun f => (reordererNamed current f.name).map fun reorder => reorder f.type

/-- `append_unused_sorted_fields`. -/
def unusedSortedFields (current : List Reorderer) (base : List LogicalField) :
    List LogicalField :=
  (sortNames ((current.map Prod.fst).filter fun n => !(base.map FieldOf.name).contains n)).filterMap
    fun n => (reordererNamed current n).map fun reorder => reorder none

/-- `append_sorted_fields`. -/
def sortedFields (current : List Reorderer) (base : List LogicalField) : List LogicalField :=
  (sortNames (current.map Prod.fst)).filterMap
    fun n => (reordererNamed current n).map fun reorder =>
      reorder ((fieldNamed base n).bind FieldOf.type)

/-- `reorder_struct_fields`: place the fields of one struct. -/
def arrange (order : FieldOrderPolicy) (current : List Reorderer) (base : Option LogicalType) :
    List LogicalField :=
  match order, base with
  | .schemaContractFirst, some (.struct baseFields) =>
    baseOrderedFields current baseFields ++ unusedSortedFields current baseFields
  | .schemaContractFirst, _ => current.map fun r => r.2 none
  | .alphabetically, some (.struct baseFields) => sortedFields current baseFields
  | .alphabetically, _ => sortedFields current []

/-- The element type a contract gives for a list. -/
def baseValue : Option LogicalType → Option LogicalType
  | some (.list v) => v
  | _ => none

mutual

/-- `reorder_type`. -/
def reorderType (order : FieldOrderPolicy) : LogicalType → Option LogicalType → LogicalType
  | .scalar k, _ => .scalar k
  | .struct fs, base => .struct (arrange order (reorderers order fs) base)
  | .list v, base => .list (reorderValue order v (baseValue base))
termination_by structural t => t

/-- The element of a list, if it has one. -/
def reorderValue (order : FieldOrderPolicy) :
    Option LogicalType → Option LogicalType → Option LogicalType
  | none, _ => none
  | some t, base => some (reorderType order t base)
termination_by structural v => v

/-- `reorder_field`. -/
def reorderField (order : FieldOrderPolicy) : LogicalField → Option LogicalType → LogicalField
  | ⟨n, v, b⟩, base => ⟨n, reorderValue order v base, b⟩
termination_by structural f => f

/-- The fields of a struct, each waiting for its contract type. -/
def reorderers (order : FieldOrderPolicy) : List LogicalField → List Reorderer
  | [] => []
  | f :: fs => (f.name, reorderField order f) :: reorderers order fs
termination_by structural fs => fs

end

/-- `reorder_schema_fields`. -/
def reorderSchemaFields (schema : LogicalSchema) (base : Option LogicalSchema)
    (order : FieldOrderPolicy) : LogicalSchema :=
  if schema.fields = [] then schema
  else
    match base with
    | some b =>
      if b.fields = [] then ⟨arrange order (reorderers order schema.fields) none⟩
      else ⟨arrange order (reorderers order schema.fields) (some (.struct b.fields))⟩
    | none => ⟨arrange order (reorderers order schema.fields) none⟩

/-- The errors of strict evolution. -/
inductive EvolutionError
  | emptyContract
  | extraField (name : Bytes)
  deriving DecidableEq, Repr

/-- The text of a strict evolution error. -/
def EvolutionError.message : EvolutionError → Bytes
  | .emptyContract => bytes "Strict schema evolution requires a non-empty schema_contract"
  | .extraField name =>
    bytes "Strict schema evolution: observed extra field \'" ++ name ++ bytes "\'"

/-- `check_strict_compatible`: the first inferred top-level field absent from the
contract is an error. -/
def checkStrictCompatible (base inferred : LogicalSchema) : Except EvolutionError Unit :=
  if base.fields = [] then .error .emptyContract
  else
    match inferred.fields.find? fun f => !(base.fields.map FieldOf.name).contains f.name with
    | some f => .error (.extraField f.name)
    | none => .ok ()

/-- `evolve_schema`. -/
def evolveSchema (base inferred : LogicalSchema) (mode : SchemaEvolutionMode)
    (order : FieldOrderPolicy) : Except EvolutionError LogicalSchema :=
  let contract := if base.fields = [] then none else some base
  match mode with
  | .strict => do
      checkStrictCompatible base inferred
      match order with
      | .schemaContractFirst => pure base
      | .alphabetically => pure (reorderSchemaFields base contract order)
  | .additive => pure (reorderSchemaFields (mergeSchemaAdditive base inferred) contract order)

/-! ### Alphabetical order without a contract -/

/-- Alphabetical order of one level: the sorted names, each with the first field
of that name. -/
def sortFields (fields : List LogicalField) : List LogicalField :=
  (sortNames (fields.map FieldOf.name)).filterMap (fieldNamed fields)

/-- Alphabetical order at every level of a type. -/
def alphabetize (t : LogicalType) : LogicalType := reorderType .alphabetically t none

theorem fieldNamed_map (g : LogicalType → LogicalType) (fields : List LogicalField) (name : Bytes) :
    fieldNamed (fields.map (FieldOf.mapType g)) name
      = (fieldNamed fields name).map (FieldOf.mapType g) := by
  unfold fieldNamed
  rw [find?_map]
  rfl

theorem reorderers_eq (order : FieldOrderPolicy) : ∀ fields : List LogicalField,
    reorderers order fields = fields.map fun f => (f.name, reorderField order f)
  | [] => rfl
  | f :: fs => by rw [reorderers, reorderers_eq order fs, map_cons]

variable (order : FieldOrderPolicy)

theorem reordererNamed_reorderers (fields : List LogicalField) (name : Bytes) :
    reordererNamed (reorderers order fields) name
      = (fieldNamed fields name).map (reorderField order) := by
  rw [reordererNamed, reorderers_eq, find?_map, Option.map_map]
  rfl

section Placed

variable {order : FieldOrderPolicy} {fields : List LogicalField}

theorem map_fst_reorderers : (reorderers order fields).map Prod.fst = fields.map FieldOf.name := by
  rw [reorderers_eq, map_map]
  rfl

variable (baseFields : List LogicalField)

theorem sortedFields_eq :
    sortedFields (reorderers order fields) baseFields =
      (sortNames (fields.map FieldOf.name)).filterMap fun n => (fieldNamed fields n).map fun f =>
        reorderField order f ((fieldNamed baseFields n).bind FieldOf.type) := by
  unfold sortedFields
  rw [map_fst_reorderers]
  congr 1
  funext n
  rw [reordererNamed_reorderers, Option.map_map]
  rfl

theorem baseOrderedFields_eq :
    baseOrderedFields (reorderers order fields) baseFields =
      baseFields.filterMap fun b => (fieldNamed fields b.name).map fun f =>
        reorderField order f b.type := by
  unfold baseOrderedFields
  congr 1
  funext b
  rw [reordererNamed_reorderers, Option.map_map]
  rfl

theorem unusedSortedFields_eq :
    unusedSortedFields (reorderers order fields) baseFields =
      (sortNames ((fields.map FieldOf.name).filter fun n =>
        !(baseFields.map FieldOf.name).contains n)).filterMap fun n =>
          (fieldNamed fields n).map fun f => reorderField order f none := by
  unfold unusedSortedFields
  rw [map_fst_reorderers]
  congr 1
  funext n
  rw [reordererNamed_reorderers, Option.map_map]
  rfl

/-- The types a contract has for the fields of a level. -/
def ContractFor (base contract : Option LogicalType) : Prop :=
  ∀ t, contract = some t → ∃ baseFields, base = some (.struct baseFields) ∧
    ∃ b ∈ baseFields, b.type = some t

/-- Every arranged field is a reordered field under a contract of the base. -/
theorem mem_arrange {base : Option LogicalType} {g : LogicalField}
    (h : g ∈ arrange order (reorderers order fields) base) :
    ∃ f ∈ fields, ∃ contract, g = reorderField order f contract ∧ ContractFor base contract := by
  have hnone : ContractFor base none := by
    intro t ht
    cases ht
  unfold arrange at h
  split at h
  · rename_i baseFields
    rcases mem_append.mp h with h | h
    · rw [baseOrderedFields_eq] at h
      obtain ⟨b, hb, hg⟩ := mem_filterMap.mp h
      obtain ⟨f, hf, rfl⟩ := Option.map_eq_some_iff.mp hg
      exact ⟨f, mem_of_find?_eq_some hf, b.type, rfl, fun t ht => ⟨baseFields, rfl, b, hb, ht⟩⟩
    · rw [unusedSortedFields_eq] at h
      obtain ⟨n, -, hg⟩ := mem_filterMap.mp h
      obtain ⟨f, hf, rfl⟩ := Option.map_eq_some_iff.mp hg
      exact ⟨f, mem_of_find?_eq_some hf, none, rfl, hnone⟩
  · rw [reorderers_eq, map_map] at h
    obtain ⟨f, hf, rfl⟩ := mem_map.mp h
    exact ⟨f, hf, none, rfl, hnone⟩
  · rename_i baseFields
    rw [sortedFields_eq] at h
    obtain ⟨n, -, hg⟩ := mem_filterMap.mp h
    obtain ⟨f, hf, rfl⟩ := Option.map_eq_some_iff.mp hg
    refine ⟨f, mem_of_find?_eq_some hf, _, rfl, fun t ht => ?_⟩
    obtain ⟨b, hb, ht⟩ := Option.bind_eq_some_iff.mp ht
    exact ⟨baseFields, rfl, b, mem_of_find?_eq_some hb, ht⟩
  · rw [sortedFields_eq] at h
    obtain ⟨n, -, hg⟩ := mem_filterMap.mp h
    obtain ⟨f, hf, rfl⟩ := Option.map_eq_some_iff.mp hg
    exact ⟨f, mem_of_find?_eq_some hf, none, rfl, hnone⟩

end Placed

theorem reorderField_name (f : LogicalField) (contract : Option LogicalType) :
    (reorderField order f contract).name = f.name := by
  obtain ⟨n, v, b⟩ := f
  rfl

theorem reorderField_type (f : LogicalField) (contract : Option LogicalType) :
    (reorderField order f contract).type = f.type.map fun t => reorderType order t contract := by
  obtain ⟨n, v, b⟩ := f
  cases v <;> rfl

theorem reorderField_none (f : LogicalField) :
    reorderField .alphabetically f none = f.mapType alphabetize := by
  obtain ⟨n, v, b⟩ := f
  cases v <;> rfl

theorem arrange_alphabetically (fields : List LogicalField) :
    arrange .alphabetically (reorderers .alphabetically fields) none
      = sortFields (fields.map (FieldOf.mapType alphabetize)) := by
  have hnames : (reorderers .alphabetically fields).map Prod.fst
      = (fields.map (FieldOf.mapType alphabetize)).map FieldOf.name := by
    rw [reorderers_eq, map_map, map_map]
    rfl
  show sortedFields (reorderers .alphabetically fields) [] = _
  rw [sortedFields, sortFields, hnames]
  congr 1
  funext n
  rw [reordererNamed_reorderers, fieldNamed_map, Option.map_map]
  congr 1
  funext f
  exact reorderField_none f

theorem alphabetize_struct (fields : List LogicalField) :
    alphabetize (.struct fields)
      = .struct (sortFields (fields.map (FieldOf.mapType alphabetize))) := by
  rw [← arrange_alphabetically]
  rfl

theorem alphabetize_list (v : Option LogicalType) :
    alphabetize (.list v) = .list (v.map alphabetize) := by
  cases v <;> rfl

theorem reorderSchemaFields_alphabetically (schema : LogicalSchema) :
    LogicalType.struct (reorderSchemaFields schema none .alphabetically).fields
      = alphabetize (.struct schema.fields) := by
  unfold reorderSchemaFields
  split
  · rename_i hnil
    rw [hnil]
    rfl
  · rw [arrange_alphabetically, alphabetize_struct]

/-! ### Sorting one level -/

variable {f : LogicalField} {fields : List LogicalField}

theorem mem_fieldNamed {name : Bytes} (h : fieldNamed fields name = some f) :
    f ∈ fields ∧ f.name = name := by
  refine ⟨mem_of_find?_eq_some h, ?_⟩
  simpa using find?_some h

theorem fieldNamed_isSome {name : Bytes} (h : name ∈ fields.map FieldOf.name) :
    ∃ f, fieldNamed fields name = some f := by
  obtain ⟨f, hf, hname⟩ := mem_map.mp h
  apply Option.isSome_iff_exists.mp
  rw [fieldNamed, find?_isSome]
  exact ⟨f, hf, by simp [hname]⟩

theorem fieldNamed_self (h : (fields.map FieldOf.name).Nodup) (hf : f ∈ fields) :
    fieldNamed fields f.name = some f := by
  obtain ⟨g, hg⟩ := fieldNamed_isSome (mem_map_of_mem hf)
  obtain ⟨hmem, hname⟩ := mem_fieldNamed hg
  rw [hg, inj_on_of_nodup_map h hmem hf hname]

theorem filterMap_fieldNamed (h : (fields.map FieldOf.name).Nodup) :
    (fields.map FieldOf.name).filterMap (fieldNamed fields) = fields := by
  rw [filterMap_map]
  have hself : ∀ f ∈ fields, (fieldNamed fields ∘ FieldOf.name) f = some f :=
    fun f hf => fieldNamed_self h hf
  rw [filterMap_congr hself]
  exact filterMap_some

theorem sortNames_perm (names : List Bytes) : (sortNames names).Perm names :=
  perm_insertionSort _ names

theorem sortNames_sorted (names : List Bytes) : (sortNames names).Pairwise (· ≤ ·) := by
  have : Std.Total (α := Bytes) (· ≤ ·) := ⟨fun a b => List.le_total a b⟩
  exact pairwise_insertionSort _ names

theorem sortNames_congr {names names' : List Bytes} (h : names.Perm names') :
    sortNames names = sortNames names' := by
  refine List.Perm.eq_of_pairwise (fun a b _ _ hab hba => List.le_antisymm hab hba)
    (sortNames_sorted names) (sortNames_sorted names') ?_
  exact ((sortNames_perm names).trans h).trans (sortNames_perm names').symm

theorem sortNames_eq_self {names : List Bytes} (h : names.Pairwise (· ≤ ·)) :
    sortNames names = names :=
  List.Pairwise.insertionSort_eq h

theorem sortFields_names (fields : List LogicalField) :
    (sortFields fields).map FieldOf.name = sortNames (fields.map FieldOf.name) := by
  have hall : ∀ l : List Bytes, (∀ n ∈ l, n ∈ fields.map FieldOf.name) →
      (l.filterMap (fieldNamed fields)).map FieldOf.name = l := by
    intro l
    induction l with
    | nil => intro _; rfl
    | cons n l ih =>
      intro hmem
      obtain ⟨f, hf⟩ := fieldNamed_isSome (hmem n mem_cons_self)
      rw [filterMap_cons_some hf, map_cons, (mem_fieldNamed hf).2,
        ih fun m hm => hmem m (mem_cons_of_mem n hm)]
  exact hall _ fun n hn => (sortNames_perm _).subset hn

/-- **Sorting distinct names permutes the fields.** -/
theorem sortFields_perm (h : (fields.map FieldOf.name).Nodup) :
    (sortFields fields).Perm fields := by
  have hperm := (sortNames_perm (fields.map FieldOf.name)).filterMap (fieldNamed fields)
  rwa [filterMap_fieldNamed h] at hperm

theorem mem_sortFields (hf : f ∈ sortFields fields) : f ∈ fields := by
  obtain ⟨n, -, hn⟩ := mem_filterMap.mp hf
  exact (mem_fieldNamed hn).1

theorem sortFields_eq_self (h : (fields.map FieldOf.name).Nodup)
    (hsorted : (fields.map FieldOf.name).Pairwise (· ≤ ·)) : sortFields fields = fields := by
  rw [sortFields, sortNames_eq_self hsorted, filterMap_fieldNamed h]

theorem sortFields_sorted (fields : List LogicalField) :
    ((sortFields fields).map FieldOf.name).Pairwise (· ≤ ·) := by
  rw [sortFields_names]
  exact sortNames_sorted _

theorem levelMap_alphabetize :
    LevelMap alphabetize fun fields => sortFields (fields.map (FieldOf.mapType alphabetize)) where
  scalar := fun _ => rfl
  struct := alphabetize_struct
  list := alphabetize_list
  types := by
    intro fields g t hg ht
    obtain ⟨f, hf, rfl⟩ := mem_map.mp (mem_sortFields hg)
    exact .inl ⟨f, hf, Option.map_eq_some_iff.mp ht⟩

/-! ### Distinct names -/

/-- The sibling names of a struct are distinct. -/
def DistinctNode : LogicalType → Prop
  | .struct fields => (fields.map FieldOf.name).Nodup
  | _ => True

instance : DecidablePred DistinctNode
  | .scalar _ => inferInstanceAs (Decidable True)
  | .struct fields => inferInstanceAs (Decidable (fields.map FieldOf.name).Nodup)
  | .list _ => inferInstanceAs (Decidable True)

end SchemaSanitizer
