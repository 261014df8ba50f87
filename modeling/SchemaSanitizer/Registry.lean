/-
SchemaSanitizer/Registry.lean

The public merge operation (`schema_registry/schema_registry_entry.cc`): check the
input, normalize both schemas, evolve strictly or merge additively, normalize
the result, put it in alphabetical order if asked, and publish the documents.

`mergeCanonical` is the part that computes the schema and its drift events.
-/
import SchemaSanitizer.Document

namespace SchemaSanitizer

/-- `SchemaRegistryMergeInput`. -/
structure SchemaRegistryMergeInput where
  inferredSchema : LogicalSchema
  registryJson : Bytes
  fieldNamePolicy : Bytes
  defaultKeyName : Bytes
  detectedAt : Bytes
  schemaEvolution : SchemaEvolutionMode
  fieldOrder : FieldOrderPolicy

/-- The errors of a registry merge. -/
inductive RegistryError
  | fieldNamePolicyEmpty
  | defaultKeyNameEmpty
  | clock (message : Bytes)
  | noCanonicalSchema
  | evolution (error : EvolutionError)
  deriving DecidableEq, Repr

/-- The text of a registry error. -/
def RegistryError.message : RegistryError → Bytes
  | .fieldNamePolicyEmpty => bytes "schema registry merge: field_name_policy is empty"
  | .defaultKeyNameEmpty => bytes "schema registry merge: default_key_name is empty"
  | .clock message => message
  | .noCanonicalSchema =>
    bytes "Strict schema evolution requires a non-empty canonical schema"
  | .evolution error => error.message

/-- `SchemaRegistryMergeResult`, with the drift events kept beside their text. -/
structure SchemaRegistryMergeResult where
  schema : LogicalSchema
  drifts : List DriftEvent
  driftsJson : Bytes
  registryJson : Bytes
  detectedAt : Bytes
  deriving DecidableEq

/-! ### The canonical schema of a merge -/

variable {clock : Except Bytes Bytes} {input : SchemaRegistryMergeInput}
  {result : SchemaRegistryMergeResult}

/-- The event of a field seen by an empty registry. -/
def firstSeen (f : LogicalField) : DriftEvent :=
  ⟨f.name, f.name, .newlyAdded, none, fieldTypeString f⟩

/-- Alphabetical order is applied after an additive merge; the other policy keeps
the merged order. -/
def applyOrder (order : FieldOrderPolicy) (schema : LogicalSchema) : LogicalSchema :=
  match order with
  | .alphabetically => reorderSchemaFields schema none order
  | .schemaContractFirst => schema

theorem applyOrder_rule {P : LogicalType → Prop} (order : FieldOrderPolicy) {schema : LogicalSchema}
    (h : P (.struct schema.fields)) (hsorted : P (alphabetize (.struct schema.fields))) :
    P (.struct (applyOrder order schema).fields) := by
  cases order with
  | alphabetically =>
    rw [← reorderSchemaFields_alphabetically] at hsorted
    exact hsorted
  | schemaContractFirst => exact h

/-- An additive merge of `inferred` into `previous`. -/
def additiveMerge (key : Bytes) (order : FieldOrderPolicy) (previous inferred : LogicalSchema) :
    LogicalSchema × List DriftEvent :=
  if previous.fields = [] then
    let schema := normalizeIntegerFloatSchema inferred
    (applyOrder order (normalizeIntegerFloatSchema schema), schema.fields.map firstSeen)
  else
    let merged := mergeFields key (normalizeIntegerFloatSchema previous).fields
      (normalizeIntegerFloatSchema inferred).fields []
    (applyOrder order (normalizeIntegerFloatSchema ⟨merged.1⟩), merged.2)

/-- A strict merge: the normalized contract if it has every inferred field. -/
def strictMerge (order : FieldOrderPolicy) (previous inferred : LogicalSchema) :
    Except RegistryError (LogicalSchema × List DriftEvent) :=
  if previous.fields = [] then .error .noCanonicalSchema
  else
    match evolveSchema (normalizeIntegerFloatSchema previous)
        (normalizeIntegerFloatSchema inferred) .strict order with
    | .error e => .error (.evolution e)
    | .ok schema => .ok (normalizeIntegerFloatSchema schema, [])

/-- The schema and the drift events of a merge.  No previous schema counts as an
empty one. -/
def mergeCanonical (input : SchemaRegistryMergeInput) (previous : Option LogicalSchema) :
    Except RegistryError (LogicalSchema × List DriftEvent) :=
  let previous := previous.getD ⟨[]⟩
  match input.schemaEvolution with
  | .strict => strictMerge input.fieldOrder previous input.inferredSchema
  | .additive =>
    .ok (additiveMerge input.defaultKeyName input.fieldOrder previous input.inferredSchema)

/-- `merge_schema_registry_with_previous`.  `clock` is
`current_utc_iso_timestamp`, asked only when the input carries no timestamp. -/
def mergeSchemaRegistryWithPrevious (clock : Except Bytes Bytes)
    (input : SchemaRegistryMergeInput) (previous : Option LogicalSchema) :
    Except RegistryError SchemaRegistryMergeResult :=
  if input.fieldNamePolicy = [] then .error .fieldNamePolicyEmpty
  else if input.defaultKeyName = [] then .error .defaultKeyNameEmpty
  else
    match if input.detectedAt = [] then clock else .ok input.detectedAt with
    | .error message => .error (.clock message)
    | .ok detectedAt =>
      match mergeCanonical input previous with
      | .error e => .error e
      | .ok (schema, drifts) =>
        .ok { schema, drifts
              driftsJson := driftEventsJson drifts detectedAt
              registryJson := registryJson schema input.registryJson input.fieldNamePolicy
                (!drifts.isEmpty)
              detectedAt }

/-- **Inversion of a successful merge**: the input was complete and the schema,
the events and the document are those of the canonical merge. -/
theorem merge_ok {previous : Option LogicalSchema}
    (h : mergeSchemaRegistryWithPrevious clock input previous = .ok result) :
    input.fieldNamePolicy ≠ [] ∧ input.defaultKeyName ≠ [] ∧
      mergeCanonical input previous = .ok (result.schema, result.drifts) ∧
      result.registryJson = registryJson result.schema input.registryJson input.fieldNamePolicy
        (!result.drifts.isEmpty) := by
  unfold mergeSchemaRegistryWithPrevious at h
  split at h
  · cases h
  rename_i hpolicy
  split at h
  · cases h
  rename_i hkey
  split at h
  · cases h
  split at h
  · cases h
  rename_i hmerge
  cases h
  exact ⟨hpolicy, hkey, hmerge, rfl⟩

theorem merge_ok_additive {previous : LogicalSchema} (hmode : input.schemaEvolution = .additive)
    (h : mergeSchemaRegistryWithPrevious clock input (some previous) = .ok result) :
    additiveMerge input.defaultKeyName input.fieldOrder previous input.inferredSchema
      = (result.schema, result.drifts) := by
  obtain ⟨-, -, hmerge, -⟩ := merge_ok h
  simpa [mergeCanonical, hmode] using hmerge

theorem merge_again {previous : Option LogicalSchema} (hmode : input.schemaEvolution = .additive)
    (h : mergeSchemaRegistryWithPrevious clock input previous = .ok result) (registry : Bytes)
    (next : LogicalSchema) :
    ∃ again, mergeSchemaRegistryWithPrevious clock { input with registryJson := registry }
        (some next) = .ok again ∧
      additiveMerge input.defaultKeyName input.fieldOrder next input.inferredSchema
        = (again.schema, again.drifts) := by
  unfold mergeSchemaRegistryWithPrevious at h ⊢
  split at h
  · cases h
  rename_i hpolicy
  split at h
  · cases h
  rename_i hkey
  rw [if_neg (by exact hpolicy), if_neg (by exact hkey)]
  split at h
  · cases h
  rename_i detectedAt hclock
  simp only [hclock, mergeCanonical, hmode, Option.getD_some]
  exact ⟨_, rfl, rfl⟩

end SchemaSanitizer
