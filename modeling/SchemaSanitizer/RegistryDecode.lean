/-
SchemaSanitizer/RegistryDecode.lean

Reading the canonical schema of a registry document
(`schema_registry/schema_registry_json.cc`).

The budget of nodes is passed along.  The depth of a type is counted down as in
the scanner: a type at depth `d` is decoded with room `513 - d`, on which the
decoder recurses, and depth 513 is refused.
-/
import SchemaSanitizer.JsonValue

namespace SchemaSanitizer

/-- `kMaxLogicalSchemaFieldsPerStruct`. -/
def maxLogicalSchemaFieldsPerStruct : Nat := 65536

/-- `kMaxLogicalSchemaNodes`. -/
def maxLogicalSchemaNodes : Nat := 262144

/-- `kMaxLogicalSchemaDepth`. -/
def maxLogicalSchemaDepth : Nat := 512

/-- `kMaxLogicalSchemaPayloadBytes`. -/
def maxLogicalSchemaPayloadBytes : Nat := 64 * 1024 * 1024

/-- An error about the canonical schema. -/
def schemaError {α : Type} (message : Bytes) : Parsed α :=
  .error (bytes "schema registry canonical_schema " ++ message)

/-- `consume_node`: the budget that is left. -/
def consumeNode (budget : Nat) : Parsed Nat :=
  match budget with
  | 0 => schemaError (bytes "node count exceeds safety limit")
  | budget + 1 => .ok budget

section Decoder

variable (isFloat : Bytes → Bool)

/-- `object_member`: the last member of a name. -/
def objectMember (object : ValueView) (member : Bytes) : Parsed (Option ValueView) :=
  match object with
  | .object text base =>
    forEachObjectField isFloat
      (fun out key value => .ok (if key = member then some value else out)) text base none
  | _ => schemaError (bytes "node is not an object")

/-- `required_object_member`. -/
def requiredObjectMember (object : ValueView) (member : Bytes) (context : String) :
    Parsed ValueView := do
  match ← objectMember isFloat object member with
  | some value => .ok value
  | none => schemaError (bytes context ++ bytes " is missing " ++ member)

/-- `logical_field_from_registry_node`, with `decodeType` for the type of the field. -/
def logicalFieldFromRegistryNode (decodeType : ValueView → Nat → Parsed (LogicalType × Nat))
    (node : ValueView) (budget : Nat) : Parsed (LogicalField × Nat) := do
  let budget ← consumeNode budget
  match node with
  | .object _ _ =>
    match ← requiredObjectMember isFloat node (bytes "name") "field" with
    | .string name =>
      if name = [] then schemaError (bytes "field is missing name")
      else
        match ← requiredObjectMember isFloat node (bytes "type") "field" with
        | .object text base => do
            let nullable ←
              match ← objectMember isFloat node (bytes "nullable") with
              | none => .ok true
              | some (.bool b) => .ok b
              | some _ =>
                schemaError (bytes "field " ++ name ++ bytes " nullable must be bool")
            let r ← decodeType (.object text base) budget
            .ok (⟨name, some r.1, nullable⟩, r.2)
        | _ => schemaError (bytes "field " ++ name ++ bytes " is missing type")
    | _ => schemaError (bytes "field is missing name")
  | _ => schemaError (bytes "field is not an object")

/-- `logical_fields_from_registry_array`. -/
def logicalFieldsFromRegistryArray (decodeType : ValueView → Nat → Parsed (LogicalType × Nat))
    (fieldsValue : ValueView) (context : String) (budget : Nat) :
    Parsed (List LogicalField × Nat) :=
  match fieldsValue with
  | .array text base =>
    forEachArrayElement isFloat
      (fun s value =>
        if maxLogicalSchemaFieldsPerStruct ≤ s.1.length then
          schemaError (bytes "field count exceeds safety limit")
        else do
          let r ← logicalFieldFromRegistryNode isFloat decodeType value s.2
          .ok (s.1 ++ [r.1], r.2))
      text base ([], budget)
  | _ => schemaError (bytes context ++ bytes " is missing fields")

/-- The kinds without parts. -/
def scalarOfKindName (kind : Bytes) : Option ScalarKind :=
  if kind = bytes "null" then some .null
  else if kind = bytes "bool" then some .bool
  else if kind = bytes "int64" then some .int64
  else if kind = bytes "float64" then some .float64
  else if kind = bytes "string" then some .utf8
  else if kind = bytes "timestamp_ns" then some .timestampNs
  else if kind = bytes "date32" then some .date32
  else if kind = bytes "time32s" then some .time32s
  else none

/-- `logical_type_from_registry_node`. -/
def logicalTypeFromRegistryNode : (room : Nat) → ValueView → Nat → Parsed (LogicalType × Nat)
  | 0, _, _ => schemaError (bytes "nesting exceeds safety limit")
  | room + 1, node, budget => do
      let budget ← consumeNode budget
      match node with
      | .object _ _ =>
        match ← requiredObjectMember isFloat node (bytes "kind") "type" with
        | .string kind =>
          match scalarOfKindName kind with
          | some k => .ok (.scalar k, budget)
          | none =>
            if kind = bytes "list" then
              match ← requiredObjectMember isFloat node (bytes "value") "list type" with
              | .object text base => do
                  let r ← logicalTypeFromRegistryNode room (.object text base) budget
                  .ok (.list (some r.1), r.2)
              | _ => schemaError (bytes "list type is missing value")
            else if kind = bytes "struct" then do
              let fields ←
                requiredObjectMember isFloat node (bytes "fields") "struct type"
              let r ← logicalFieldsFromRegistryArray isFloat
                (logicalTypeFromRegistryNode room) fields "struct type" budget
              .ok (.struct r.1, r.2)
            else
              .error (bytes "Unsupported schema_registry canonical_schema kind: " ++ kind)
        | _ => schemaError (bytes "type kind must be string")
      | _ => schemaError (bytes "type is not an object")

/-- `canonical_schema_from_registry_json`; the fields of the root are at depth zero,
and their types at depth one. -/
def canonicalSchemaFromRegistryJson (registryJson : Bytes) : Parsed (Option LogicalSchema) := do
  if registryJson = [] then .ok none
  else if maxLogicalSchemaPayloadBytes < registryJson.length then
    .error (bytes "schema_registry JSON payload exceeds safety limit")
  else
    match ← parseValue isFloat registryJson 0 with
    | .object text base =>
      match ← objectMember isFloat (.object text base) (bytes "canonical_schema") with
      | none => .ok none
      | some (.object text base) => do
          let fields ← requiredObjectMember isFloat (.object text base) (bytes "fields")
            "root schema"
          let r ← logicalFieldsFromRegistryArray isFloat
            (logicalTypeFromRegistryNode isFloat maxLogicalSchemaDepth) fields "root schema"
            maxLogicalSchemaNodes
          .ok (some ⟨r.1⟩)
      | some _ =>
        .error (bytes "schema_registry canonical_schema must be a JSON object")
    | _ => .error (bytes "schema_registry must be a JSON object")

end Decoder

end SchemaSanitizer
