/-
SchemaSanitizer/Document.lean

The registry document (`schema_registry_document_json.cc`,
`schema_registry_json_schema_write.cc`, `schema_registry_drift_json.cc` and the
token writer they share).  A merge publishes the canonical schema, the variants
of every source path and a generation counter as one compact JSON text; the
counter of the previous document is recovered by searching its text.
-/
import SchemaSanitizer.Merge

namespace SchemaSanitizer

/-! ### JSON tokens -/

/-- `kHex`, the digit of a number below sixteen. -/
def hexDigit (n : UInt8) : UInt8 := if n < 10 then 48 + n else 87 + n

/-- `append_escaped_byte` for the bytes that need an escape, the byte itself
otherwise. -/
def escapeByte (c : UInt8) : Bytes :=
  if c = byte '"' then [byte '\\', byte '"']
  else if c = byte '\\' then [byte '\\', byte '\\']
  else if c = 8 then [byte '\\', byte 'b']
  else if c = 12 then [byte '\\', byte 'f']
  else if c = 10 then [byte '\\', byte 'n']
  else if c = 13 then [byte '\\', byte 'r']
  else if c = 9 then [byte '\\', byte 't']
  else if c < 32 then bytes "\\u00" ++ [hexDigit (c >>> 4), hexDigit (c &&& 15)]
  else [c]

/-- `append_string`. -/
def jsonString (s : Bytes) : Bytes := [byte '"'] ++ s.flatMap escapeByte ++ [byte '"']

/-- A comma-separated sequence. -/
def jsonSequence (items : List Bytes) : Bytes := (bytes ",").intercalate items

/-- An array of written values. -/
def jsonArray (items : List Bytes) : Bytes := [byte '['] ++ jsonSequence items ++ [byte ']']

/-- One member, as `append_key` and its callers write it. -/
def jsonMember (key value : Bytes) : Bytes := jsonString key ++ [byte ':'] ++ value

/-- An object of written members. -/
def jsonObject (members : List Bytes) : Bytes :=
  [byte '\x7b'] ++ jsonSequence members ++ [byte '\x7d']

/-- The two boolean tokens. -/
def jsonBool (b : Bool) : Bytes := if b then bytes "true" else bytes "false"

/-- `append_int_field` writes an integer with an optional minus sign. -/
def jsonInt (n : Int) : Bytes :=
  if n < 0 then [byte '-'] ++ decimal n.natAbs else decimal n.toNat

/-! ### The canonical schema -/

/-- `logical_type_kind_name` of a scalar. -/
def ScalarKind.kindName : ScalarKind → Bytes
  | .null => bytes "null"
  | .bool => bytes "bool"
  | .int64 => bytes "int64"
  | .float64 => bytes "float64"
  | .utf8 => bytes "string"
  | .timestampNs => bytes "timestamp_ns"
  | .date32 => bytes "date32"
  | .time32s => bytes "time32s"

/-- The member that names the kind of a type. -/
def kindMember (name : Bytes) : Bytes := jsonMember (bytes "kind") (jsonString name)

/-- A missing type is written as the null type. -/
def nullTypeJson : Bytes := jsonObject [kindMember (bytes "null")]

mutual

/-- `append_logical_type_json`. -/
def logicalTypeJson : LogicalType → Bytes
  | .scalar k => jsonObject [kindMember k.kindName]
  | .struct fs =>
    jsonObject [kindMember (bytes "struct"),
      jsonMember (bytes "fields") (jsonArray (logicalFieldJsons fs))]
  | .list v =>
    jsonObject [kindMember (bytes "list"), jsonMember (bytes "value") (valueTypeJson v)]

/-- An optional type. -/
def valueTypeJson : Option LogicalType → Bytes
  | none => nullTypeJson
  | some t => logicalTypeJson t

/-- `append_logical_field_json`. -/
def logicalFieldJson : LogicalField → Bytes
  | ⟨n, v, b⟩ =>
    jsonObject [jsonMember (bytes "name") (jsonString n),
      jsonMember (bytes "nullable") (jsonBool b),
      jsonMember (bytes "type") (valueTypeJson v)]

/-- The entries of `append_logical_fields_json`. -/
def logicalFieldJsons : List LogicalField → List Bytes
  | [] => []
  | f :: fs => logicalFieldJson f :: logicalFieldJsons fs

end

/-- `append_canonical_schema_json`. -/
def canonicalSchemaJson (schema : LogicalSchema) : Bytes :=
  jsonObject [jsonMember (bytes "fields") (jsonArray (logicalFieldJsons schema.fields))]

/-! ### Variants -/

/-- `TopLevelKind`. -/
inductive TopLevelKind
  | scalar
  | struct
  | list
  deriving DecidableEq, Repr

/-- `top_level_kind`. -/
def topLevelKind : LogicalType → TopLevelKind
  | .scalar _ => .scalar
  | .struct _ => .struct
  | .list _ => .list

/-- `RegistryVariant`. -/
structure RegistryVariant where
  sourcePath : Bytes
  outputName : Bytes
  schema : Bytes
  topLevelKind : TopLevelKind
  deriving DecidableEq, Repr

/-- `compatibility_rank`. -/
def compatibilityRank : TopLevelKind → Nat
  | .list => 3
  | .struct => 2
  | .scalar => 1

mutual

/-- The variants below a type: those of a struct, or of a list of structs. -/
def collectNested : LogicalType → Bytes → List RegistryVariant
  | .scalar _, _ => []
  | .struct fs, path => collectRegistryVariants fs path
  | .list v, path => collectElement v (path ++ bytes "[]")

/-- The element of a list counts only if it is a struct. -/
def collectElement : Option LogicalType → Bytes → List RegistryVariant
  | none, _ => []
  | some t, path => if topLevelKind t = .struct then collectNested t path else []

/-- The variants of one field: its own record first. -/
def collectField : LogicalField → Bytes → List RegistryVariant
  | ⟨n, v, _⟩, parent =>
    let path := joinPath parent (sourceSegmentForOutput n)
    ⟨path, n, valueTypeString v, (v.map topLevelKind).getD .scalar⟩ :: collectValue v path

/-- The type of a field, if it has one. -/
def collectValue : Option LogicalType → Bytes → List RegistryVariant
  | none, _ => []
  | some t, path => collectNested t path

/-- `collect_registry_variants`. -/
def collectRegistryVariants : List LogicalField → Bytes → List RegistryVariant
  | [], _ => []
  | f :: fs, parent => collectField f parent ++ collectRegistryVariants fs parent

end

/-- The position of the current version in a group: the last one of the
highest rank. -/
def currentIndex (group : List RegistryVariant) : Nat :=
  let rank := fun i => ((group[i]?).map fun r => compatibilityRank r.topLevelKind).getD 0
  (List.range group.length).foldl (fun current i => if rank i ≥ rank current then i else current) 0

/-- `append_registry_version`. -/
def registryVersionJson (r : RegistryVariant) (isCurrent : Bool) : Bytes :=
  jsonObject [jsonMember (bytes "output_name") (jsonString r.outputName),
    jsonMember (bytes "schema") (jsonString r.schema),
    jsonMember (bytes "is_most_compatible_current_version") (jsonBool isCurrent)]

/-- The versions of one source path. -/
def variantGroupJson (group : List RegistryVariant) : Bytes :=
  let path := (group.head?.map RegistryVariant.sourcePath).getD []
  let versions := group.zipIdx.map fun p => registryVersionJson p.1 (p.2 == currentIndex group)
  jsonMember path (jsonObject [jsonMember (bytes "versions") (jsonArray versions)])

/-- `append_registry_variants_json`: stable sort by source path, one member per
path. -/
def registryVariantsJson (records : List RegistryVariant) : Bytes :=
  let sorted := records.insertionSort fun a b => a.sourcePath ≤ b.sourcePath
  jsonObject ((sorted.splitBy fun a b => a.sourcePath == b.sourcePath).map variantGroupJson)

/-! ### The generation counter -/

/-- The text after the first occurrence of a pattern. -/
def afterFirst (pat : Bytes) : Bytes → Option Bytes
  | [] => if pat = [] then some [] else none
  | c :: cs =>
    if pat.isPrefixOf (c :: cs) then some ((c :: cs).drop pat.length) else afterFirst pat cs

/-- `std::isspace` in the C locale. -/
def isSpace (c : UInt8) : Bool := c == 32 || (9 ≤ c && c ≤ 13)

/-- The key `parse_schema_generation` searches for, with its quotes. -/
def generationKey : Bytes := jsonString (bytes "schema_generation")

/-- The value read after a key: the number after the next colon, one if there
is none or it is not positive. -/
def readGeneration (rest : Bytes) : Int :=
  match afterFirst [byte ':'] rest with
  | none => 1
  | some value =>
    match fromChars int64Min int64Max (value.dropWhile isSpace) with
    | some (n, _) => if n < 1 then 1 else n
    | none => 1

/-- `parse_schema_generation`. -/
def parseSchemaGeneration (registryJson : Bytes) : Int :=
  match afterFirst generationKey registryJson with
  | none => 1
  | some rest => readGeneration rest

/-- The document `registry_json` writes for a generation. -/
def registryDocument (schema : LogicalSchema) (fieldNamePolicy : Bytes) (generation : Int) :
    Bytes :=
  jsonObject [jsonMember (bytes "field_name_policy") (jsonString fieldNamePolicy),
    jsonMember (bytes "registry_version") (jsonInt 1),
    jsonMember (bytes "schema_generation") (jsonInt generation),
    jsonMember (bytes "canonical_schema") (canonicalSchemaJson schema),
    jsonMember (bytes "variants")
      (registryVariantsJson (collectRegistryVariants schema.fields []))]

/-- The sum of two `int64_t`.  An overflow, which C++ leaves undefined, wraps around here. -/
def int64Add (a b : Int) : Int := (a + b).bmod (2 ^ 64)

/-- `registry_json`: a drift moves the generation on by one. -/
def registryJson (schema : LogicalSchema) (previousRegistryJson fieldNamePolicy : Bytes)
    (hasDrifts : Bool) : Bytes :=
  registryDocument schema fieldNamePolicy
    (int64Add (parseSchemaGeneration previousRegistryJson) (if hasDrifts then 1 else 0))

theorem int64Add_of_le {a b : Int} (hlo : int64Min ≤ a + b) (hhi : a + b ≤ int64Max) :
    int64Add a b = a + b := by
  rw [int64Min] at hlo
  rw [int64Max] at hhi
  exact Int.bmod_eq_of_le (by omega) (by omega)

/-- Whatever the document holds, the generation read is positive and fits `int64`. -/
theorem parseSchemaGeneration_range (registryJson : Bytes) :
    1 ≤ parseSchemaGeneration registryJson ∧ parseSchemaGeneration registryJson ≤ int64Max := by
  have hone : (1 : Int) ≤ 1 ∧ (1 : Int) ≤ int64Max := by decide
  rw [parseSchemaGeneration]
  split
  · exact hone
  rw [readGeneration]
  split
  · exact hone
  split
  · rename_i n _ hread
    split
    · exact hone
    · exact ⟨by omega, (fromChars_range hread).2⟩
  · exact hone

/-! ### Drift events -/

/-- `append_drift_event`. -/
def driftEventJson (detectedAt : Bytes) (event : DriftEvent) : Bytes :=
  jsonObject [jsonMember (bytes "detected_at") (jsonString detectedAt),
    jsonMember (bytes "source_path") (jsonString event.sourcePath),
    jsonMember (bytes "output_name") (jsonString event.outputName),
    jsonMember (bytes "drift_type") (jsonString event.driftType.text),
    jsonMember (bytes "previous_schema")
      ((event.previousSchema.map jsonString).getD (bytes "null")),
    jsonMember (bytes "new_schema") (jsonString event.newSchema)]

/-- `drift_events_json`. -/
def driftEventsJson (events : List DriftEvent) (detectedAt : Bytes) : Bytes :=
  jsonArray (events.map (driftEventJson detectedAt))

end SchemaSanitizer
