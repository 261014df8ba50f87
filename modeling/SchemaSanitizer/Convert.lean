/-
SchemaSanitizer/Convert.lean

Conversion of values to cells (`internal/materialization/conversion/`).  A
value is converted against a column plan: scalars are coerced, arrays become
lists, objects become structs, and what does not fit is wrapped (a single value
into a list, a value that is no object into the default-key child of a struct)
or reported.

A struct column first decides which source field feeds which child, by one
lookup per child or by a snapshot that routes every field once, and checks
under a strict contract that no other field is there.  Of the children of a
version family only the one that fits the value best receives it, and an error
below such a child is replaced by a null.

An error of the source is recorded in a context and returned as a status.  The
record is empty whenever an error is raised, because it is cleared where an
error is dropped; `Except CoerceError` says the same.
-/
import SchemaSanitizer.Document
import SchemaSanitizer.Plan
import SchemaSanitizer.Value

namespace SchemaSanitizer

/-! ### Options, cells and errors -/

/-- `OnErrorPolicy`. -/
inductive OnErrorPolicy
  | stop
  | skipRow
  | emitNullRow
  deriving DecidableEq, Repr

/-- `timestamp_precision`; every other text counts as nanoseconds. -/
inductive TimestampPrecision
  | millis
  | micros
  | nanos
  deriving DecidableEq, Repr

/-- The options conversion reads.  The two functions on doubles are those of
the C++ library: the cast of an integer, and the text of a double with 17
digits (`double_to_string`). -/
structure ConvertOptions extends Options where
  onError : OnErrorPolicy
  /-- is there an `arrow_schema_contract`? -/
  arrowSchemaContract : Bool
  schemaEvolution : SchemaEvolutionMode
  timestampPrecision : TimestampPrecision
  doubleOfInt : Int → UInt64
  doubleToString : UInt64 → Bytes

/-- Unknown fields are errors: there is a contract, and evolution is strict. -/
def ConvertOptions.rejectsUnknown (opts : ConvertOptions) : Bool :=
  opts.arrowSchemaContract && opts.schemaEvolution == .strict

/-- `Cell`: a null of some kind, with nulls for the children of a struct, or a
value.  Integers, timestamps, dates and times are 64-bit integers of their
kind. -/
inductive Cell
  | null (kind : LogicalKind) (children : List Cell)
  | bool (b : Bool)
  | i64 (kind : ScalarKind) (i : Int)
  | f64 (bits : UInt64)
  | str (s : Bytes)
  | struct (children : List Cell)
  | list (elements : List Cell)

/-- `Cell::is_null`. -/
def Cell.isNull : Cell → Bool
  | .null _ _ => true
  | _ => false

/-- `DiagnosticCode`, the members conversion uses. -/
inductive DiagnosticCode
  | unknown
  | rowSkipped
  | typeMismatch
  | coercionFailure
  deriving DecidableEq, Repr

/-- `CoerceError`. -/
structure CoerceError where
  code : DiagnosticCode
  path : List Bytes
  detail : Bytes
  deriving DecidableEq, Repr

/-- `set_conversion_error`. -/
def setConversionError (plan : ColumnPlan) (code : DiagnosticCode) (detail : Bytes) :
    Except CoerceError Cell :=
  .error ⟨code, plan.path, detail⟩

mutual

/-- `convert_null`. -/
def convertNull : ColumnPlan → Cell
  | ⟨_, kind, _, _, _, _, children, _⟩ =>
    .null kind (if kind = .struct then convertNulls children else [])

/-- Nulls for the children of a struct. -/
def convertNulls : List ColumnPlan → List Cell
  | [] => []
  | child :: children => convertNull child :: convertNulls children

end

/-! ### Text of values -/

/-- `escape_json_string`: the same escapes as in registry documents. -/
def escapeJsonString (s : Bytes) : Bytes := jsonString s

/-- `std::to_string` of an integer. -/
def intToString (i : Int) : Bytes :=
  if i < 0 then byte '-' :: decimal i.natAbs else decimal i.natAbs

/-- The text of a Boolean. -/
def boolToString (b : Bool) : Bytes := if b then bytes "true" else bytes "false"

section Text

variable (doubleToString : UInt64 → Bytes)

mutual

/-- `value_to_jsonish`. -/
def valueToJsonish : Value → Bytes
  | .null => bytes "null"
  | .string s => escapeJsonString s
  | .bool b => boolToString b
  | .int i => intToString i
  | .float bits => doubleToString bits
  | .array elements => byte '[' :: (elementsToJsonish elements ++ [byte ']'])
  | .object fields => 0x7b :: (fieldsToJsonish fields ++ [0x7d])

/-- The elements of an array, separated by commas. -/
def elementsToJsonish : List Value → Bytes
  | [] => []
  | [v] => valueToJsonish v
  | v :: vs => valueToJsonish v ++ byte ',' :: elementsToJsonish vs

/-- The fields of an object, separated by commas. -/
def fieldsToJsonish : List (Bytes × Value) → Bytes
  | [] => []
  | [f] => fieldToJsonish f
  | f :: fs => fieldToJsonish f ++ byte ',' :: fieldsToJsonish fs

/-- One field of an object. -/
def fieldToJsonish : Bytes × Value → Bytes
  | (key, v) => escapeJsonString key ++ byte ':' :: valueToJsonish v

end

/-- `value_to_scalar_string`. -/
def valueToScalarString : Value → Bytes
  | .null => []
  | .string s => s
  | .bool b => boolToString b
  | .int i => intToString i
  | .float bits => doubleToString bits
  | v => valueToJsonish doubleToString v

end Text

/-! ### Scalars -/

section Scalars

variable (opts : ConvertOptions) (plan : ColumnPlan)

/-- The outcome of coercing a string. -/
def coercedText (what : Bytes) : Option Cell → Except CoerceError Cell
  | some cell => .ok cell
  | none => setConversionError plan .coercionFailure
      (bytes "failed to coerce string to " ++ what ++ bytes " for field '" ++
        plan.name ++ bytes "'")

/-- The error of a value whose type does not fit. -/
def expectedError (what : Bytes) : Except CoerceError Cell :=
  setConversionError plan .typeMismatch
    (bytes "expected " ++ what ++ bytes " for field '" ++ plan.name ++ bytes "'")

/-- `convert_bool_scalar`. -/
def convertBoolScalar : Value → Except CoerceError Cell
  | .bool b => .ok (.bool b)
  | .string s => coercedText plan (bytes "bool") ((coerceBoolFromString opts.toOptions s).map .bool)
  | _ => expectedError plan (bytes "bool")

/-- `convert_int64_scalar`. -/
def convertInt64Scalar : Value → Except CoerceError Cell
  | .int i => .ok (.i64 .int64 i)
  | .string s =>
    coercedText plan (bytes "int64") ((coerceInt64FromString opts.toOptions s).map (.i64 .int64))
  | _ => expectedError plan (bytes "int64")

/-- `convert_float64_scalar`. -/
def convertFloat64Scalar : Value → Except CoerceError Cell
  | .float bits => .ok (.f64 bits)
  | .int i => .ok (.f64 (opts.doubleOfInt i))
  | .string s =>
    coercedText plan (bytes "float64") ((coerceFloat64FromString opts.toOptions s).map .f64)
  | _ => expectedError plan (bytes "float64")

/-- `timestamp_precision_divisor`. -/
def timestampPrecisionDivisor : Int :=
  match opts.timestampPrecision with
  | .millis => 1000000
  | .micros => 1000
  | .nanos => 1

/-- `convert_timestamp_scalar`: an integer is taken as it is, a text is scaled. -/
def convertTimestampScalar : Value → Except CoerceError Cell
  | .int i => .ok (.i64 .timestampNs i)
  | .string s =>
    coercedText plan (bytes "timestamp") ((coerceTimestampNsFromString opts.toOptions s).map
      fun parsed => .i64 .timestampNs (parsed.tdiv (timestampPrecisionDivisor opts)))
  | _ => expectedError plan (bytes "timestamp")

/-- `fits_int32`. -/
def fitsInt32 (i : Int) : Bool := -2147483648 ≤ i && i ≤ 2147483647

/-- The conversions to types of 32 bits. -/
def convertInt32Scalar (kind : ScalarKind) (range what : Bytes) (parse : Bytes → Option Int) :
    Value → Except CoerceError Cell
  | .int i =>
    if fitsInt32 i then .ok (.i64 kind i)
    else setConversionError plan .coercionFailure
      (range ++ bytes " integer out of range for field '" ++ plan.name ++ bytes "'")
  | .string s => coercedText plan what ((parse s).map (.i64 kind))
  | _ => expectedError plan what

/-- `convert_date32_scalar`. -/
def convertDate32Scalar : Value → Except CoerceError Cell :=
  convertInt32Scalar plan .date32 (bytes "date32") (bytes "date32")
    (coerceDateDaysFromString opts.toOptions)

/-- `convert_time32_scalar`. -/
def convertTime32Scalar : Value → Except CoerceError Cell :=
  convertInt32Scalar plan .time32s (bytes "time32") (bytes "time32[s]")
    (coerceTimeSecondsFromString opts.toOptions)

/-- `convert_scalar_cell`. -/
def convertScalarCell (kind : ScalarKind) (v : Value) : Except CoerceError Cell :=
  match kind with
  | .null => .ok (.null (.scalar .null) [])
  | .bool => convertBoolScalar opts plan v
  | .int64 => convertInt64Scalar opts plan v
  | .float64 => convertFloat64Scalar opts plan v
  | .utf8 => .ok (.str (valueToScalarString opts.doubleToString v))
  | .timestampNs => convertTimestampScalar opts plan v
  | .date32 => convertDate32Scalar opts plan v
  | .time32s => convertTime32Scalar opts plan v

/-- `convert_scalar`. -/
def convertScalar (kind : ScalarKind) : Value → Except CoerceError Cell
  | .null => .ok (convertNull plan)
  | v => convertScalarCell opts plan kind v

end Scalars

/-! ### Version families -/

/-- The scores of `scalar_compatibility_score` for types that are read from one
kind of value or parsed from text. -/
def parsedScore {α : Type} (parsed : Option α) : Nat := if parsed.isSome then 350 else 50

/-- `scalar_compatibility_score`. -/
def scalarCompatibilityScore (opts : ConvertOptions) (kind : ScalarKind) (v : Value) : Nat :=
  match kind, v with
  | .bool, .bool _ => 400
  | .bool, .string s => parsedScore (coerceBoolFromString opts.toOptions s)
  | .bool, _ => 50
  | .int64, .int _ => 400
  | .int64, .string s => parsedScore (coerceInt64FromString opts.toOptions s)
  | .int64, _ => 50
  | .float64, .float _ => 400
  | .float64, .int _ => 375
  | .float64, .string s =>
    if (coerceFloat64FromString opts.toOptions s).isNone then 50
    else if (coerceInt64FromString opts.toOptions s).isSome then 340
    else 350
  | .float64, _ => 50
  | .timestampNs, .int _ => 375
  | .timestampNs, .string s => parsedScore (coerceTimestampNsFromString opts.toOptions s)
  | .timestampNs, _ => 50
  | .date32, .int _ => 375
  | .date32, .string s => parsedScore (coerceDateDaysFromString opts.toOptions s)
  | .date32, _ => 50
  | .time32s, .int _ => 375
  | .time32s, .string s => parsedScore (coerceTimeSecondsFromString opts.toOptions s)
  | .time32s, _ => 50
  | .utf8, .string _ => 300
  | .utf8, _ => 150
  | .null, .null => 100
  | .null, _ => 0

/-- `variant_compatibility_score`. -/
def variantCompatibilityScore (opts : ConvertOptions) (plan : ColumnPlan) (v : Value) : Nat :=
  match v with
  | .null => 0
  | v =>
    match plan.kind with
    | .list => if v.isArray then 400 else 350
    | .struct => if v.isObject then 300 else 50
    | .scalar kind => if v.isArray || v.isObject then 25 else scalarCompatibilityScore opts kind v

/-- One round of `preferred_variant`: a later sibling wins a tie. -/
def preferSibling (opts : ConvertOptions) (columns : List ColumnPlan) (v : Value)
    (best : Option (Nat × Nat)) (sibling : Nat) : Option (Nat × Nat) :=
  match columns[sibling]? with
  | none => best
  | some column =>
    let score := variantCompatibilityScore opts column v
    match best with
    | none => some (sibling, score)
    | some (_, bestScore) => if bestScore ≤ score then some (sibling, score) else best

/-- `preferred_variant`: the position of the destination; the column itself
when it has no sibling. -/
def preferredVariant (opts : ConvertOptions) (columns : List ColumnPlan) (column : ColumnPlan)
    (index : Nat) (v : Value) : Nat :=
  ((column.variantSiblingIndices.foldl (preferSibling opts columns v) none).map Prod.fst).getD index

/-! ### Which field feeds which column -/

section Lookup

variable (opts : ConvertOptions)

/-- The first field, other than an empty container, whose key addresses an
output name: `FieldLookup::find`, and `object_find` for objects. -/
def findField (fields : Row) (key : Bytes) : Option Value :=
  (fields.find? fun f =>
    fieldNameMatchesOutput opts.toNameOptions f.1 key && !f.2.containerIsEmpty).map Prod.snd

/-- A lookup by name, and then by the name without a flattening suffix. -/
def findUnflattened (fields : Row) (name : Bytes) : Option Value :=
  (findField opts fields name).or
    (if unflattenedOutputName name = [] then none
      else findField opts fields (unflattenedOutputName name))

/-- `field_matches_column`, and `field_matches_child` for struct children. -/
def fieldMatchesColumn (key : Bytes) (column : ColumnPlan) : Bool :=
  let familyBase := variantFamilyBase column.name
  let original := unflattenedOutputName column.name
  fieldNameMatchesOutput opts.toNameOptions key column.name ||
    (column.hasVariantSibling && familyBase != column.name &&
      fieldNameMatchesOutput opts.toNameOptions key familyBase) ||
    (original != [] && fieldNameMatchesOutput opts.toNameOptions key original)

/-- `assign_column_field`: the first field wins.  A snapshot holds positions of
fields; the loops below do not look at what they hold. -/
def assignColumnField {π : Type} (indices : List (Option π)) (column : Nat) (field : π) :
    List (Option π) :=
  match indices[column]? with
  | some none => indices.set column (some field)
  | _ => indices

/-- One round of the snapshot: a field is routed through the layout to its
column and to the siblings of the column that it matches. -/
def routeField {π : Type} (layout : StructLayout) (columns : List ColumnPlan)
    (indices : List (Option π)) (field : (Bytes × Value) × π) : List (Option π) :=
  if field.1.2.containerIsEmpty then indices
  else
    match findPlannedField layout opts.toNameOptions field.1.1 with
    | none => indices
    | some column =>
      let siblings := (columns[column]?.map ColumnPlan.variantSiblingIndices).getD []
      siblings.foldl (fun indices sibling =>
        if (columns[sibling]?.map (fieldMatchesColumn opts field.1.1)).getD false then
          assignColumnField indices sibling field.2
        else indices) (assignColumnField indices column field.2)

/-- `RowFieldSnapshot::build`, and `ObjectFieldSnapshot::build` for structs with
a layout: the position of the field for every column. -/
def buildSnapshot (layout : StructLayout) (columns : List ColumnPlan) (fields : Row) :
    List (Option Nat) :=
  fields.zipIdx.foldl (routeField opts layout columns) (columns.map fun _ => none)

/-- One round of `ObjectFieldSnapshot::build` without a layout: a field is
offered to every child. -/
def offerField {π : Type} (columns : List ColumnPlan) (indices : List (Option π))
    (field : (Bytes × Value) × π) : List (Option π) :=
  if field.1.2.containerIsEmpty then indices
  else
    List.zipWith (fun index column =>
      if index.isNone && fieldMatchesColumn opts field.1.1 column then some field.2 else index)
      indices columns

/-- `ObjectFieldSnapshot::build`. -/
def buildObjectSnapshot (layout : Option StructLayout) (columns : List ColumnPlan) (fields : Row) :
    List (Option Nat) :=
  match layout with
  | some layout => buildSnapshot opts layout columns fields
  | none => fields.zipIdx.foldl (offerField opts columns) (columns.map fun _ => none)

/-- `RowFieldSnapshot::find`. -/
def snapshotFind (indices : List (Option Nat)) (fields : Row) (column : Nat) : Option Value :=
  ((indices[column]?.getD none).bind (fields[·]?)).map Prod.snd

/-- `should_snapshot_root_fields`, and `should_snapshot_object_fields` for
struct children. -/
def shouldSnapshot (columns : List ColumnPlan) : Bool :=
  8 ≤ columns.length || columns.any ColumnPlan.hasVariantSibling

/-- The value of a child in an object (`find_object_child_value`). -/
def objectChildValue (layout : Option StructLayout) (children : List ColumnPlan) (fields : Row)
    (index : Nat) (child : ColumnPlan) : Option Value :=
  if shouldSnapshot children then
    snapshotFind (buildObjectSnapshot opts layout children fields) fields index
  else findUnflattened opts fields child.name

/-- The keys of an object that match no planned field, empty containers apart. -/
def extraKeys (layout : StructLayout) (fields : Row) : List Bytes :=
  (fields.filter fun f =>
    !f.2.containerIsEmpty && !matchesPlannedField layout opts.toNameOptions f.1).map Prod.fst

/-- `find_strict_extra_field`: over the object the scan goes on after an empty
key, over the snapshot it does not.  The empty text means that there is none. -/
def findStrictExtraField (layout : StructLayout) (children : List ColumnPlan)
    (fields : Row) : Bytes :=
  if shouldSnapshot children then (extraKeys opts layout fields).headD []
  else ((extraKeys opts layout fields).find? (· != [])).getD []

/-- The unknown field a strict contract objects to in an object, if any
(`should_check_strict_struct`). -/
def strictExtraField (layout : Option StructLayout) (children : List ColumnPlan) (fields : Row) :
    Bytes :=
  match layout with
  | some l => if opts.rejectsUnknown then findStrictExtraField opts l children fields else []
  | none => []

/-- `has_default_key_child`. -/
def hasDefaultKeyChild (layout : Option StructLayout) (children : List ColumnPlan) : Bool :=
  (layout.map fun l => matchesPlannedField l opts.toNameOptions opts.defaultKeyName).getD false ||
    children.any fun child =>
      fieldNameMatchesOutput opts.toNameOptions opts.defaultKeyName child.name

end Lookup

/-! ### Nested conversion -/

/-- The value a column gets from its source: nothing found and an empty
container count as null. -/
def sourceValue : Option Value → Value
  | none => .null
  | some v => if v.containerIsEmpty then .null else v

/-- The decision for one of several siblings, given its value and conversion:
the value goes to the preferred member of a family only, and an error of a
family member becomes a null. -/
def convertSibling (opts : ConvertOptions) (columns : List ColumnPlan) (index : Nat)
    (column : ColumnPlan) (v : Value) (convert : Value → Except CoerceError Cell) :
    Except CoerceError Cell :=
  match v with
  | .null => .ok (convertNull column)
  | v =>
    if column.hasVariantSibling && preferredVariant opts columns column index v != index then
      .ok (convertNull column)
    else
      match convert v with
      | .ok cell => .ok cell
      | .error e => if column.hasVariantSibling then .ok (convertNull column) else .error e

@[simp] theorem convertSibling_null (opts : ConvertOptions) (columns : List ColumnPlan)
    (index : Nat)
    (column : ColumnPlan) (convert : Value → Except CoerceError Cell) :
    convertSibling opts columns index column .null convert = .ok (convertNull column) := rfl

theorem convertSibling_alone (opts : ConvertOptions) (columns : List ColumnPlan) (index : Nat)
    {column : ColumnPlan} {v : Value} (convert : Value → Except CoerceError Cell)
    (hvariant : column.hasVariantSibling = false) (hv : v ≠ .null) :
    convertSibling opts columns index column v convert = convert v := by
  rw [convertSibling]
  · simp only [hvariant, Bool.false_and, Bool.false_eq_true, if_false]
    rcases convert v <;> rfl
  · exact hv

mutual

/-- `convert_value`, with `convert_struct` and `convert_object_struct`. -/
def convertValue (opts : ConvertOptions) : ColumnPlan → Value → Except CoerceError Cell
  | ⟨name, kind, path, has, indices, layout, children, value⟩, v =>
    let plan : ColumnPlan := ⟨name, kind, path, has, indices, layout, children, value⟩
    if v.containerIsEmpty then .ok (convertNull plan)
    else
      match kind, v with
      | .struct, .null => .ok (convertNull plan)
      | .struct, .object fields => do
          let extra := strictExtraField opts layout children fields
          if extra ≠ [] then
            setConversionError plan .typeMismatch (bytes "unexpected field '" ++ extra ++
              bytes "' in strict struct '" ++ name ++ bytes "'")
          else
            let cells ← convertSiblings opts children
              (objectChildValue opts layout children fields) 0 children
            .ok (.struct cells)
      | .struct, v =>
        if hasDefaultKeyChild opts layout children then do
          let cells ← convertWrapped opts v children
          .ok (.struct cells)
        else expectedError plan (bytes "struct")
      | .list, .null => .ok (convertNull plan)
      | .list, v => convertList opts plan v value
      | .scalar k, v => convertScalar opts plan k v

/-- `convert_list`, given the element plan. -/
def convertList (opts : ConvertOptions) (plan : ColumnPlan) (v : Value) :
    Option ColumnPlan → Except CoerceError Cell
  | none => setConversionError plan .typeMismatch
      (bytes "list field '" ++ plan.name ++ bytes "' has no element plan")
  | some elem =>
    match v with
    | .array elements => do
        let cells ← elements.mapM (convertValue opts elem)
        .ok (.list cells)
    | v => do
        let cell ← convertValue opts elem v
        .ok (.list [cell])

/-- The loop over sibling columns, from a position on: `convert_object_struct`,
and `convert_materialized_cells` at the root. -/
def convertSiblings (opts : ConvertOptions) (columns : List ColumnPlan)
    (source : Nat → ColumnPlan → Option Value) :
    Nat → List ColumnPlan → Except CoerceError (List Cell)
  | _, [] => .ok []
  | index, column :: rest => do
      let cell ← convertSibling opts columns index column (sourceValue (source index column))
        (convertValue opts column)
      let cells ← convertSiblings opts columns source (index + 1) rest
      .ok (cell :: cells)

/-- `convert_wrapped_struct`: the default-key children get the value. -/
def convertWrapped (opts : ConvertOptions) (v : Value) :
    List ColumnPlan → Except CoerceError (List Cell)
  | [] => .ok []
  | child :: rest => do
      let converted :=
        if fieldNameMatchesOutput opts.toNameOptions opts.defaultKeyName child.name then
          convertValue opts child v
        else .ok (convertNull child)
      let cell ← converted
      let cells ← convertWrapped opts v rest
      .ok (cell :: cells)

end

end SchemaSanitizer
