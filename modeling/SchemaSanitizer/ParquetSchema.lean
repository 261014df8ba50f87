/-
SchemaSanitizer/ParquetSchema.lean

The schema of the native Parquet writer: from Arrow fields to nodes
(`stream_writer_schema_nodes.cc.inc`), and from nodes to the schema elements of
the footer (`stream_writer_schema_elements.cc.inc`).

A field is a `JsonlField`, what `parse_schema_field` makes of an Arrow schema.
A node is a group (the root or a struct), a list, a map or a leaf.  The node is
a type with one constructor for each shape, so a list without an element cannot
be written down; the fields that only leaves have are in `LeafInfo`.

`analyzeSchema` numbers the leaves and computes their levels.  The explicit
stack of the source visits the nodes in preorder, which is the order of the
recursion here; `first` is the number of columns found so far.
-/
import SchemaSanitizer.Bytes
import SchemaSanitizer.Lib.Failure

namespace SchemaSanitizer.Parquet

/-! ### Fields -/

/-- `JsonlKind`. -/
inductive JsonlKind
  | null
  | bool
  | int8
  | uint8
  | int16
  | uint16
  | int32
  | uint32
  | int64
  | uint64
  | float16
  | float32
  | float64
  | string
  | largeString
  | binary
  | largeBinary
  | fixedSizeBinary
  | timestampMillis
  | timestampMicros
  | timestampNanos
  | date32
  | date64
  | time32s
  | time32ms
  | time64us
  | time64ns
  | duration
  | interval
  | decimal
  | struct
  | list
  | largeList
  | fixedSizeList
  | map
  | dictionary
  deriving DecidableEq, Repr

/-- The members of `JsonlField` other than its children. -/
structure FieldInfo where
  kind : JsonlKind
  dictionaryIndexKind : JsonlKind := .null
  name : Bytes
  format : Bytes
  nullable : Bool := true
  decimalPrecision : Int := 0
  decimalScale : Int := 0
  decimalByteWidth : Int := 16
  fixedSizeBinarySize : Int := 0
  fixedSizeListSize : Int := 0
  deriving DecidableEq, Repr

/-- `JsonlField`. -/
inductive JsonlField
  | mk (info : FieldInfo) (children : List JsonlField)

/-- The members of a field other than its children. -/
def JsonlField.info : JsonlField → FieldInfo
  | .mk info _ => info

/-! ### Nodes -/

/-- `PhysicalType`. -/
inductive PhysicalType
  | boolean
  | int32
  | int64
  | float
  | double
  | byteArray
  | fixedLenByteArray
  deriving DecidableEq, Repr

/-- `ConvertedType`. -/
inductive ConvertedType
  | utf8
  | map
  | list
  | decimal
  | date
  | timeMillis
  | uint8
  | uint16
  | uint32
  | uint64
  | int8
  | int16
  | int32
  | int64
  deriving DecidableEq, Repr

/-- The decimal members of a node. -/
structure DecimalInfo where
  precision : Int
  scale : Int
  byteWidth : Int
  deriving DecidableEq, Repr

/-- The members of `ParquetNode` that describe a leaf. -/
structure LeafInfo where
  arrowKind : JsonlKind
  dictionaryIndexKind : JsonlKind := .null
  dictionaryValueKind : JsonlKind := .null
  physicalType : PhysicalType
  convertedType : Option ConvertedType := none
  hasNullLogicalType : Bool := false
  hasTimestampLogicalType : Bool := false
  hasTimeMillisLogicalType : Bool := false
  /-- Bit width and signedness. -/
  intLogicalType : Option (Nat × Bool) := none
  decimal : Option DecimalInfo := none
  fixedBinaryByteWidth : Int := 0
  leafIndex : Nat := 0
  deriving DecidableEq, Repr

/-- The members of `ParquetNode` that every node has.  The last three are set by
`analyzeSchema`. -/
structure NodeInfo where
  name : Bytes
  required : Bool
  firstLeafIndex : Nat := 0
  leafCount : Nat := 0
  subtreeSchemaElementCount : Nat := 1
  deriving DecidableEq, Repr

/-- `ParquetNode`.  A group is of kind `kRoot` or `kStruct`. -/
inductive ParquetNode
  | group (isRoot : Bool) (info : NodeInfo) (children : List ParquetNode)
  | list (info : NodeInfo) (arrowKind : JsonlKind) (fixedSizeListSize : Int)
      (repeatedRepetitionLevel : Nat) (element : ParquetNode)
  | map (info : NodeInfo) (repeatedRepetitionLevel : Nat) (element : ParquetNode)
  | primitive (info : NodeInfo) (leaf : LeafInfo)

namespace ParquetNode

/-- The members that every node has. -/
def info : ParquetNode → NodeInfo
  | .group _ info _ => info
  | .list info _ _ _ _ => info
  | .map info _ _ => info
  | .primitive info _ => info

/-- The node with other common members. -/
def setInfo (info : NodeInfo) : ParquetNode → ParquetNode
  | .group isRoot _ children => .group isRoot info children
  | .list _ kind size level element => .list info kind size level element
  | .map _ level element => .map info level element
  | .primitive _ leaf => .primitive info leaf

/-- The children of a group. -/
def children : ParquetNode → List ParquetNode
  | .group _ _ children => children
  | _ => []

end ParquetNode

/-! ### From fields to nodes -/

/-- The codes of `sanitize::Status` that the writer and the reader use. -/
inductive StatusCode
  | invalid
  | notImplemented
  deriving DecidableEq, Repr

/-- `sanitize::Status`. -/
structure Status where
  code : StatusCode
  message : Bytes
  deriving DecidableEq, Repr

/-- `sanitize::Result`. -/
abbrev Result := Except Status

/-- `Status::Invalid` of the writer. -/
def invalid {α : Type} (message : String) : Result α :=
  .error ⟨.invalid, bytes "native Parquet writer: " ++ bytes message⟩

/-- `Status::NotImplemented(kUnsupportedPrefix, …)`. -/
def unsupported {α : Type} (message : Bytes) : Result α :=
  .error ⟨.notImplemented, bytes "native Parquet writer: unsupported" ++ message⟩

/-- The message about a field whose format is not supported. -/
def unsupportedFormat {α : Type} (what : String) (field : FieldInfo) : Result α :=
  unsupported (bytes what ++ field.name ++ bytes "' has unsupported format '" ++ field.format ++
    bytes "'")

/-- The lambda `set_int_logical`. -/
def LeafInfo.setIntLogical (leaf : LeafInfo) (bitWidth : Nat) (isSigned : Bool)
    (converted : ConvertedType) : LeafInfo :=
  { leaf with convertedType := some converted, intLogicalType := some (bitWidth, isSigned) }

/-- The leaf of a primitive field. -/
def leafFromField (field : FieldInfo) : Result LeafInfo :=
  let leaf (physical : PhysicalType) : LeafInfo :=
    { arrowKind := field.kind, physicalType := physical }
  match field.kind with
  | .null => .ok { leaf .int32 with hasNullLogicalType := true }
  | .bool => .ok (leaf .boolean)
  | .int8 => .ok ((leaf .int32).setIntLogical 8 true .int8)
  | .uint8 => .ok ((leaf .int32).setIntLogical 8 false .uint8)
  | .int16 => .ok ((leaf .int32).setIntLogical 16 true .int16)
  | .uint16 => .ok ((leaf .int32).setIntLogical 16 false .uint16)
  | .int32 => .ok (leaf .int32)
  | .date32 => .ok { leaf .int32 with convertedType := some .date }
  | .time32s =>
    .ok { leaf .int32 with convertedType := some .timeMillis, hasTimeMillisLogicalType := true }
  | .uint32 => .ok ((leaf .int32).setIntLogical 32 false .uint32)
  | .int64 => .ok (leaf .int64)
  | .uint64 => .ok ((leaf .int64).setIntLogical 64 false .uint64)
  | .float32 => .ok (leaf .float)
  | .float64 => .ok (leaf .double)
  | .string => .ok { leaf .byteArray with convertedType := some .utf8 }
  | .largeString => .ok { leaf .byteArray with convertedType := some .utf8 }
  | .binary => .ok (leaf .byteArray)
  | .largeBinary => .ok (leaf .byteArray)
  | .fixedSizeBinary =>
    if field.fixedSizeBinarySize ≤ 0 then
      unsupportedFormat " Arrow fixed-size binary field '" field
    else
      .ok { leaf .fixedLenByteArray with fixedBinaryByteWidth := field.fixedSizeBinarySize }
  | .timestampMillis => .ok { leaf .int64 with hasTimestampLogicalType := true }
  | .timestampMicros => .ok { leaf .int64 with hasTimestampLogicalType := true }
  | .timestampNanos => .ok { leaf .int64 with hasTimestampLogicalType := true }
  | .decimal =>
    if field.decimalPrecision ≤ 0 ∨
        (field.decimalByteWidth ≠ 16 ∧ field.decimalByteWidth ≠ 32) then
      unsupportedFormat " Arrow decimal field '" field
    else
      .ok { leaf .fixedLenByteArray with
        convertedType := some .decimal
        decimal := some ⟨field.decimalPrecision, field.decimalScale, field.decimalByteWidth⟩
        fixedBinaryByteWidth := field.decimalByteWidth }
  | _ => unsupportedFormat " Arrow field '" field

/-- `primitive_node_from_field`. -/
def primitiveNodeFromField (field : FieldInfo) (name : Bytes) : Result ParquetNode := do
  let leaf ← leafFromField field
  .ok (.primitive { name := name, required := !field.nullable } leaf)

/-- `dictionary_node_from_field`, given the node of the value. -/
def dictionaryNodeFromField (field value : FieldInfo) (valueNode : ParquetNode) :
    Result ParquetNode :=
  match valueNode with
  | .primitive info leaf =>
    if leaf.arrowKind = .dictionary then
      unsupported (bytes " dictionary field '" ++ field.name ++
        bytes "' has unsupported value format '" ++ value.format ++ bytes "'")
    else
      .ok (.primitive info
        { leaf with
          dictionaryValueKind := leaf.arrowKind
          arrowKind := .dictionary
          dictionaryIndexKind := field.dictionaryIndexKind })
  | _ =>
    unsupported (bytes " dictionary field '" ++ field.name ++
      bytes "' has unsupported value format '" ++ value.format ++ bytes "'")

/-- The name that `struct_node_from_field` takes for the root. -/
def rootName : Bytes := bytes "schema"

/-- `struct_node_from_field`, given the nodes of the children. -/
def structNodeFromField (field : FieldInfo) (name : Bytes) (children : List ParquetNode) :
    ParquetNode :=
  let isRoot := decide (name = rootName)
  .group isRoot { name := name, required := isRoot || !field.nullable } children

/-- `list_node_from_field`, given the node of the element. -/
def listNodeFromField (field : FieldInfo) (name : Bytes) (element : ParquetNode) : ParquetNode :=
  .list { name := name, required := !field.nullable } field.kind field.fixedSizeListSize 0 element

/-- The node with `required` set. -/
def ParquetNode.setRequired (node : ParquetNode) : ParquetNode :=
  node.setInfo { node.info with required := true }

/-- `map_node_from_field`, given the nodes of the key and the value. -/
def mapNodeFromField (field : FieldInfo) (name : Bytes) (keyNode valueNode : ParquetNode) :
    ParquetNode :=
  let entryNode : ParquetNode :=
    .group false { name := bytes "key_value", required := true } [keyNode.setRequired, valueNode]
  .map { name := name, required := !field.nullable } 0 entryNode

/-- The branches of `node_from_field`. -/
inductive NodeShape
  | dictionary
  | struct
  | list
  | map
  | primitive
  deriving DecidableEq, Repr

/-- The branch of `node_from_field` that a kind takes. -/
def JsonlKind.shape : JsonlKind → NodeShape
  | .dictionary => .dictionary
  | .struct => .struct
  | .list => .list
  | .largeList => .list
  | .fixedSizeList => .list
  | .map => .map
  | _ => .primitive

/-- The kinds a map key may not have. -/
def JsonlKind.isNested (kind : JsonlKind) : Bool :=
  match kind.shape with
  | .struct => true
  | .list => true
  | .map => true
  | _ => false

/-- The error of a list field without its one child. -/
def listChildError (field : FieldInfo) : Result ParquetNode :=
  unsupported (bytes " list field '" ++ field.name ++ bytes "' must have one child")

/-- The error of a map field without key and value. -/
def mapChildError (field : FieldInfo) : Result ParquetNode :=
  unsupported (bytes " map field '" ++ field.name ++
    bytes "' does not have key/value entry children")

mutual

/-- `node_from_field`. -/
def nodeFromField : JsonlField → Bytes → Result ParquetNode
  | .mk field children, name =>
    match field.kind.shape with
    | .dictionary =>
      match children with
      | [value] => do
          let valueNode ← nodeFromField value name
          dictionaryNodeFromField field value.info valueNode
      | _ =>
        unsupported (bytes " dictionary field '" ++ field.name ++
          bytes "' must have one value child")
    | .struct => do
        let nodes ← nodesFromFields children
        .ok (structNodeFromField field name nodes)
    | .list =>
      match children with
      | [value] => do
          let element ← nodeFromField value value.info.name
          .ok (listNodeFromField field name element)
      | _ => listChildError field
    | .map =>
      match children with
      | [.mk entry [key, value]] =>
        if entry.kind ≠ .struct then mapChildError field
        else if key.info.kind.isNested then
          unsupported (bytes " map field '" ++ field.name ++
            bytes "' has unsupported key format '" ++ key.info.format ++ bytes "'")
        else do
          let keyNode ← nodeFromField key (bytes "key")
          let valueNode ← nodeFromField value (bytes "value")
          .ok (mapNodeFromField field name keyNode valueNode)
      | _ => mapChildError field
    | .primitive => primitiveNodeFromField field name

/-- The nodes of the children of a struct, each under its own name. -/
def nodesFromFields : List JsonlField → Result (List ParquetNode)
  | [] => .ok []
  | field :: fields => do
      let node ← nodeFromField field field.info.name
      let nodes ← nodesFromFields fields
      .ok (node :: nodes)

end

/-- `parse_supported_root_schema`, given the parsed root field. -/
def parseSupportedRootSchema (root : JsonlField) : Result ParquetNode :=
  if root.info.kind = .struct then nodeFromField root rootName
  else unsupported (bytes " root schema is not a struct")

/-! ### Leaves and levels -/

/-- `LeafColumn`; the node it points to is a leaf. -/
structure LeafColumn where
  info : NodeInfo
  leaf : LeafInfo
  path : List Bytes
  maxDefinitionLevel : Nat
  maxRepetitionLevel : Nat
  deriving DecidableEq, Repr

/-- What an optional node adds to the definition level. -/
def optionalLevel (required : Bool) : Nat := if required then 0 else 1

/-- What a group adds to the definition level of its children. -/
def groupLevel (isRoot : Bool) (info : NodeInfo) : Nat :=
  if isRoot then 0 else optionalLevel info.required

/-- The members of a node that are set when its subtree has been visited. -/
def NodeInfo.analyzed (info : NodeInfo) (first : Nat) (columns : List LeafColumn)
    (elements : Nat) : NodeInfo :=
  { info with
    firstLeafIndex := first, leafCount := columns.length, subtreeSchemaElementCount := elements }

mutual

/-- The visit of one node: the node with its numbers, and the columns below it. -/
def analyzeNode : ParquetNode → (path : List Bytes) → (definition repetition first : Nat) →
    ParquetNode × List LeafColumn
  | .primitive info leaf, path, definition, repetition, first =>
    let leaf := { leaf with leafIndex := first }
    let info := { info with
      firstLeafIndex := first, leafCount := 1, subtreeSchemaElementCount := 1 }
    (.primitive info leaf,
      [⟨info, leaf, path, definition + optionalLevel info.required, repetition⟩])
  | .group isRoot info children, path, definition, repetition, first =>
    let below := analyzeChildren children path
      (definition + groupLevel isRoot info) repetition first
    let elements := 1 + (below.1.map fun c => c.info.subtreeSchemaElementCount).sum
    (.group isRoot (info.analyzed first below.2 elements) below.1, below.2)
  | .list info kind size _ element, path, definition, repetition, first =>
    let below := analyzeNode element (path ++ [bytes "list", element.info.name])
      (definition + optionalLevel info.required + 1) (repetition + 1) first
    let elements := 1 + (1 + below.1.info.subtreeSchemaElementCount)
    (.list (info.analyzed first below.2 elements) kind size (repetition + 1) below.1, below.2)
  | .map info _ element, path, definition, repetition, first =>
    let below := analyzeNode element (path ++ [bytes "key_value"])
      (definition + optionalLevel info.required + 1) (repetition + 1) first
    let elements := 1 + below.1.info.subtreeSchemaElementCount
    (.map (info.analyzed first below.2 elements) (repetition + 1) below.1, below.2)

/-- The visits of the children of a group. -/
def analyzeChildren : List ParquetNode → (path : List Bytes) →
    (definition repetition first : Nat) → List ParquetNode × List LeafColumn
  | [], _, _, _, _ => ([], [])
  | child :: children, path, definition, repetition, first =>
    let head := analyzeNode child (path ++ [child.info.name]) definition repetition first
    let tail := analyzeChildren children path definition repetition (first + head.2.length)
    (head.1 :: tail.1, head.2 ++ tail.2)

end

/-- `analyze_schema`. -/
def analyzeSchema (root : ParquetNode) : ParquetNode × List LeafColumn :=
  analyzeNode root [] 0 0 0

/-! ### Schema elements -/

/-- `repetition_type` of a schema element. -/
inductive Repetition
  | required
  | optional
  | repeated
  deriving DecidableEq, Repr

/-- The units of a timestamp. -/
inductive TimeUnit
  | millis
  | micros
  | nanos
  deriving DecidableEq, Repr

/-- `logical_type` of a schema element. -/
inductive LogicalAnnotation
  | null
  | timestamp (unit : TimeUnit)
  | timeMillis
  | integer (bitWidth : Nat) (isSigned : Bool)
  deriving DecidableEq, Repr

/-- A schema element of the footer. -/
structure SchemaElement where
  physicalType : Option PhysicalType := none
  typeLength : Option Int := none
  repetitionType : Option Repetition
  name : Bytes
  numChildren : Option Nat := none
  convertedType : Option ConvertedType := none
  scale : Option Int := none
  precision : Option Int := none
  logicalType : Option LogicalAnnotation := none
  deriving DecidableEq, Repr

/-- `required ? 0 : 1`. -/
def repetitionOf (required : Bool) : Repetition := if required then .required else .optional

/-- The logical type of a leaf. -/
def LeafInfo.logicalType (leaf : LeafInfo) : Option LogicalAnnotation :=
  if leaf.hasNullLogicalType then some .null
  else if leaf.hasTimestampLogicalType then
    some (.timestamp
      (match leaf.arrowKind with
      | .timestampMillis => .millis
      | .timestampMicros => .micros
      | _ => .nanos))
  else if leaf.hasTimeMillisLogicalType then some .timeMillis
  else leaf.intLogicalType.map fun p => .integer p.1 p.2

/-- `write_primitive_schema_element`. -/
def primitiveSchemaElement (info : NodeInfo) (leaf : LeafInfo) : SchemaElement where
  physicalType := some leaf.physicalType
  typeLength :=
    if leaf.physicalType = .fixedLenByteArray then some leaf.fixedBinaryByteWidth else none
  repetitionType := some (repetitionOf info.required)
  name := info.name
  convertedType := leaf.convertedType
  scale := leaf.decimal.map DecimalInfo.scale
  precision := leaf.decimal.map DecimalInfo.precision
  logicalType := leaf.logicalType

/-- The element of a node itself. -/
def ownSchemaElement : ParquetNode → SchemaElement
  | .primitive info leaf => primitiveSchemaElement info leaf
  | .group isRoot info children =>
    { repetitionType := if isRoot then none else some (repetitionOf info.required)
      name := info.name
      numChildren := some children.length }
  | .list info _ _ _ _ =>
    { repetitionType := some (repetitionOf info.required)
      name := info.name
      numChildren := some 1
      convertedType := some .list }
  | .map info _ _ =>
    { repetitionType := some (repetitionOf info.required)
      name := info.name
      numChildren := some 1
      convertedType := some .map }

/-- The repeated group below a list or a map. -/
def repeatedSchemaElement (name : String) (numChildren : Nat) : SchemaElement :=
  { repetitionType := some .repeated, name := bytes name, numChildren := some numChildren }

mutual

/-- The elements `write_schema_elements` writes after that of the node. -/
def schemaElementsBelow : ParquetNode → List SchemaElement
  | .primitive _ _ => []
  | .group _ _ children => schemaElementsOfAll children
  | .list _ _ _ _ element =>
    repeatedSchemaElement "list" 1 :: ownSchemaElement element :: schemaElementsBelow element
  | .map _ _ element =>
    repeatedSchemaElement "key_value" element.children.length :: schemaElementsBelow element

/-- The elements of the children of a group. -/
def schemaElementsOfAll : List ParquetNode → List SchemaElement
  | [] => []
  | child :: children =>
    ownSchemaElement child :: (schemaElementsBelow child ++ schemaElementsOfAll children)

end

/-- `write_schema_elements`. -/
def writeSchemaElements (node : ParquetNode) : List SchemaElement :=
  ownSchemaElement node :: schemaElementsBelow node

end SchemaSanitizer.Parquet
