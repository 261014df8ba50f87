/-
SchemaSanitizer/ParquetCollect.lean

How the native Parquet writer reads Arrow batches
(`stream_writer_arrow_values.cc.inc`) and collects the levels and the values of
one leaf (`stream_writer_collection.cc.inc`).

A buffer is memory seen from its pointer, so a typed read is a read of the bytes
at a multiple of the width.  Reads are little-endian, as on the hosts of the
engine.  Only the buffers of a dictionary are read, so a dictionary is an
`ArrowData` and an array adds children and a dictionary to that.

The source appends to a page that it is given and drops it when a call fails.
Here a call gives what it appends.
-/
import SchemaSanitizer.ParquetSchema

namespace SchemaSanitizer.Parquet

/-! ### Arrow arrays -/

/-- A buffer, seen from its pointer. -/
abbrev Buffer := Int → UInt8

/-- The members of `ArrowArray` that do not lead to other arrays. -/
structure ArrowData where
  length : Int
  offset : Int
  buffers : List (Option Buffer)

/-- `ArrowArray`. -/
inductive ArrowArray
  | mk (data : ArrowData) (children : List ArrowArray) (dictionary : Option ArrowData)

namespace ArrowArray

/-- The array without its children and its dictionary. -/
def data : ArrowArray → ArrowData
  | .mk data _ _ => data

/-- The child arrays. -/
def children : ArrowArray → List ArrowArray
  | .mk _ children _ => children

/-- The dictionary. -/
def dictionary : ArrowArray → Option ArrowData
  | .mk _ _ dictionary => dictionary

end ArrowArray

/-- The buffer at a position, unless the pointer is missing. -/
def ArrowData.buffer (array : ArrowData) (i : Nat) : Option Buffer := (array.buffers[i]?).join

namespace Buffer

/-- The bytes of element `index` of an array of elements of `width` bytes. -/
def slice (buffer : Buffer) (width : Nat) (index : Int) : Bytes :=
  (List.range width).map fun k => buffer (index * width + k)

/-- The bit at a position of a bitmap. -/
def bit (buffer : Buffer) (index : Int) : Bool :=
  (buffer (index / 8)).toNat.testBit (index % 8).toNat

end Buffer

/-- The unsigned number of little-endian bytes. -/
def unsignedOf : Bytes → Int
  | [] => 0
  | b :: bs => b.toNat + 256 * unsignedOf bs

/-- The signed number of little-endian bytes. -/
def signedOf (b : Bytes) : Int :=
  if 2 * unsignedOf b < 256 ^ b.length then unsignedOf b else unsignedOf b - 256 ^ b.length

/-- The low bytes of a number, little-endian. -/
def littleEndian : (width : Nat) → Int → Bytes
  | 0, _ => []
  | width + 1, n => (n % 256).toNat.toUInt8 :: littleEndian width (n / 256)

/-- `bitmap_is_valid`. -/
def bitmapIsValid (array : ArrowData) (logicalIndex : Int) : Bool :=
  match array.buffer 0 with
  | none => true
  | some bits => bits.bit (array.offset + logicalIndex)

/-- `bool_value`. -/
def boolValue (array : ArrowData) (logicalIndex : Int) : Bool :=
  match array.buffer 1 with
  | none => false
  | some bits => bits.bit (array.offset + logicalIndex)

/-- `dictionary_index_at`. -/
def dictionaryIndexAt (array : ArrowData) (indexKind : JsonlKind) (row : Int) : Option Int :=
  let read (width : Nat) (ofBytes : Bytes → Int) : Option Int :=
    (array.buffer 1).map fun values => ofBytes (values.slice width (array.offset + row))
  match indexKind with
  | .int8 => read 1 signedOf
  | .uint8 => read 1 unsignedOf
  | .int16 => read 2 signedOf
  | .uint16 => read 2 unsignedOf
  | .int32 => read 4 signedOf
  | .uint32 => read 4 unsignedOf
  | .int64 => read 8 signedOf
  | _ => none

/-! ### Pages -/

/-- `ColumnPageData`. -/
structure ColumnPageData where
  definitionLevels : List Nat := []
  repetitionLevels : List Nat := []
  values : Bytes := []
  boolValues : List Bool := []
  deriving DecidableEq, Repr

namespace ColumnPageData

/-- One page after another. -/
def append (p q : ColumnPageData) : ColumnPageData where
  definitionLevels := p.definitionLevels ++ q.definitionLevels
  repetitionLevels := p.repetitionLevels ++ q.repetitionLevels
  values := p.values ++ q.values
  boolValues := p.boolValues ++ q.boolValues

instance : Append ColumnPageData := ⟨append⟩

/-- One pair of levels. -/
def levels (definition repetition : Nat) : ColumnPageData where
  definitionLevels := [definition]
  repetitionLevels := [repetition]

end ColumnPageData

/-- The pages of `f 0`, …, `f (count - 1)`, one after the other. -/
def collectLoop (f : Nat → Result ColumnPageData) : Nat → Result ColumnPageData
  | 0 => .ok {}
  | count + 1 => do
      let before ← collectLoop f count
      let page ← f count
      .ok (before ++ page)

/-! ### Values -/

/-- The error of a fixed-width array without values. -/
def missingFixedWidth {α : Type} : Result α := invalid "missing fixed-width value buffer"

/-- `append_fixed_value`. -/
def appendFixedValue (width : Nat) (array : ArrowData) (row : Int) : Result ColumnPageData :=
  match array.buffer 1 with
  | none => missingFixedWidth
  | some values => .ok { values := values.slice width (array.offset + row) }

/-- `append_integer_value`, for the sources of `width` bytes whose physical type has
four. -/
def appendIntegerValue (width : Nat) (ofBytes : Bytes → Int) (array : ArrowData) (row : Int) :
    Result ColumnPageData :=
  match array.buffer 1 with
  | none => missingFixedWidth
  | some values =>
    .ok { values := littleEndian 4 (ofBytes (values.slice width (array.offset + row))) }

/-- The milliseconds of a time in seconds, if they fit 32 bits. -/
def millisOfSeconds (seconds : Int) : Result Int :=
  if (2 ^ 31 - 1 : Int).tdiv 1000 < seconds ∨ seconds < (-2 ^ 31 : Int).tdiv 1000 then
    invalid "time32[s] value overflows TIME(MILLIS)"
  else .ok (seconds * 1000)

/-- `append_time32s_as_millis`. -/
def appendTime32sAsMillis (array : ArrowData) (row : Int) : Result ColumnPageData :=
  match array.buffer 1 with
  | none => missingFixedWidth
  | some values => do
      let millis ← millisOfSeconds (signedOf (values.slice 4 (array.offset + row)))
      .ok { values := littleEndian 4 millis }

/-- The bytes `begin`, …, `end - 1` of a buffer. -/
def Buffer.range (buffer : Buffer) (first : Int) (count : Nat) : Bytes :=
  (List.range count).map fun k => buffer (first + k)

/-- `append_binary_value`, for offsets of `width` bytes. -/
def appendBinaryValue (width : Nat) (array : ArrowData) (row : Int) : Result ColumnPageData :=
  if array.buffers.length ≤ 2 then invalid "missing binary value buffers"
  else
    match array.buffer 1 with
    | none => invalid "missing binary value buffers"
    | some offsets =>
      let index := array.offset + row
      let first := signedOf (offsets.slice width index)
      let last := signedOf (offsets.slice width (index + 1))
      if last < first ∨ 2 ^ 32 - 1 < last - first then invalid "invalid binary value length"
      else
        let valueSize := (last - first).toNat
        if valueSize = 0 then .ok { values := littleEndian 4 0 }
        else
          match array.buffer 2 with
          | none => invalid "missing binary value buffers"
          | some data =>
            .ok { values := littleEndian 4 valueSize ++ data.range first valueSize }

/-- `append_decimal_value`: the bytes of the number, most significant first. -/
def appendDecimalValue (leaf : LeafInfo) (array : ArrowData) (row : Int) : Result ColumnPageData :=
  let width := (leaf.decimal.map DecimalInfo.byteWidth).getD 0
  match array.buffer 1 with
  | none => invalid "missing decimal value buffer"
  | some data =>
    if width ≤ 0 then invalid "missing decimal value buffer"
    else .ok { values := (data.slice width.toNat (array.offset + row)).reverse }

/-- `append_fixed_size_binary_value`. -/
def appendFixedSizeBinaryValue (leaf : LeafInfo) (array : ArrowData) (row : Int) :
    Result ColumnPageData :=
  match array.buffer 1 with
  | none => invalid "missing fixed-size binary value buffer"
  | some data =>
    if leaf.fixedBinaryByteWidth ≤ 0 then invalid "missing fixed-size binary value buffer"
    else .ok { values := data.slice leaf.fixedBinaryByteWidth.toNat (array.offset + row) }

/-- `append_plain_primitive_value`. -/
def appendPlainPrimitiveValue (leaf : LeafInfo) (valueKind : JsonlKind) (array : ArrowData)
    (row : Int) : Result ColumnPageData :=
  match valueKind with
  | .null => .ok {}
  | .bool => .ok { boolValues := [boolValue array row] }
  | .int8 => appendIntegerValue 1 signedOf array row
  | .uint8 => appendIntegerValue 1 unsignedOf array row
  | .int16 => appendIntegerValue 2 signedOf array row
  | .uint16 => appendIntegerValue 2 unsignedOf array row
  | .int32 | .date32 => appendFixedValue 4 array row
  | .time32s => appendTime32sAsMillis array row
  | .uint32 => appendFixedValue 4 array row
  | .int64 | .timestampMillis | .timestampMicros | .timestampNanos => appendFixedValue 8 array row
  | .uint64 => appendFixedValue 8 array row
  | .float32 => appendFixedValue 4 array row
  | .float64 => appendFixedValue 8 array row
  | .string | .binary => appendBinaryValue 4 array row
  | .largeString | .largeBinary => appendBinaryValue 8 array row
  | .fixedSizeBinary => appendFixedSizeBinaryValue leaf array row
  | .decimal => appendDecimalValue leaf array row
  | _ => unsupported (bytes " unsupported column value kind")

/-- The dictionary and the position in it that a row of a dictionary array points
to, as `append_dictionary_value` and `dictionary_value_is_null` find them. -/
def dictionarySlot (leaf : LeafInfo) (array : ArrowArray) (row : Int) : Result (ArrowData × Int) :=
  match array.dictionary with
  | none => invalid "dictionary column has no dictionary values"
  | some dictionary =>
    match dictionaryIndexAt array.data leaf.dictionaryIndexKind row with
    | none => invalid "invalid dictionary index"
    | some index =>
      if index < 0 ∨ dictionary.length ≤ index then invalid "invalid dictionary index"
      else .ok (dictionary, index)

/-- `dictionary_value_is_null`. -/
def dictionaryValueIsNull (info : NodeInfo) (leaf : LeafInfo) (array : ArrowArray) (row : Int) :
    Result Bool :=
  if leaf.arrowKind = .dictionary then do
    let slot ← dictionarySlot leaf array row
    let isNull := !bitmapIsValid slot.1 slot.2
    if isNull ∧ info.required then invalid "required dictionary value is null"
    else .ok isNull
  else .ok false

/-- `append_primitive_value`. -/
def appendPrimitiveValue (leaf : LeafInfo) (array : ArrowArray) (row : Int) :
    Result ColumnPageData :=
  if leaf.arrowKind = .dictionary then do
    let slot ← dictionarySlot leaf array row
    appendPlainPrimitiveValue leaf leaf.dictionaryValueKind slot.1 slot.2
  else appendPlainPrimitiveValue leaf leaf.arrowKind array.data row

/-! ### Collection -/

/-- `leaf_belongs_to_subtree`. -/
def leafBelongsToSubtree (info : NodeInfo) (targetLeaf : Nat) : Bool :=
  decide (info.firstLeafIndex ≤ targetLeaf ∧ targetLeaf < info.firstLeafIndex + info.leafCount)

/-- `emit_nulls_for_subtree`. -/
def emitNullsForSubtree (info : NodeInfo) (targetLeaf definition repetition : Nat) :
    ColumnPageData :=
  if leafBelongsToSubtree info targetLeaf then .levels definition repetition else {}

/-- The elements of a list row: where they begin and end in the child array. -/
def listBounds (kind : JsonlKind) (fixedSizeListSize : Int) (array : ArrowData) (row : Int) :
    Result (Int × Int) :=
  let index := array.offset + row
  match kind with
  | .fixedSizeList =>
    if fixedSizeListSize < 0 ∨ int64Max / max 1 fixedSizeListSize < index then
      invalid "invalid fixed-size list size"
    else .ok (index * fixedSizeListSize, index * fixedSizeListSize + fixedSizeListSize)
  | .largeList =>
    match array.buffer 1 with
    | none => invalid "missing large-list offsets"
    | some offsets =>
      .ok (signedOf (offsets.slice 8 index), signedOf (offsets.slice 8 (index + 1)))
  | _ =>
    match array.buffer 1 with
    | none => invalid "missing list offsets"
    | some offsets =>
      .ok (signedOf (offsets.slice 4 index), signedOf (offsets.slice 4 (index + 1)))

/-- The entries of a map row. -/
def mapBounds (array : ArrowData) (row : Int) : Result (Int × Int) :=
  let index := array.offset + row
  match array.buffer 1 with
  | none => invalid "invalid map array"
  | some offsets =>
    .ok (signedOf (offsets.slice 4 index), signedOf (offsets.slice 4 (index + 1)))

/-- The loop over the elements of a list or the entries of a map, with `item` for one
of them: an empty row leaves one pair of levels, and the first element takes the
repetition level of the row. -/
def collectItems (info : NodeInfo) (what : String) (bounds : Int × Int) (length : Int)
    (targetLeaf definition repetition repeatedRepetition : Nat)
    (item : Int → (definition repetition : Nat) → Result ColumnPageData) : Result ColumnPageData :=
  let present := definition + optionalLevel info.required
  if bounds.1 < 0 ∨ bounds.2 < bounds.1 ∨ length < bounds.2 then invalid what
  else if bounds.1 = bounds.2 then .ok (emitNullsForSubtree info targetLeaf present repetition)
  else
    collectLoop (fun k => item (bounds.1 + k) (present + 1)
      (if k = 0 then repetition else repeatedRepetition))
      (bounds.2 - bounds.1).toNat

/-- The validity of a row, checked before the node is entered: the levels of a null, an
error for a null that is not allowed, or what the node gives. -/
def collectValid (isRoot : Bool) (info : NodeInfo) (valid : Bool)
    (targetLeaf definition repetition : Nat) (enter : Result ColumnPageData) :
    Result ColumnPageData :=
  if !leafBelongsToSubtree info targetLeaf then .ok {}
  else if !isRoot && !info.required && !valid then
    .ok (emitNullsForSubtree info targetLeaf definition repetition)
  else if !isRoot && info.required && !valid then invalid "required field contains null"
  else enter

/-- The error at the end of `collect_node_for_leaf`. -/
def unreachableLeaf : Result ColumnPageData :=
  invalid "target leaf is not reachable from schema root"

/-- The case of a leaf. -/
def collectPrimitive (info : NodeInfo) (leaf : LeafInfo) (array : ArrowArray) (row : Int)
    (targetLeaf definition repetition : Nat) : Result ColumnPageData :=
  if leaf.leafIndex ≠ targetLeaf then unreachableLeaf
  else if leaf.arrowKind = .null then .ok (.levels definition repetition)
  else do
    let dictionaryNull ← dictionaryValueIsNull info leaf array row
    if dictionaryNull then .ok (.levels definition repetition)
    else do
      let value ← appendPrimitiveValue leaf array row
      .ok (.levels (definition + optionalLevel info.required) repetition ++ value)

mutual

/-- `collect_node_for_leaf`.  A root hands its own row on, a struct the row of the
child arrays. -/
def collectNodeForLeaf : ParquetNode → (array : ArrowArray) → (row : Int) →
    (targetLeaf definition repetition : Nat) → Result ColumnPageData
  | .group isRoot info children, array, row, targetLeaf, definition, repetition =>
    collectValid isRoot info (bitmapIsValid array.data row) targetLeaf definition repetition
      (collectChild children isRoot array.children (if isRoot then row else array.data.offset + row)
        targetLeaf (definition + groupLevel isRoot info) repetition)
  | .list info kind size level element, array, row, targetLeaf, definition, repetition =>
    collectValid false info (bitmapIsValid array.data row) targetLeaf definition repetition
      (match array.children with
      | [] => invalid "invalid list array"
      | child :: _ => do
          let bounds ← listBounds kind size array.data row
          collectItems info "invalid list offsets" bounds child.data.length targetLeaf definition
            repetition level fun item definition repetition =>
              collectNodeForLeaf element child item targetLeaf definition repetition)
  | .map info level element, array, row, targetLeaf, definition, repetition =>
    collectValid false info (bitmapIsValid array.data row) targetLeaf definition repetition
      (match array.children with
      | [] => invalid "invalid map array"
      | child :: _ => do
          let bounds ← mapBounds array.data row
          collectItems info "invalid map offsets" bounds child.data.length targetLeaf definition
            repetition level fun item definition repetition =>
              collectNodeForLeaf element child item targetLeaf definition repetition)
  | .primitive info leaf, array, row, targetLeaf, definition, repetition =>
    collectValid false info (bitmapIsValid array.data row) targetLeaf definition repetition
      (collectPrimitive info leaf array row targetLeaf definition repetition)

/-- The loop over the children of a group: the first one that contains the leaf. -/
def collectChild : List ParquetNode → (isRoot : Bool) → (arrays : List ArrowArray) → (row : Int) →
    (targetLeaf definition repetition : Nat) → Result ColumnPageData
  | [], _, _, _, _, _, _ => unreachableLeaf
  | node :: nodes, isRoot, arrays, row, targetLeaf, definition, repetition =>
    if leafBelongsToSubtree node.info targetLeaf then
      match arrays with
      | [] => invalid (if isRoot then "missing root child array" else "missing struct child array")
      | array :: _ => collectNodeForLeaf node array row targetLeaf definition repetition
    else collectChild nodes isRoot arrays.tail row targetLeaf definition repetition

end

/-- The loop of `encode_bool_values_plain`, with the byte it fills and the next bit of it. -/
def encodeBoolLoop : List Bool → (byte bit : Nat) → Bytes
  | [], byte, bit => if bit = 0 then [] else [byte.toUInt8]
  | value :: values, byte, bit =>
    let byte := if value then byte + 2 ^ bit else byte
    if bit + 1 = 8 then byte.toUInt8 :: encodeBoolLoop values 0 0
    else encodeBoolLoop values byte (bit + 1)

/-- `encode_bool_values_plain`. -/
def encodeBoolValuesPlain (values : List Bool) : Bytes := encodeBoolLoop values 0 0

/-- Whether the values of a leaf are staged as booleans. -/
def LeafInfo.isBool (leaf : LeafInfo) : Bool :=
  decide (leaf.arrowKind = .bool) ||
    (decide (leaf.arrowKind = .dictionary) && decide (leaf.dictionaryValueKind = .bool))

/-- `collect_column_page_data`. -/
def collectColumnPageData (root : ParquetNode) (leaf : LeafInfo) (array : ArrowArray)
    (rowOffset : Int) (rowCount : Nat) (leafIndex : Nat) : Result ColumnPageData := do
  let page ← collectLoop
    (fun row => collectNodeForLeaf root array (rowOffset + row) leafIndex 0 0) rowCount
  if leaf.isBool then
    .ok { page with values := page.values ++ encodeBoolValuesPlain page.boolValues }
  else .ok page

end SchemaSanitizer.Parquet
