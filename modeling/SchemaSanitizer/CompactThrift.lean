/-
SchemaSanitizer/CompactThrift.lean

The compact-Thrift writer of the native Parquet writer and the reader of its
footers.

A field value has one constructor per `Field…` method of `CompactWriter`, and
`writeFields` hands `last_field_id_` from field to field; the items of a list of
structs are written by fresh writers, as all callers of `FieldListStruct` do.
`CompactReader` is a computation on the bytes that are left, and the depth of
`skip_type` is the number of depths left below `kMaxSkipDepth`.

Main result: `compactReader_in_step`.
-/
import SchemaSanitizer.Bytes
import SchemaSanitizer.Lib.Readers

namespace SchemaSanitizer.Parquet

open List Lib

/-- A computation on the bytes that are left. -/
abbrev Reader := Lib.Reader UInt8

def readByte : Reader UInt8 := readLetter "Parquet footer: unexpected end of data"

/-! ### Integers -/

def appendVarint (value : Nat) : Bytes :=
  if value < 128 then [UInt8.ofNat value]
  else UInt8.ofNat (value % 128 + 128) :: appendVarint (value / 128)

def zigzag (value : BitVec 64) : BitVec 64 := (value <<< 1) ^^^ value.sshiftRight 63

def unzigzag (value : BitVec 64) : BitVec 64 := (value >>> 1) ^^^ (~~~(value &&& 1) + 1)

/-- A signed integer, widened and written as all methods do. -/
def writeInt {w : Nat} (value : BitVec w) : Bytes :=
  appendVarint (zigzag (value.signExtend 64)).toNat

/-- The loop of `read_varint`, with the number of bytes it may still read. -/
def readVarintLoop : Nat → Nat → Nat → Reader Nat
  | 0, _, _ => throw "Parquet footer: invalid varint"
  | left + 1, shift, out => do
    let byte ← readByte
    require (left = 0 → byte &&& 0xFE = 0) "Parquet footer: varint overflow"
    let out := out ||| (byte &&& 0x7F).toNat <<< shift
    if byte &&& 0x80 = 0 then return out else readVarintLoop left (shift + 7) out

def readVarint : Reader Nat := readVarintLoop 10 0 0

def readI64 : Reader (BitVec 64) := (fun raw => unzigzag (BitVec.ofNat 64 raw)) <$> readVarint

/-- The range check and the conversion of `read_i32` and `read_i16`. -/
def narrow {v : Nat} (w : Nat) (message : String) (value : BitVec v) : Reader (BitVec w) := do
  require (-2 ^ (w - 1) ≤ value.toInt ∧ value.toInt < 2 ^ (w - 1)) message
  return BitVec.ofInt w value.toInt

def readI32 : Reader (BitVec 32) := readI64 >>= narrow 32 "Parquet footer: i32 out of range"

def readI16 : Reader (BitVec 16) := readI32 >>= narrow 16 "Parquet footer: i16 out of range"

theorem appendVarint_pos (value : Nat) : 0 < (appendVarint value).length := by
  rw [appendVarint]
  split <;> simp

/-- What the reader sees of the last byte of a varint and of the others. -/
theorem varint_bytes : ∀ n < 128, (UInt8.ofNat n &&& 0x7F).toNat = n ∧
    UInt8.ofNat n &&& 0x80 = 0 ∧ (n < 2 → UInt8.ofNat n &&& 0xFE = 0) ∧
    (UInt8.ofNat (n + 128) &&& 0x7F).toNat = n ∧ UInt8.ofNat (n + 128) &&& 0x80 ≠ 0 := by
  decide +kernel

/-- The invariant of the loop: `out` holds the groups below `shift`, and what is
left of the value fits the bytes that may still be read. -/
theorem reads_varintLoop {value left shift out : Nat} (hvalue : value < 2 ^ (7 * left + 1))
    (hout : out < 2 ^ shift) :
    Reads (readVarintLoop (left + 1) shift out) (appendVarint value) (value <<< shift + out) := by
  fun_induction appendVarint value generalizing left shift out with
  | case1 value hsmall =>
    obtain ⟨hbits, hlast, htenth, -⟩ := varint_bytes value hsmall
    refine .next (.require (fun hleft => htenth (by simpa [hleft] using hvalue)) ?_)
    rw [if_pos hlast, hbits, Nat.or_comm, ← Nat.shiftLeft_add_eq_or_of_lt hout]
    exact fun _ => rfl
  | case2 value hlarge ih =>
    obtain ⟨-, -, -, hbits, hmore⟩ := varint_bytes (value % 128) (Nat.mod_lt _ (by decide))
    obtain _ | left := left
    · omega
    refine .next (.require (by simp) ?_)
    rw [if_neg hmore, hbits, Nat.or_comm, ← Nat.shiftLeft_add_eq_or_of_lt hout]
    have hsum : value <<< shift + out =
        (value / 128) <<< (shift + 7) + ((value % 128) <<< shift + out) := by
      simp only [Nat.shiftLeft_eq, pow_add]
      conv_lhs => rw [← Nat.div_add_mod value 128]
      ring
    rw [hsum]
    refine ih ?_ ?_
    · rw [show 7 * (left + 1) + 1 = 7 * left + 1 + 7 by ring, pow_add] at hvalue
      omega
    · rw [Nat.shiftLeft_eq, pow_add]
      nlinarith [Nat.mod_lt value (show 0 < 128 by decide)]

theorem reads_varint {value : Nat} (h : value < 2 ^ 64) :
    Reads readVarint (appendVarint value) value :=
  @reads_varintLoop value 9 0 0 h (by decide)

theorem unzigzag_zigzag (value : BitVec 64) : unzigzag (zigzag value) = value := by
  rw [unzigzag, zigzag]
  cases h : value.msb with
  | false =>
    rw [BitVec.sshiftRight_eq_of_msb_false h,
      show (value <<< 1 ^^^ value >>> 63) &&& 1 = 0 by grind]
    grind
  | true =>
    rw [BitVec.sshiftRight_eq_of_msb_true h,
      show (value <<< 1 ^^^ ~~~(~~~value >>> 63)) &&& 1 = 1 by grind,
      show ~~~1 + 1 = BitVec.allOnes 64 from rfl, BitVec.xor_allOnes]
    grind

theorem reads_i64 {w : Nat} (value : BitVec w) :
    Reads readI64 (writeInt value) (value.signExtend 64) := by
  have hread := (reads_varint (zigzag (value.signExtend 64)).isLt).map
    fun raw => unzigzag (BitVec.ofNat 64 raw)
  rwa [BitVec.ofNat_toNat, BitVec.setWidth_eq, unzigzag_zigzag] at hread

theorem reads_narrow {v w : Nat} {p : Reader (BitVec v)} {written : Bytes} {wide : BitVec v}
    {value : BitVec w} {message : String} (hp : Reads p written wide)
    (h : wide.toInt = value.toInt) : Reads (p >>= narrow w message) written value := by
  rw [← append_nil written]
  refine hp.bind ?_
  rw [narrow, h, BitVec.ofInt_toInt]
  exact .require ⟨value.le_toInt, value.toInt_lt⟩ fun _ => rfl

theorem reads_i32 (value : BitVec 32) : Reads readI32 (writeInt value) value :=
  reads_narrow (reads_i64 value) (BitVec.toInt_signExtend_of_le (by decide))

theorem reads_i16 (value : BitVec 16) : Reads readI16 (writeInt value) value := by
  have hwide : (value.signExtend 64).toInt = (value.signExtend 32).toInt := by
    rw [BitVec.toInt_signExtend_of_le (by decide), BitVec.toInt_signExtend_of_le (by decide)]
  exact reads_narrow (reads_narrow (reads_i64 value) hwide)
    (BitVec.toInt_signExtend_of_le (by decide))

/-! ### Strings and lists -/

def maxMetadataBinaryBytes : Nat := 16 * 1024 * 1024

def maxContainerElements : Nat := 4000000

def writeString (value : Bytes) : Bytes := appendVarint value.length ++ value

def skipBinary : Reader Unit := do
  let size ← readVarint
  requireRemaining size "Parquet footer: binary value exceeds footer"
  require (size ≤ maxMetadataBinaryBytes)
    "Parquet footer: binary metadata value exceeds security limit"
  modify (drop size)

def listHeader (size elementType : Nat) : Bytes :=
  if size ≤ 14 then [UInt8.ofNat (size <<< 4 ||| elementType)]
  else UInt8.ofNat (0xF0 ||| elementType) :: appendVarint size

/-- The header and the items of a list. -/
def writeList {α : Type} (elementType : Nat) (write : α → Bytes) (values : List α) : Bytes :=
  listHeader values.length elementType ++ (values.map write).flatten

def readListHeader : Reader (Nat × Nat) := do
  let header ← readByte
  let elementType := (header &&& 0x0F).toNat
  let size := (header >>> 4).toNat
  let size ← (if size = 15 then readVarint else pure size : Reader Nat)
  require (size ≤ maxContainerElements) "Parquet footer: container too large"
  require (size = 0 ∨ elementType ≠ 0) "Parquet footer: non-empty container has STOP element type"
  requireRemaining size "Parquet footer: container count exceeds remaining input bytes"
  return (elementType, size)

section Skipping

variable (skipType : Nat → Reader Unit)

def skipContainerValue (type : Nat) : Reader Unit :=
  if type = 1 ∨ type = 2 then discard readByte else skipType type

def skipList : Reader Unit := do
  let (elementType, size) ← readListHeader
  times (skipContainerValue skipType elementType) size

def skipMap : Reader Unit := do
  let size ← readVarint
  if size = 0 then return
  require (size ≤ maxContainerElements) "Parquet footer: map too large"
  let types ← readByte
  let keyType := (types >>> 4).toNat
  let valueType := (types &&& 0x0F).toNat
  require (keyType ≠ 0 ∧ valueType ≠ 0) "Parquet footer: non-empty map has STOP key/value type"
  requireRemaining (2 * size) "Parquet footer: map count exceeds remaining input bytes"
  times (do skipContainerValue skipType keyType; skipContainerValue skipType valueType) size

end Skipping

theorem reads_binary {value : Bytes} (h : value.length ≤ maxMetadataBinaryBytes) :
    Reads skipBinary (writeString value) () := by
  have hsize : value.length < 2 ^ 64 := h.trans_lt (by decide)
  refine (reads_varint hsize).bind (.requireRemaining le_rfl (.require h fun rest => ?_))
  show Except.ok ((), (value ++ rest).drop value.length) = _
  rw [drop_left]

theorem header_byte : ∀ high < 16, ∀ low < 16,
    (UInt8.ofNat (high <<< 4 ||| low) &&& 0x0F).toNat = low ∧
    (UInt8.ofNat (high <<< 4 ||| low) >>> 4).toNat = high := by
  decide +kernel

section Skips

variable {skipType : Nat → Reader Unit} {α : Type} {write : α → Bytes} {values : List α}
  {type : Nat}

/-- A written list is skipped whole, element by element. -/
theorem reads_list (htype : 0 < type ∧ type < 16) (hsize : values.length ≤ maxContainerElements)
    (hpos : ∀ v ∈ values, 0 < (write v).length)
    (hread : ∀ v ∈ values, Reads (skipContainerValue skipType type) (write v) ()) :
    Reads (skipList skipType) (writeList type write values) () := by
  have hroom : values.length ≤ (values.map write).flatten.length := by
    rw [length_flatten, map_map, ← length_map (length ∘ write)]
    exact length_le_sum_of_one_le _ (forall_mem_map.mpr hpos)
  have hitems := Reads.times (forall_mem_map.mpr hread)
  rw [length_map] at hitems
  rw [skipList, readListHeader, writeList, listHeader]
  simp only [bind_assoc]
  split
  · obtain ⟨hlow, hhigh⟩ := header_byte values.length (by omega) type htype.2
    refine .next ?_
    rw [hlow, hhigh, if_neg (by omega)]
    simp only [pure_bind]
    exact .require hsize (.require (.inr htype.1.ne') (.requireRemaining hroom hitems))
  · obtain ⟨hlow, hhigh⟩ := header_byte 15 (by decide) type htype.2
    refine .next ?_
    rw [show 0xF0 ||| type = 15 <<< 4 ||| type from rfl, hlow, hhigh, if_pos rfl]
    simp only [pure_bind]
    refine (reads_varint (hsize.trans_lt (by decide))).bind ?_
    exact .require hsize (.require (.inr htype.1.ne') (.requireRemaining hroom hitems))

end Skips

/-! ### Fields -/

/-- The value of a field, by the method of `CompactWriter` that writes it. -/
inductive ThriftValue
  | bool (value : Bool)
  | byte (value : UInt8)
  | i32 (value : BitVec 32)
  | i64 (value : BitVec 64)
  | string (value : Bytes)
  | struct (fields : List (BitVec 16 × ThriftValue))
  | listI32 (values : List (BitVec 32))
  | listI64 (values : List (BitVec 64))
  | listBool (values : List Bool)
  | listString (values : List Bytes)
  | listStruct (items : List (List (BitVec 16 × ThriftValue)))

abbrev ThriftField := BitVec 16 × ThriftValue

/-- The type in the header of a field. -/
def ThriftValue.type : ThriftValue → Nat
  | .bool value => if value then 1 else 2
  | .byte _ => 3
  | .i32 _ => 5
  | .i64 _ => 6
  | .string _ => 8
  | .struct _ => 12
  | _ => 9

/-- The id and the type of a field. -/
def ThriftField.header (field : ThriftField) : BitVec 16 × Nat := (field.1, field.2.type)

/-- `field`: the header of the field `id` after the field `last`. -/
def writeHeader (last id : BitVec 16) (type : Nat) : Bytes :=
  let delta := id.toInt - last.toInt
  if 0 < delta ∧ delta ≤ 15 then [UInt8.ofNat (delta.toNat <<< 4 ||| type)]
  else UInt8.ofNat type :: writeInt id

mutual

/-- What follows the header of a field. -/
def ThriftValue.bytes : ThriftValue → Bytes
  | .bool _ => []
  | .byte value => [value]
  | .i32 value => writeInt value
  | .i64 value => writeInt value
  | .string value => writeString value
  | .struct fields => writeFields 0 fields
  | .listI32 values => writeList 5 writeInt values
  | .listI64 values => writeList 6 writeInt values
  | .listBool values => writeList 2 (fun value => [if value then 1 else 2]) values
  | .listString values => writeList 8 writeString values
  | .listStruct items => listHeader items.length 12 ++ writeItems items

/-- The fields of a struct after the field `last`, and `Stop`. -/
def writeFields (last : BitVec 16) : List ThriftField → Bytes
  | [] => [0]
  | (id, value) :: fields =>
    writeHeader last id value.type ++ (value.bytes ++ writeFields id fields)

/-- The items of a list of structs. -/
def writeItems : List (List ThriftField) → Bytes
  | [] => []
  | item :: items => writeFields 0 item ++ writeItems items

end

/-- The header of a field, as every loop over the fields of a struct reads it. -/
def readFieldHeader (last : BitVec 16) : Reader (Option (BitVec 16 × Nat)) := do
  let header ← readByte
  let type := (header &&& 0x0F).toNat
  let delta := (header >>> 4).toNat
  if type = 0 then return none
  else (fun id => some (id, type)) <$>
    if delta = 0 then readI16 else pure (BitVec.ofInt 16 (last.toInt + delta))

/-- The loop of `skip_struct`, with the headers it reads.  A round takes a byte or
more, so there are no more rounds than bytes. -/
def skipFields (skipType : Nat → Reader Unit) : Nat → BitVec 16 → Reader (List (BitVec 16 × Nat))
  | 0, _ => throw "Parquet footer: unexpected end of data"
  | rounds + 1, last => do
    match ← readFieldHeader last with
    | none => return []
    | some (id, type) =>
      skipType type
      return (id, type) :: (← skipFields skipType rounds id)

def skipStruct (skipType : Nat → Reader Unit) : Reader (List (BitVec 16 × Nat)) := do
  skipFields skipType (← get).length 0

def skipFixed (size : Nat) (message : String) : Reader Unit := do
  requireRemaining size message
  modify (drop size)

/-- `skip_type`, with the number of depths that are left. -/
def skipType : Nat → Nat → Reader Unit
  | 0, _ => throw "Parquet footer: nested metadata too deep"
  | left + 1, type =>
    match type with
    | 0 | 1 | 2 => pure ()
    | 3 => discard readByte
    | 4 => discard readI16
    | 5 => discard readI32
    | 6 => discard readI64
    | 7 => skipFixed 8 "Parquet footer: truncated double"
    | 8 => skipBinary
    | 9 | 10 => skipList (skipType left)
    | 11 => skipMap (skipType left)
    | 12 => discard (skipStruct (skipType left))
    | 13 => skipFixed 16 "Parquet footer: truncated uuid"
    | _ => throw ("Parquet footer: unsupported compact type " ++ toString type)

def maxSkipDepth : Nat := 64

/-- The value is within the limits of a reader with `left` depths left. -/
def ThriftValue.Fits : Nat → ThriftValue → Prop
  | 0, _ => False
  | _ + 1, .string value => value.length ≤ maxMetadataBinaryBytes
  | left + 1, .struct fields => ∀ field ∈ fields, Fits left field.2
  | left + 1, .listI32 values => values.length ≤ maxContainerElements ∧
    ∀ v ∈ values, Fits left (.i32 v)
  | left + 1, .listI64 values => values.length ≤ maxContainerElements ∧
    ∀ v ∈ values, Fits left (.i64 v)
  | _ + 1, .listBool values => values.length ≤ maxContainerElements
  | left + 1, .listString values =>
    values.length ≤ maxContainerElements ∧ ∀ v ∈ values, Fits left (.string v)
  | left + 1, .listStruct items =>
    items.length ≤ maxContainerElements ∧ ∀ item ∈ items, Fits left (.struct item)
  | _ + 1, _ => True

theorem ThriftValue.type_bounds (value : ThriftValue) : 0 < value.type ∧ value.type < 16 := by
  cases value with
  | bool value => cases value <;> decide
  | _ => exact ⟨by simp [type], by simp [type]⟩

theorem writeItems_eq (items : List (List ThriftField)) :
    writeItems items = (items.map (writeFields 0)).flatten := by
  induction items with
  | nil => rfl
  | cons item items ih => rw [writeItems, ih, map_cons, flatten_cons]

/-- Both forms of a field header, short delta and long id, are read back. -/
theorem reads_header (last : BitVec 16) (field : ThriftField) :
    Reads (readFieldHeader last) (writeHeader last field.1 field.2.type) (some field.header) := by
  obtain ⟨hpos, htype⟩ := field.2.type_bounds
  rw [readFieldHeader, writeHeader]
  split
  case isTrue hdelta =>
    obtain ⟨hlow, hhigh⟩ := header_byte (field.1.toInt - last.toInt).toNat (by omega) _ htype
    refine .next ?_
    rw [hlow, hhigh, if_neg hpos.ne', if_neg (by omega),
      show last.toInt + (field.1.toInt - last.toInt).toNat = field.1.toInt by omega,
      BitVec.ofInt_toInt]
    exact fun _ => rfl
  case isFalse =>
    obtain ⟨hlow, hhigh⟩ := header_byte 0 (by decide) _ htype
    rw [show 0 <<< 4 ||| field.2.type = field.2.type from Nat.zero_or _] at hlow hhigh
    refine .next ?_
    rw [hlow, hhigh, if_neg hpos.ne', if_pos rfl]
    exact (reads_i16 field.1).map _

theorem length_lt_writeFields (last : BitVec 16) (fields : List ThriftField) :
    fields.length < (writeFields last fields).length := by
  induction fields generalizing last with
  | nil => simp [writeFields]
  | cons field fields ih =>
    have hheader : 0 < (writeHeader last field.1 field.2.type).length := by
      rw [writeHeader]
      split <;> simp
    have := ih field.1
    simp only [writeFields, length_append, length_cons]
    omega

section Struct

variable {skipType : Nat → Reader Unit} {fields : List ThriftField}

/-- A written struct is skipped field by field, and every header is reported. -/
theorem reads_fields {rounds : Nat} {last : BitVec 16} (hrounds : fields.length < rounds)
    (h : ∀ field ∈ fields, Reads (skipType field.2.type) field.2.bytes ()) :
    Reads (skipFields skipType rounds last) (writeFields last fields)
      (fields.map ThriftField.header) := by
  induction fields generalizing rounds last with
  | nil =>
    obtain _ | rounds := rounds
    · omega
    exact fun _ => rfl
  | cons field fields ih =>
    obtain _ | rounds := rounds
    · omega
    rw [writeFields, skipFields]
    refine (reads_header last field).bind ((h field mem_cons_self).bind ?_)
    exact (ih (by simpa using hrounds) fun f hf => h f (mem_cons_of_mem _ hf)).map _

theorem reads_struct (h : ∀ field ∈ fields, Reads (skipType field.2.type) field.2.bytes ()) :
    Reads (skipStruct skipType) (writeFields 0 fields) (fields.map ThriftField.header) := by
  intro rest
  have hlength := length_lt_writeFields 0 fields
  refine reads_fields ?_ h rest
  rw [length_append]
  omega

end Struct

/-- Skipping a value consumes what was written for it, by induction on the depths
that are left. -/
theorem reads_value {left : Nat} {value : ThriftValue} (h : value.Fits left) :
    Reads (skipType left value.type) value.bytes () := by
  induction left generalizing value with
  | zero => exact h.elim
  | succ left ih =>
    cases value with
    | bool value => cases value <;> exact fun _ => rfl
    | byte value => exact fun _ => rfl
    | i32 value => exact (reads_i32 value).map _
    | i64 value => exact (reads_i64 value).map _
    | string value => exact reads_binary h
    | struct fields => exact (reads_struct fun field hfield => ih (h field hfield)).map _
    | listI32 values | listI64 values =>
      exact reads_list (by decide) h.1 (fun _ _ => appendVarint_pos _) fun v hv => ih (h.2 v hv)
    | listBool values =>
      exact reads_list (by decide) h (fun _ _ => Nat.one_pos) fun _ _ _ => rfl
    | listString values =>
      refine reads_list (by decide) h.1 (fun v _ => ?_) fun v hv => ih (h.2 v hv)
      simp [writeString, appendVarint_pos]
    | listStruct items =>
      rw [ThriftValue.bytes, writeItems_eq]
      exact reads_list (by decide) h.1 (fun item _ => (length_lt_writeFields 0 item).pos)
        fun item hitem => ih (h.2 item hitem)

/-- **Reading stays in step with writing**: the header of every field comes back, a
skipped field takes its own bytes, and a skipped struct takes all of its bytes and
reads its headers in order. -/
theorem compactReader_in_step {depth : Nat} {fields : List ThriftField}
    (h : ∀ field ∈ fields, field.2.Fits (maxSkipDepth + 1 - depth)) :
    (∀ field ∈ fields, ∀ last,
      Reads (readFieldHeader last) (writeHeader last field.1 field.2.type) (some field.header) ∧
      Reads (skipType (maxSkipDepth + 1 - depth) field.2.type) field.2.bytes ()) ∧
    Reads (skipStruct (skipType (maxSkipDepth + 1 - depth))) (writeFields 0 fields)
      (fields.map ThriftField.header) :=
  ⟨fun field hfield last => ⟨reads_header last field, reads_value (h field hfield)⟩,
    reads_struct fun field hfield => reads_value (h field hfield)⟩

/-- A jump of ids, a nested struct and a list of structs. -/
def sampleFields : List ThriftField :=
  [(20, .struct [(1, .i32 7)]), (3, .listStruct [[(1, .bool true)]])]

theorem compactReader_in_step_sample :
    Reads (skipStruct (skipType 65)) (writeFields 0 sampleFields) [(20, 12), (3, 9)] :=
  (@compactReader_in_step 0 sampleFields
    (by simp [sampleFields, maxSkipDepth, ThriftValue.Fits, maxContainerElements])).2

end SchemaSanitizer.Parquet
