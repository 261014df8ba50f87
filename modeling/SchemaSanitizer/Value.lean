/-
SchemaSanitizer/Value.lean

Rows and their values (`sanitize/core/value_view.hh`), the options that decide
how they are read, nesting depth (`internal/inference/depth.cc`) and the
classification of scalars (`internal/parsing/string_scalar.hh`,
`internal/inference/value_observation.cc`).

A `Value` is the tree a `ValueView` walks.  A double is given by its 64 bits:
nothing below computes with it.  The strict text parsers of the options (for
tokens, numbers and times) are fields of `Options`, so every result holds for
all of them.

Depth counts containers: an array is one Arrow level, an object one Arrow and
one Parquet level.  A nested field that would leave the limits is flattened to
text at its parent.
-/
import SchemaSanitizer.FieldNames

namespace SchemaSanitizer

/-! ### Values -/

/-- A value of a row. -/
inductive Value
  | null
  | bool (b : Bool)
  | int (i : Int)
  | float (bits : UInt64)
  | string (s : Bytes)
  | array (elements : List Value)
  | object (fields : List (Bytes × Value))

/-- A row: its fields in order. -/
abbrev Row := List (Bytes × Value)

/-- Induction over values: an array is reached from its elements, an object
from the values of its fields. -/
@[induction_eliminator]
theorem Value.ind {motive : Value → Prop} (null : motive .null) (bool : ∀ b, motive (.bool b))
    (int : ∀ i, motive (.int i)) (float : ∀ bits, motive (.float bits))
    (string : ∀ s, motive (.string s))
    (array : ∀ elements : List Value, (∀ v ∈ elements, motive v) → motive (.array elements))
    (object : ∀ fields : List (Bytes × Value), (∀ f ∈ fields, motive f.2) →
      motive (.object fields)) :
    ∀ v, motive v := by
  intro v
  refine @Value.rec motive (fun vs => ∀ v ∈ vs, motive v) (fun fs => ∀ f ∈ fs, motive f.2)
    (fun f => motive f.2) null bool int float string array object ?nil ?cons ?fnil ?fcons ?pair v
  case nil => simp
  case cons =>
    intro v vs ihv ihvs w hw
    rcases List.mem_cons.mp hw with rfl | hw
    · exact ihv
    · exact ihvs w hw
  case fnil => simp
  case fcons =>
    intro f fs ihf ihfs g hg
    rcases List.mem_cons.mp hg with rfl | hg
    · exact ihf
    · exact ihfs g hg
  case pair =>
    intro k v ih
    exact ih

/-- `ValueView::is_array`. -/
def Value.isArray : Value → Bool
  | .array _ => true
  | _ => false

/-- `ValueView::is_object`. -/
def Value.isObject : Value → Bool
  | .object _ => true
  | _ => false

/-- `ValueView::container_is_empty`: an array or object without a child. -/
def Value.containerIsEmpty : Value → Bool
  | .array [] => true
  | .object [] => true
  | _ => false

/-! ### Options -/

/-- The options inference reads.  The parsers are the strict ones: what the
source calls with a text as it stands. -/
structure Options extends NameOptions where
  arrowMaxDepth : Nat
  parquetMaxDepth : Nat
  /-- `is_true_token` and `is_false_token`; nothing when no token is configured -/
  boolToken : Bytes → Option Bool
  parseTimestampNs : Bytes → Option Int
  parseDateDays : Bytes → Option Int
  parseTimeSeconds : Bytes → Option Int
  parseIntegers : Bool
  parseInt64Strict : Bytes → Option Int
  parseFloats : Bool
  parseFloat64Strict : Bytes → Option UInt64

/-- Options that leave every text a text. -/
def textOptions (arrowMaxDepth parquetMaxDepth : Nat) : Options where
  fieldNamePolicy := .lowerSnake
  defaultKeyName := bytes "default_key"
  arrowMaxDepth := arrowMaxDepth
  parquetMaxDepth := parquetMaxDepth
  boolToken _ := none
  parseTimestampNs _ := none
  parseDateDays _ := none
  parseTimeSeconds _ := none
  parseIntegers := false
  parseInt64Strict _ := none
  parseFloats := false
  parseFloat64Strict _ := none

/-! ### Depth -/

/-- `DepthState`. -/
structure DepthState where
  arrow : Nat := 0
  parquet : Nat := 0
  deriving DecidableEq, Repr

/-- The depth inside an array. -/
def DepthState.enterArray (depth : DepthState) : DepthState :=
  ⟨depth.arrow + 1, depth.parquet⟩

/-- The depth inside an object. -/
def DepthState.enterObject (depth : DepthState) : DepthState :=
  ⟨depth.arrow + 1, depth.parquet + 1⟩

/-- `enter_value_depth`. -/
def enterValueDepth (parent : DepthState) : Value → DepthState
  | .array _ => parent.enterArray
  | .object _ => parent.enterObject
  | _ => parent

/-- A depth beyond one of the limits. -/
def Options.beyond (opts : Options) (depth : DepthState) : Bool :=
  opts.arrowMaxDepth < depth.arrow || opts.parquetMaxDepth < depth.parquet

mutual

/-- `exceeds_depth_limit`. -/
def exceedsDepthLimit (opts : Options) : DepthState → Value → Bool
  | depth, .array elements =>
    opts.beyond depth.enterArray || elementsExceed opts depth.enterArray elements
  | depth, .object fields =>
    opts.beyond depth.enterObject || fieldsExceed opts depth.enterObject fields
  | _, _ => false

/-- Some element of an array exceeds the limits. -/
def elementsExceed (opts : Options) : DepthState → List Value → Bool
  | _, [] => false
  | depth, v :: vs => exceedsDepthLimit opts depth v || elementsExceed opts depth vs

/-- Some field of an object exceeds the limits. -/
def fieldsExceed (opts : Options) : DepthState → List (Bytes × Value) → Bool
  | _, [] => false
  | depth, (_, v) :: fs => exceedsDepthLimit opts depth v || fieldsExceed opts depth fs

end

/-- `should_flatten_nested`. -/
def shouldFlattenNested (opts : Options) (parentDepth : DepthState) (v : Value) : Bool :=
  (v.isObject || v.isArray) && exceedsDepthLimit opts parentDepth v

/-! ### Scalar classes -/

/-- `K_BOOL` and its successors: one bit per scalar class. -/
def kBool : Nat := 1
@[inherit_doc kBool] def kTs : Nat := 2
@[inherit_doc kBool] def kDate : Nat := 4
@[inherit_doc kBool] def kTime : Nat := 8
@[inherit_doc kBool] def kInt : Nat := 16
@[inherit_doc kBool] def kFloat : Nat := 32
@[inherit_doc kBool] def kStr : Nat := 64

/-- `is_ascii_scalar_whitespace`. -/
def isAsciiScalarWhitespace (c : UInt8) : Bool :=
  c == 32 || (9 ≤ c && c ≤ 13)

/-- `trim_ascii_scalar_whitespace`. -/
def trimAsciiScalarWhitespace (s : Bytes) : Bytes :=
  (s.dropWhile isAsciiScalarWhitespace).rdropWhile isAsciiScalarWhitespace

/-- `parse_string_with_trim_retry`. -/
def parseWithTrimRetry {α : Type} (parse : Bytes → Option α) (value : Bytes) : Option α :=
  match parse value with
  | some a => some a
  | none =>
    let trimmed := trimAsciiScalarWhitespace value
    if trimmed = [] ∨ trimmed = value then none else parse trimmed

section Coerce

variable (opts : Options)

/-- `coerce_bool_from_string`. -/
def coerceBoolFromString : Bytes → Option Bool := parseWithTrimRetry opts.boolToken

/-- `coerce_timestamp_ns_from_string`. -/
def coerceTimestampNsFromString : Bytes → Option Int := parseWithTrimRetry opts.parseTimestampNs

/-- `coerce_date_days_from_string`. -/
def coerceDateDaysFromString : Bytes → Option Int := parseWithTrimRetry opts.parseDateDays

/-- `coerce_time_seconds_from_string`. -/
def coerceTimeSecondsFromString : Bytes → Option Int := parseWithTrimRetry opts.parseTimeSeconds

/-- `coerce_int64_from_string`. -/
def coerceInt64FromString (s : Bytes) : Option Int :=
  if opts.parseIntegers then parseWithTrimRetry opts.parseInt64Strict s else none

/-- `coerce_float64_from_string`. -/
def coerceFloat64FromString (s : Bytes) : Option UInt64 :=
  if opts.parseFloats then parseWithTrimRetry opts.parseFloat64Strict s else none

/-- `infer_scalar_mask_from_string`: the first class that accepts the text. -/
def inferScalarMaskFromString (s : Bytes) : Nat :=
  if (coerceBoolFromString opts s).isSome then kBool
  else if (coerceTimestampNsFromString opts s).isSome then kTs
  else if (coerceDateDaysFromString opts s).isSome then kDate
  else if (coerceTimeSecondsFromString opts s).isSome then kTime
  else if (coerceInt64FromString opts s).isSome then kInt
  else if (coerceFloat64FromString opts s).isSome then kFloat
  else kStr

/-- `infer_scalar_mask`. -/
def inferScalarMask : Value → Nat
  | .null => 0
  | .bool _ => kBool
  | .int _ => kInt
  | .float _ => kFloat
  | .string s => inferScalarMaskFromString opts s
  | .object _ => kStr
  | .array _ => kStr

end Coerce

end SchemaSanitizer
