/-
SchemaSanitizer/Inference.lean

Schema inference (`internal/inference/shape_scan.cc`,
`internal/inference/statistics/`, `internal/inference/schema_inference.cc`).
Rows are scanned one by one, each in two passes.  The first pass marks the
paths at which arrays and objects with evidence stand; the second one adds the
row to a tree of statistics, under the marks made so far.  A value at a marked
path that has not the marked shape is wrapped: into a list, or under the
default key.  At the end the tree is read as a schema.

A path is the list of its components, innermost first; `listMarker` stands for
an array element.  The wrapping of a value goes down the marked paths while
the value stays the same, so `wrapped` recurses on a bound for the length of
these paths; `wrapped_eq` and `updateStatsValue` with it are the source's
equations, without the bound.
-/
import SchemaSanitizer.Value
import SchemaSanitizer.LogicalType

namespace SchemaSanitizer

/-! ### Shapes -/

/-- A path (`PathInterner`), innermost component first. -/
abbrev Path := List Bytes

/-- The component of array elements.  A user key of this text is the same
component. -/
def listMarker : Bytes := bytes "[]"

/-- The paths marked `seen_list` and `seen_struct`. -/
structure Shapes where
  lists : Finset Path := ∅
  structs : Finset Path := ∅
  deriving DecidableEq

/-- `ctx->shape(path).seen_list = true`, where there is evidence. -/
def Shapes.markList (shapes : Shapes) (path : Path) (evidence : Bool) : Shapes :=
  if evidence then { shapes with lists := insert path shapes.lists } else shapes

/-- `ctx->shape(path).seen_struct = true`, where there is evidence. -/
def Shapes.markStruct (shapes : Shapes) (path : Path) (evidence : Bool) : Shapes :=
  if evidence then { shapes with structs := insert path shapes.structs } else shapes

mutual

/-- `scan_shapes_value`: the marks of one value, and whether it has evidence. -/
def scanShapesValue (opts : Options) : Value → Path → DepthState → Shapes → Shapes × Bool
  | .null, _, _, shapes => (shapes, false)
  | .array elements, path, depth, shapes =>
    let r := scanShapesElements opts elements (listMarker :: path) depth shapes
    (r.1.markList path r.2, r.2)
  | .object fields, path, depth, shapes =>
    let r := scanShapesFields opts fields path depth shapes
    (r.1.markStruct path r.2, r.2)
  | _, _, _, shapes => (shapes, true)

/-- The loop over the elements of an array. -/
def scanShapesElements (opts : Options) : List Value → Path → DepthState → Shapes → Shapes × Bool
  | [], _, _, shapes => (shapes, false)
  | v :: vs, path, depth, shapes =>
    let first := scanShapesValue opts v path (enterValueDepth depth v) shapes
    let rest := scanShapesElements opts vs path depth first.1
    (rest.1, first.2 || rest.2)

/-- The loop over the fields of an object (`scan_shapes_object_field`), and of
a row (`scan_shapes_row`).  A flattened field has evidence and no mark. -/
def scanShapesFields (opts : Options) :
    List (Bytes × Value) → Path → DepthState → Shapes → Shapes × Bool
  | [], _, _, shapes => (shapes, false)
  | (key, v) :: fs, path, depth, shapes =>
    let first :=
      if v.containerIsEmpty then (shapes, false)
      else if shouldFlattenNested opts depth v then (shapes, true)
      else scanShapesValue opts v (key :: path) (enterValueDepth depth v) shapes
    let rest := scanShapesFields opts fs path depth first.1
    (rest.1, first.2 || rest.2)

end

/-- `scan_shapes_row`. -/
def scanShapesRow (opts : Options) (shapes : Shapes) (row : Row) : Shapes :=
  (scanShapesFields opts row [] {} shapes).1

/-! ### Statistics -/

/-- `StatsNode`.  Children keep the order in which their keys were met. -/
structure StatsNode where
  scalarKindMask : Nat := 0
  isStruct : Bool := false
  isList : Bool := false
  hasEvidence : Bool := false
  children : List (Bytes × StatsNode) := []
  elem : Option StatsNode := none

/-- A node without any observation. -/
def StatsNode.empty : StatsNode := {}

/-- `StatsNode::child` followed by an update of the child: the child is made if
it is not there. -/
def updateChild (key : Bytes) (update : StatsNode → StatsNode × Bool) :
    List (Bytes × StatsNode) → List (Bytes × StatsNode) × Bool
  | [] =>
    let r := update .empty
    ([(key, r.1)], r.2)
  | (k, child) :: children =>
    if k = key then
      let r := update child
      ((k, r.1) :: children, r.2)
    else
      let r := updateChild key update children
      ((k, child) :: r.1, r.2)

/-- The `_flattened` child of `mark_flattened_stats`. -/
def markFlattened (child : StatsNode) : StatsNode × Bool :=
  ({ child with scalarKindMask := child.scalarKindMask ||| kStr, hasEvidence := true }, true)

/-- A node whose elements were updated. -/
def StatsNode.withElem (stats : StatsNode) (elem : StatsNode × Bool) : StatsNode × Bool :=
  ({ stats with elem := some elem.1, hasEvidence := stats.hasEvidence || elem.2 }, elem.2)

/-- A node whose children were updated. -/
def StatsNode.withChildren (stats : StatsNode) (children : List (Bytes × StatsNode) × Bool) :
    StatsNode × Bool :=
  ({ stats with children := children.1, hasEvidence := stats.hasEvidence || children.2 },
    children.2)

/-- The three shapes a value can have. -/
inductive ValueShape
  | array
  | object
  | scalar
  deriving DecidableEq, Repr

/-- The wrapping of one value (the branches of `update_stats_value` for marked
paths).  `direct` is the update where the value stands. -/
def wrapped (shapes : Shapes) (defaultKey : Bytes) (shape : ValueShape)
    (direct : Path → DepthState → StatsNode → StatsNode × Bool) :
    Nat → Path → DepthState → StatsNode → StatsNode × Bool
  | 0, path, depth, stats => direct path depth stats
  | fuel + 1, path, depth, stats =>
    if path ∈ shapes.lists then
      let stats := { stats with isList := true }
      if shape = .array then direct path depth stats
      else
        stats.withElem (wrapped shapes defaultKey shape direct fuel (listMarker :: path) depth
          (stats.elem.getD .empty))
    else if path ∈ shapes.structs then
      let stats := { stats with isStruct := true }
      if shape = .object then direct path depth stats
      else
        stats.withChildren (updateChild defaultKey
          (wrapped shapes defaultKey shape direct fuel (defaultKey :: path) depth.enterObject)
          stats.children)
    else direct path depth stats

/-- One more than the length of the longest marked path. -/
def Shapes.height (shapes : Shapes) : Nat :=
  (shapes.lists ∪ shapes.structs).sup List.length + 1

/-- The update of a node by a scalar. -/
def StatsNode.addScalar (stats : StatsNode) (mask : Nat) : StatsNode × Bool :=
  ({ stats with scalarKindMask := stats.scalarKindMask ||| mask, hasEvidence := true }, true)

/-- The update of a node by an array, given the update of its elements. -/
def StatsNode.addArray (stats : StatsNode) (elem : StatsNode × Bool) : StatsNode × Bool :=
  ({ stats with
      elem := some elem.1, isList := stats.isList || elem.2,
      hasEvidence := stats.hasEvidence || elem.2 }, elem.2)

/-- The update of a node by an object, given the update of its children. -/
def StatsNode.addObject (stats : StatsNode) (children : List (Bytes × StatsNode) × Bool) :
    StatsNode × Bool :=
  ({ stats with
      children := children.1, isStruct := stats.isStruct || children.2,
      hasEvidence := stats.hasEvidence || children.2 }, children.2)

mutual

/-- `update_stats_value`. -/
def updateStatsValue (opts : Options) (shapes : Shapes) :
    Value → Path → DepthState → StatsNode → StatsNode × Bool
  | .null, _, _, stats => (stats, false)
  | .array elements, path, depth, stats =>
    wrapped shapes opts.defaultKeyName .array
      (fun path depth stats => stats.addArray
        (updateStatsElements opts shapes elements (listMarker :: path) depth
          (stats.elem.getD .empty)))
      shapes.height path depth stats
  | .object fields, path, depth, stats =>
    wrapped shapes opts.defaultKeyName .object
      (fun path depth stats => stats.addObject
        (updateStatsFields opts shapes fields path depth stats.children))
      shapes.height path depth stats
  | v, path, depth, stats =>
    wrapped shapes opts.defaultKeyName .scalar
      (fun _ _ stats => stats.addScalar (inferScalarMask opts v)) shapes.height path depth stats

/-- The loop over the elements of an array. -/
def updateStatsElements (opts : Options) (shapes : Shapes) :
    List Value → Path → DepthState → StatsNode → StatsNode × Bool
  | [], _, _, stats => (stats, false)
  | v :: vs, path, depth, stats =>
    let first := updateStatsValue opts shapes v path (enterValueDepth depth v) stats
    let rest := updateStatsElements opts shapes vs path depth first.1
    (rest.1, first.2 || rest.2)

/-- The loop over the fields of an object (`update_stats_object_field`), and of
a row (`update_stats_row`). -/
def updateStatsFields (opts : Options) (shapes : Shapes) :
    List (Bytes × Value) → Path → DepthState → List (Bytes × StatsNode) →
      List (Bytes × StatsNode) × Bool
  | [], _, _, children => (children, false)
  | (key, v) :: fs, path, depth, children =>
    let first :=
      if v.containerIsEmpty then (children, false)
      else if shouldFlattenNested opts depth v then
        updateChild (key ++ flattenedSuffix) markFlattened children
      else
        updateChild key
          (updateStatsValue opts shapes v (key :: path) (enterValueDepth depth v)) children
    let rest := updateStatsFields opts shapes fs path depth first.1
    (rest.1, first.2 || rest.2)

end

/-- What inference keeps between rows. -/
structure InferenceContext where
  shapes : Shapes := {}
  /-- the children of the root node -/
  root : List (Bytes × StatsNode) := []

/-- One row: `scan_shapes_row`, then `update_stats_row`. -/
def scanRow (opts : Options) (ctx : InferenceContext) (row : Row) : InferenceContext :=
  let shapes := scanShapesRow opts ctx.shapes row
  { shapes, root := (updateStatsFields opts shapes row [] {} ctx.root).1 }

/-- `scan_inference_batch`, over all rows. -/
def scanRows (opts : Options) (ctx : InferenceContext) (rows : List Row) : InferenceContext :=
  rows.foldl (scanRow opts) ctx

/-! ### The inferred schema -/

/-- `scalar_type_from_mask`. -/
def scalarTypeFromMask (mask : Nat) : ScalarKind :=
  if mask = 0 then .utf8
  else if mask ||| (kInt ||| kFloat) = kInt ||| kFloat ∧ mask &&& kFloat ≠ 0 then .float64
  else if mask = kBool then .bool
  else if mask = kTs then .timestampNs
  else if mask = kDate then .date32
  else if mask = kTime then .time32s
  else if mask = kInt then .int64
  else .utf8

mutual

/-- `list_elem_requires_string_fallback`. -/
def listElemRequiresStringFallback : (direct : Bool) → StatsNode → Bool
  | direct, ⟨_, isStruct, isList, _, children, _⟩ =>
    if isList then direct
    else if isStruct then someChildRequiresStringFallback children
    else false

/-- The loop of `list_elem_requires_string_fallback` over the children. -/
def someChildRequiresStringFallback : List (Bytes × StatsNode) → Bool
  | [] => false
  | (_, child) :: children =>
    (child.hasEvidence && listElemRequiresStringFallback false child) ||
      someChildRequiresStringFallback children

end

/-- The fields of the children with evidence, under cleaned names. -/
def fieldsOfTypes (cleanNames : List Bytes) (types : List (Bytes × LogicalType)) :
    List LogicalField :=
  List.zipWith (fun name t => ⟨name, some t.2, true⟩) cleanNames types

mutual

/-- `type_from_stats`. -/
def typeFromStats (opts : Options) : StatsNode → LogicalType
  | ⟨mask, isStruct, isList, _, children, elem⟩ =>
    if isList then .list (some (elemTypeFromStats opts elem))
    else if isStruct then
      let types := childTypesFromStats opts children
      .struct (fieldsOfTypes (cleanSiblingFieldNames opts.toNameOptions (types.map Prod.fst)) types)
    else .scalar (scalarTypeFromMask mask)

/-- The element type of a list. -/
def elemTypeFromStats (opts : Options) : Option StatsNode → LogicalType
  | none => .scalar .utf8
  | some elem =>
    if listElemRequiresStringFallback true elem then .scalar .utf8 else typeFromStats opts elem

/-- The types of the children with evidence, under their source keys. -/
def childTypesFromStats (opts : Options) : List (Bytes × StatsNode) → List (Bytes × LogicalType)
  | [] => []
  | (key, child) :: children =>
    if child.hasEvidence then (key, typeFromStats opts child) :: childTypesFromStats opts children
    else childTypesFromStats opts children

end

/-- `is_reserved_etl_column_name`. -/
def isReservedEtlColumnName (name : Bytes) : Bool :=
  name == bytes "schema_registry" || name == bytes "schema_drifts" ||
    name == bytes "source_file" || name == bytes "ingestion_timestamp"

/-- `infer_logical_schema`: as for a struct, but reserved names are kept. -/
def inferLogicalSchema (opts : Options) (ctx : InferenceContext) : LogicalSchema :=
  let types := childTypesFromStats opts ctx.root
  let names := types.map Prod.fst
  let cleanNames := List.zipWith (fun raw clean =>
    if isReservedEtlColumnName raw then raw else clean)
    names (cleanSiblingFieldNames opts.toNameOptions names)
  ⟨fieldsOfTypes cleanNames types⟩

/-- The schema inferred from rows. -/
def inferRows (opts : Options) (rows : List Row) : LogicalSchema :=
  inferLogicalSchema opts (scanRows opts {} rows)

/-! ### The source's equation for wrapped values -/

section Wrapped

variable {shapes : Shapes} {defaultKey : Bytes} {shape : ValueShape}
  {direct : Path → DepthState → StatsNode → StatsNode × Bool}

theorem Shapes.length_lt_height {path : Path}
    (h : path ∈ shapes.lists ∨ path ∈ shapes.structs) : path.length < shapes.height := by
  have hle : path.length ≤ (shapes.lists ∪ shapes.structs).sup List.length :=
    Finset.le_sup (Finset.mem_union.mpr h)
  exact Nat.lt_succ_of_le hle

/-- Above the height of the shapes more fuel changes nothing. -/
theorem wrapped_succ : ∀ (fuel : Nat) (path : Path) (depth : DepthState) (stats : StatsNode),
    shapes.height ≤ fuel + path.length →
    wrapped shapes defaultKey shape direct (fuel + 1) path depth stats =
      wrapped shapes defaultKey shape direct fuel path depth stats := by
  intro fuel
  induction fuel with
  | zero =>
    intro path depth stats hle
    have hlist : path ∉ shapes.lists := fun h => by
      have := Shapes.length_lt_height (.inl h)
      omega
    have hstruct : path ∉ shapes.structs := fun h => by
      have := Shapes.length_lt_height (.inr h)
      omega
    simp only [wrapped, hlist, hstruct, if_false]
  | succ fuel ih =>
    intro path depth stats hle
    have hnext : ∀ key : Bytes, shapes.height ≤ fuel + (key :: path).length := fun key => by
      rw [List.length_cons]
      omega
    have hchild : wrapped shapes defaultKey shape direct (fuel + 1) (defaultKey :: path)
        depth.enterObject = wrapped shapes defaultKey shape direct fuel (defaultKey :: path)
        depth.enterObject := by
      funext child
      exact ih _ _ _ (hnext defaultKey)
    rw [wrapped, wrapped]
    simp only [ih _ _ _ (hnext listMarker), hchild]

/-- **The source's equation**: the wrapped value is updated with the same
bound. -/
theorem wrapped_eq (path : Path) (depth : DepthState) (stats : StatsNode) :
    wrapped shapes defaultKey shape direct shapes.height path depth stats =
      if path ∈ shapes.lists then
        if shape = .array then direct path depth { stats with isList := true }
        else StatsNode.withElem { stats with isList := true }
          (wrapped shapes defaultKey shape direct shapes.height (listMarker :: path) depth
            (stats.elem.getD .empty))
      else if path ∈ shapes.structs then
        if shape = .object then direct path depth { stats with isStruct := true }
        else StatsNode.withChildren { stats with isStruct := true } (updateChild defaultKey
          (wrapped shapes defaultKey shape direct shapes.height (defaultKey :: path)
            depth.enterObject) stats.children)
      else direct path depth stats := by
  rw [← wrapped_succ _ _ _ _ (Nat.le_add_right _ _)]
  rfl

end Wrapped

end SchemaSanitizer
