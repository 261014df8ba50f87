/-
SchemaSanitizer/Evidence.lean

Inference from evidence packets (`internal/inference/parallel_evidence.cc`,
`internal/inference/evidence_reduce.cc`).  With several workers the rows are
not scanned one after the other: a worker turns its rows into evidence, a
vector of nodes in preorder in which every node knows where its subtree ends,
and the packets are reduced in order.  The reduction has its own shape pass and
its own statistics pass over the nodes.

`reduceInferenceEvidenceRow_eq` compares the reduction of one row with the
serial scan of it, from any state.  They agree unless

* a field that the evidence records has the empty key: the reduction takes it
  for a missing key and fails (`reduce_empty_key`);
* the serial scan meets a nested field at another depth than the evidence
  builder, and only one of them flattens it.  This can happen inside an array
  that is wrapped under the default key.
-/
import SchemaSanitizer.Places

namespace SchemaSanitizer

open List

/-! ### Evidence nodes -/

/-- `InferenceEvidenceNode::Kind`. -/
inductive EvidenceKind
  | null
  | scalar
  | object
  | array
  | flattened
  deriving DecidableEq, Repr

/-- `InferenceEvidenceNode`.  The key is the text behind `key_index`, empty for
array elements, which have none. -/
structure EvidenceNode where
  subtreeEnd : Nat
  scalarKindMask : Nat := 0
  key : Bytes := []
  kind : EvidenceKind
  deriving DecidableEq, Repr

/-- `empty_container`. -/
def EvidenceNode.emptyContainer (node : EvidenceNode) (index : Nat) : Bool :=
  (node.kind == .object || node.kind == .array) && node.subtreeEnd == index + 1

mutual

/-- `append_value`: the nodes of a value, the first of them at `index`. -/
def appendValue (opts : Options) : Nat → Bytes → DepthState → Value → List EvidenceNode
  | index, key, _, .null => [⟨index + 1, 0, key, .null⟩]
  | index, key, depth, .array elements =>
    let children := appendElements opts (index + 1) depth elements
    ⟨index + 1 + children.length, 0, key, .array⟩ :: children
  | index, key, depth, .object fields =>
    let children := appendFields opts (index + 1) depth fields
    ⟨index + 1 + children.length, 0, key, .object⟩ :: children
  | index, key, _, v => [⟨index + 1, inferScalarMask opts v, key, .scalar⟩]

/-- `append_array_element`, for all elements. -/
def appendElements (opts : Options) : Nat → DepthState → List Value → List EvidenceNode
  | _, _, [] => []
  | index, depth, v :: vs =>
    let first := appendValue opts index [] (enterValueDepth depth v) v
    first ++ appendElements opts (index + first.length) depth vs

/-- `append_named_value`, for all fields of an object or a row. -/
def appendFields (opts : Options) : Nat → DepthState → List (Bytes × Value) → List EvidenceNode
  | _, _, [] => []
  | index, depth, (key, v) :: fs =>
    let first :=
      if v.containerIsEmpty then
        [⟨index + 1, 0, key, if v.isArray then .array else .object⟩]
      else if shouldFlattenNested opts depth v then [⟨index + 1, 0, key, .flattened⟩]
      else appendValue opts index key (enterValueDepth depth v) v
    first ++ appendFields opts (index + first.length) depth fs

end

/-- The nodes of a row (`append_materialized_row`), the first of them at `index`. -/
def appendRow (opts : Options) (index : Nat) (row : Row) : List EvidenceNode :=
  appendFields opts index {} row

/-! ### Reduction -/

/-- `validate_node`. -/
def validateNode (nodes : List EvidenceNode) (rowEnd index : Nat) : Except Bytes EvidenceNode :=
  match nodes[index]? with
  | none => .error (bytes "parallel inference evidence contains an invalid node index")
  | some node =>
    if rowEnd ≤ index ∨ nodes.length < rowEnd then
      .error (bytes "parallel inference evidence contains an invalid node index")
    else if node.subtreeEnd ≤ index ∨ rowEnd < node.subtreeEnd then
      .error (bytes "parallel inference evidence contains an invalid subtree span")
    else if (node.kind = .null ∨ node.kind = .scalar ∨ node.kind = .flattened) ∧
        node.subtreeEnd ≠ index + 1 then
      .error (bytes "parallel inference evidence contains a non-leaf scalar node")
    else .ok node

/-- The reading of a node: validated, or trusted. -/
def readNode (validate : Bool) (nodes : List EvidenceNode) (rowEnd index : Nat) :
    Except Bytes EvidenceNode :=
  if validate then validateNode nodes rowEnd index
  else
    match nodes[index]? with
    | none => .error (bytes "read past the end of the evidence")
    | some node => .ok node

/-- The loops over the children of a node: `step` handles the child at a
position and returns the position of the next one. -/
def nodeLoop {σ : Type} (step : Nat → σ → Except Bytes (Nat × σ × Bool)) (stop : Nat)
    (overlap : Bytes) : Nat → Nat → σ → Except Bytes (σ × Bool)
  | 0, child, s => if child = stop then .ok (s, false) else .error overlap
  | fuel + 1, child, s =>
    if child < stop then do
      let r ← step child s
      let rest ← nodeLoop step stop overlap fuel r.1 r.2.1
      .ok (rest.1, r.2.2 || rest.2)
    else if child = stop then .ok (s, false)
    else .error overlap

/-- The error of a field without a key. -/
def missingFieldKey : Bytes := bytes "parallel inference object evidence is missing a field key"

/-- `scan_named_shape`, given the scan of the value. -/
def scanNamedShape (nodes : List EvidenceNode) (rowEnd index : Nat) (parentPath : Path)
    (key : Bytes)
    (scan : Path → Shapes → Except Bytes (Shapes × Bool)) (shapes : Shapes) :
    Except Bytes (Shapes × Bool) := do
  let node ← validateNode nodes rowEnd index
  if node.emptyContainer index then .ok (shapes, false)
  else if node.kind = .flattened then .ok (shapes, true)
  else scan (key :: parentPath) shapes

/-- `scan_shape_value`, with `scan_shape_array` and `scan_shape_object`. -/
def scanShapeValue (nodes : List EvidenceNode) (rowEnd : Nat) :
    Nat → Nat → Path → Shapes → Except Bytes (Shapes × Bool)
  | 0, _, _, _ => .error (bytes "evidence is nested too deeply")
  | fuel + 1, index, path, shapes => do
      let node ← validateNode nodes rowEnd index
      match node.kind with
      | .null => .ok (shapes, false)
      | .scalar => .ok (shapes, true)
      | .array =>
        let r ← nodeLoop (fun child shapes => do
            let childNode ← validateNode nodes rowEnd child
            let r ← scanShapeValue nodes rowEnd fuel child (listMarker :: path) shapes
            .ok (childNode.subtreeEnd, r)) node.subtreeEnd
          (bytes "parallel inference array evidence has overlapping children")
          nodes.length (index + 1) shapes
        .ok (r.1.markList path r.2, r.2)
      | .object =>
        let r ← nodeLoop (fun child shapes => do
            let childNode ← validateNode nodes rowEnd child
            if childNode.key = [] then .error missingFieldKey
            else
              let r ← scanNamedShape nodes rowEnd child path childNode.key
                (scanShapeValue nodes rowEnd fuel child) shapes
              .ok (childNode.subtreeEnd, r)) node.subtreeEnd
          (bytes "parallel inference object evidence has overlapping children")
          nodes.length (index + 1) shapes
        .ok (r.1.markStruct path r.2, r.2)
      | .flattened =>
        .error (bytes "parallel inference flattened evidence is not attached to a field")

/-- `reduce_shape_row`. -/
def reduceShapeRow (nodes : List EvidenceNode) (rowBegin rowEnd : Nat) (shapes : Shapes) :
    Except Bytes Shapes := do
  let r ← nodeLoop (fun index shapes => do
      let node ← validateNode nodes rowEnd index
      if node.key = [] then
        .error (bytes "parallel inference root evidence is missing a field key")
      else if node.emptyContainer index then .ok (node.subtreeEnd, shapes, false)
      else
        let r ← scanNamedShape nodes rowEnd index [] node.key
          (scanShapeValue nodes rowEnd nodes.length index) shapes
        .ok (node.subtreeEnd, r)) rowEnd
    (bytes "parallel inference row evidence has overlapping root fields") nodes.length
      rowBegin shapes
  .ok r.1

/-- `updateChild` with an update that may fail. -/
def updateChildM (key : Bytes) (update : StatsNode → Except Bytes (StatsNode × Bool)) :
    List (Bytes × StatsNode) → Except Bytes (List (Bytes × StatsNode) × Bool)
  | [] => do
      let r ← update .empty
      .ok ([(key, r.1)], r.2)
  | (k, child) :: children =>
    if k = key then do
      let r ← update child
      .ok ((k, r.1) :: children, r.2)
    else do
      let r ← updateChildM key update children
      .ok ((k, child) :: r.1, r.2)

/-- The wrapping branches of the evidence `update_stats_value`; no depth is
carried along. -/
def wrappedNode (shapes : Shapes) (defaultKey : Bytes) (shape : ValueShape)
    (direct : Path → StatsNode → Except Bytes (StatsNode × Bool)) :
    Nat → Path → StatsNode → Except Bytes (StatsNode × Bool)
  | 0, path, stats => direct path stats
  | fuel + 1, path, stats =>
    if path ∈ shapes.lists then
      let stats := { stats with isList := true }
      if shape = .array then direct path stats
      else do
        let r ← wrappedNode shapes defaultKey shape direct fuel (listMarker :: path)
          (stats.elem.getD .empty)
        .ok (stats.withElem r)
    else if path ∈ shapes.structs then
      let stats := { stats with isStruct := true }
      if shape = .object then direct path stats
      else do
        let r ← updateChildM defaultKey
          (wrappedNode shapes defaultKey shape direct fuel (defaultKey :: path)) stats.children
        .ok (stats.withChildren r)
    else direct path stats

/-- `update_named_stats`, given the update by the value. -/
def updateNamedStats (validate : Bool) (nodes : List EvidenceNode) (rowEnd index : Nat)
    (parentPath : Path) (key : Bytes)
    (update : Path → StatsNode → Except Bytes (StatsNode × Bool))
    (children : List (Bytes × StatsNode)) : Except Bytes (List (Bytes × StatsNode) × Bool) := do
  let node ← readNode validate nodes rowEnd index
  if node.emptyContainer index then .ok (children, false)
  else if node.kind = .flattened then
    .ok (updateChild (key ++ flattenedSuffix) markFlattened children)
  else updateChildM key (update (key :: parentPath)) children

/-- `update_object_stats`, given the update by a child. -/
def updateObjectStats (validate : Bool) (nodes : List EvidenceNode) (rowEnd index : Nat)
    (path : Path) (update : Nat → Path → StatsNode → Except Bytes (StatsNode × Bool))
    (subtreeEnd : Nat) (children : List (Bytes × StatsNode)) :
    Except Bytes (List (Bytes × StatsNode) × Bool) :=
  nodeLoop (fun child children => do
      let childNode ← readNode validate nodes rowEnd child
      if validate = true ∧ childNode.key = [] then .error missingFieldKey
      else
        let r ← updateNamedStats validate nodes rowEnd child path childNode.key
          (update child) children
        .ok (childNode.subtreeEnd, r)) subtreeEnd
    (bytes "parallel inference object evidence has overlapping children") nodes.length (index + 1)
    children

/-- `update_array_stats`, given the update by a child. -/
def updateArrayStats (validate : Bool) (nodes : List EvidenceNode) (rowEnd index : Nat)
    (path : Path) (update : Nat → Path → StatsNode → Except Bytes (StatsNode × Bool))
    (subtreeEnd : Nat) (elem : StatsNode) : Except Bytes (StatsNode × Bool) :=
  nodeLoop (fun child elem => do
      let childNode ← readNode validate nodes rowEnd child
      let r ← update child path elem
      .ok (childNode.subtreeEnd, r)) subtreeEnd
    (bytes "parallel inference array evidence has overlapping children") nodes.length
      (index + 1) elem

/-- `update_stats_value` over evidence. -/
def updateStatsNode (validate : Bool) (nodes : List EvidenceNode) (rowEnd : Nat) (shapes : Shapes)
    (defaultKey : Bytes) : Nat → Nat → Path → StatsNode → Except Bytes (StatsNode × Bool)
  | 0, _, _, _ => .error (bytes "evidence is nested too deeply")
  | fuel + 1, index, path, stats => do
      let node ← readNode validate nodes rowEnd index
      match node.kind with
      | .null => .ok (stats, false)
      | .array =>
        wrappedNode shapes defaultKey .array (fun path stats => do
            let r ← updateArrayStats validate nodes rowEnd index (listMarker :: path)
              (updateStatsNode validate nodes rowEnd shapes defaultKey fuel) node.subtreeEnd
              (stats.elem.getD .empty)
            .ok (stats.addArray r)) shapes.height path stats
      | .object =>
        wrappedNode shapes defaultKey .object (fun path stats => do
            let r ← updateObjectStats validate nodes rowEnd index path
              (updateStatsNode validate nodes rowEnd shapes defaultKey fuel) node.subtreeEnd
              stats.children
            .ok (stats.addObject r)) shapes.height path stats
      | .scalar =>
        wrappedNode shapes defaultKey .scalar
          (fun _ stats => .ok (stats.addScalar node.scalarKindMask)) shapes.height path stats
      | .flattened =>
        wrappedNode shapes defaultKey .scalar (fun _ _ => .error
          (bytes "parallel inference flattened evidence is not attached to a field"))
          shapes.height path stats

/-- `reduce_stats_row`. -/
def reduceStatsRow (validate : Bool) (nodes : List EvidenceNode) (rowBegin rowEnd : Nat)
    (shapes : Shapes) (defaultKey : Bytes) (root : List (Bytes × StatsNode)) :
    Except Bytes (List (Bytes × StatsNode)) := do
  let r ← nodeLoop (fun index root => do
      let node ← readNode validate nodes rowEnd index
      if validate = true ∧ node.key = [] then
        .error (bytes "parallel inference root evidence is missing a field key")
      else if node.emptyContainer index then .ok (node.subtreeEnd, root, false)
      else
        let r ← updateNamedStats validate nodes rowEnd index [] node.key
          (updateStatsNode validate nodes rowEnd shapes defaultKey nodes.length index) root
        .ok (node.subtreeEnd, r)) rowEnd
    (bytes "parallel inference row evidence has overlapping root fields") nodes.length rowBegin root
  .ok r.1

/-- `InferenceEvidencePacket`: the nodes of its rows.  The second pass over the
nodes is trusted when there are at least four workers. -/
structure EvidencePacket where
  nodes : List EvidenceNode
  trustedStatsReduction : Bool

/-- `reduce_inference_evidence_row`, for the row whose nodes stand from
`rowBegin` to `rowEnd`. -/
def reduceInferenceEvidenceRow (opts : Options) (ctx : InferenceContext) (packet : EvidencePacket)
    (rowBegin rowEnd : Nat) : Except Bytes InferenceContext :=
  if rowEnd < rowBegin ∨ packet.nodes.length < rowEnd then
    .error (bytes "reduce_inference_evidence_row: invalid arguments")
  else do
    let shapes ← reduceShapeRow packet.nodes rowBegin rowEnd ctx.shapes
    let root ← reduceStatsRow (!packet.trustedStatsReduction) packet.nodes rowBegin rowEnd shapes
      opts.defaultKeyName ctx.root
    .ok { shapes, root }

/-! ### Nodes at positions -/

/-- The nodes of one field. -/
def appendNamedValue (opts : Options) (index : Nat) (depth : DepthState) (key : Bytes) (v : Value) :
    List EvidenceNode :=
  if v.containerIsEmpty then [⟨index + 1, 0, key, if v.isArray then .array else .object⟩]
  else if shouldFlattenNested opts depth v then [⟨index + 1, 0, key, .flattened⟩]
  else appendValue opts index key (enterValueDepth depth v) v

theorem appendFields_cons (opts : Options) (index : Nat) (depth : DepthState) (key : Bytes)
    (v : Value) (fs : List (Bytes × Value)) :
    appendFields opts index depth ((key, v) :: fs) =
      appendNamedValue opts index depth key v ++
        appendFields opts (index + (appendNamedValue opts index depth key v).length) depth fs := rfl

/-- A segment of nodes stands at a position of the vector. -/
def SegmentAt (nodes : List EvidenceNode) (index : Nat) (segment : List EvidenceNode) : Prop :=
  ∃ pre post, nodes = pre ++ segment ++ post ∧ pre.length = index

/-- What the kind of a node says about the subtree: only containers have one. -/
def EvidenceNode.LeafOk (node : EvidenceNode) (index : Nat) : Prop :=
  node.kind = .null ∨ node.kind = .scalar ∨ node.kind = .flattened → node.subtreeEnd = index + 1

/-- A segment that belongs to the row which ends at `rowEnd`. -/
structure RowSegment (nodes : List EvidenceNode) (rowEnd index : Nat)
    (segment : List EvidenceNode) : Prop where
  stands : SegmentAt nodes index segment
  row : index + segment.length ≤ rowEnd
  nodes : rowEnd ≤ nodes.length

/-- A node that the passes over the row accept. -/
structure NodeAt (nodes : List EvidenceNode) (rowEnd index : Nat) (node : EvidenceNode) : Prop where
  get : nodes[index]? = some node
  lt : index < node.subtreeEnd
  row : node.subtreeEnd ≤ rowEnd
  nodes : rowEnd ≤ nodes.length
  leaf : node.LeafOk index

section Segments

variable {nodes segment more : List EvidenceNode} {node : EvidenceNode} {index rowEnd : Nat}

theorem SegmentAt.le (h : SegmentAt nodes index segment) :
    index + segment.length ≤ nodes.length := by
  obtain ⟨pre, post, rfl, rfl⟩ := h
  simp

theorem RowSegment.left (h : RowSegment nodes rowEnd index (segment ++ more)) :
    RowSegment nodes rowEnd index segment := by
  obtain ⟨⟨pre, post, rfl, rfl⟩, hrow, hnodes⟩ := h
  rw [length_append] at hrow
  exact ⟨⟨pre, more ++ post, by simp, rfl⟩, by omega, hnodes⟩

theorem RowSegment.right (h : RowSegment nodes rowEnd index (segment ++ more)) :
    RowSegment nodes rowEnd (index + segment.length) more := by
  obtain ⟨⟨pre, post, rfl, rfl⟩, hrow, hnodes⟩ := h
  rw [length_append] at hrow
  exact ⟨⟨pre ++ segment, post, by simp, by simp⟩, by omega, hnodes⟩

theorem RowSegment.tail (h : RowSegment nodes rowEnd index (node :: segment)) :
    RowSegment nodes rowEnd (index + 1) segment :=
  (show RowSegment nodes rowEnd index ([node] ++ segment) from h).right

theorem RowSegment.first (h : RowSegment nodes rowEnd index (node :: segment))
    (hend : node.subtreeEnd = index + 1 + segment.length) (hleaf : node.LeafOk index) :
    NodeAt nodes rowEnd index node := by
  obtain ⟨⟨pre, post, rfl, rfl⟩, hrow, hnodes⟩ := h
  rw [length_cons] at hrow
  exact ⟨by simp, by omega, by omega, hnodes, hleaf⟩

theorem NodeAt.validate (h : NodeAt nodes rowEnd index node) :
    validateNode nodes rowEnd index = .ok node := by
  have := h.lt
  have := h.row
  have := h.nodes
  have h1 : ¬ (rowEnd ≤ index ∨ nodes.length < rowEnd) := by omega
  have h2 : ¬ (node.subtreeEnd ≤ index ∨ rowEnd < node.subtreeEnd) := by omega
  have h3 : ¬ ((node.kind = .null ∨ node.kind = .scalar ∨ node.kind = .flattened) ∧
      node.subtreeEnd ≠ index + 1) := fun hk => hk.2 (h.leaf hk.1)
  simp only [validateNode, h.get, h1, h2, h3, if_false]

theorem NodeAt.read (h : NodeAt nodes rowEnd index node) (validate : Bool) :
    readNode validate nodes rowEnd index = .ok node := by
  cases validate
  · simp only [readNode, h.get, Bool.false_eq_true, if_false]
  · exact h.validate

end Segments

variable {fuel : Nat}

section Nodes

variable {opts : Options} {nodes : List EvidenceNode} {rowEnd index : Nat} {key : Bytes}
  {depth : DepthState} {v : Value}

theorem appendValue_length_pos : 0 < (appendValue opts index key depth v).length := by
  cases v <;> exact Nat.succ_pos _

theorem exists_fuel (h : (appendValue opts index key depth v).length ≤ fuel) : ∃ n, fuel = n + 1 :=
  Nat.exists_eq_add_one.mpr (appendValue_length_pos.trans_le h)

theorem appendNamedValue_length_pos : 0 < (appendNamedValue opts index depth key v).length := by
  rw [appendNamedValue]
  split
  · exact Nat.one_pos
  split
  · exact Nat.one_pos
  · exact appendValue_length_pos

/-- The kind of the node of a value. -/
def evidenceKind : Value → EvidenceKind
  | .null => .null
  | .array _ => .array
  | .object _ => .object
  | _ => .scalar

theorem RowSegment.container {kind : EvidenceKind} {children : List EvidenceNode}
    (h : RowSegment nodes rowEnd index (⟨index + 1 + children.length, 0, key, kind⟩ :: children))
    (hkind : kind = .array ∨ kind = .object) :
    NodeAt nodes rowEnd index ⟨index + 1 + children.length, 0, key, kind⟩ := by
  refine h.first rfl fun hleaf => ?_
  rcases hkind with rfl | rfl <;> rcases hleaf with hk | hk | hk <;> cases hk

/-- The node at the head of a value's segment describes the value. -/
theorem RowSegment.value (h : RowSegment nodes rowEnd index (appendValue opts index key depth v)) :
    ∃ node, NodeAt nodes rowEnd index node ∧
      node.subtreeEnd = index + (appendValue opts index key depth v).length ∧ node.key = key ∧
      node.kind = evidenceKind v ∧ node.emptyContainer index = v.containerIsEmpty := by
  cases v with
  | array vs =>
    refine ⟨_, h.container (.inl rfl), ?_, rfl, rfl, ?_⟩
    · simp only [appendValue, length_cons]
      omega
    · rcases vs with - | ⟨v, vs⟩
      · simp [EvidenceNode.emptyContainer, Value.containerIsEmpty, appendElements]
      · have hpos := @appendValue_length_pos opts (index + 1) [] (enterValueDepth depth v) v
        simp only [EvidenceNode.emptyContainer, Value.containerIsEmpty, appendElements,
          length_append, beq_eq_false_iff_ne, Bool.and_eq_false_iff]
        right
        omega
  | object fs =>
    refine ⟨_, h.container (.inr rfl), ?_, rfl, rfl, ?_⟩
    · simp only [appendValue, length_cons]
      omega
    · rcases fs with - | ⟨⟨k, v⟩, fs⟩
      · simp [EvidenceNode.emptyContainer, Value.containerIsEmpty, appendFields]
      · have hpos := @appendNamedValue_length_pos opts (index + 1) k depth v
        simp only [EvidenceNode.emptyContainer, Value.containerIsEmpty, appendFields_cons,
          length_append, beq_eq_false_iff_ne, Bool.and_eq_false_iff]
        right
        omega
  | _ => exact ⟨_, h.first rfl fun _ => rfl, rfl, rfl, rfl, rfl⟩

theorem RowSegment.named
    (h : RowSegment nodes rowEnd index (appendNamedValue opts index depth key v)) :
    ∃ node, NodeAt nodes rowEnd index node ∧ node.key = key ∧
      node.subtreeEnd = index + (appendNamedValue opts index depth key v).length ∧
      node.emptyContainer index = v.containerIsEmpty ∧
      (v.containerIsEmpty = false →
        (node.kind = .flattened ↔ shouldFlattenNested opts depth v = true)) := by
  by_cases hempty : v.containerIsEmpty = true
  · -- an empty container is a node without children
    simp only [appendNamedValue, hempty, if_true] at h ⊢
    have hkind : (if v.isArray = true then EvidenceKind.array else .object) = .array ∨
        (if v.isArray = true then EvidenceKind.array else .object) = .object := by
      split
      exacts [.inl rfl, .inr rfl]
    refine ⟨_, h.first rfl fun _ => rfl, rfl, rfl, ?_, by simp⟩
    rcases hkind with hk | hk <;> simp [EvidenceNode.emptyContainer, hk]
  by_cases hflat : shouldFlattenNested opts depth v = true
  · simp only [appendNamedValue, hempty, hflat, if_true, Bool.false_eq_true, if_false] at h ⊢
    exact ⟨_, h.first rfl fun _ => rfl, rfl, rfl, by simp [EvidenceNode.emptyContainer], by simp⟩
  · simp only [appendNamedValue, hempty, hflat, Bool.false_eq_true, if_false] at h ⊢
    obtain ⟨node, hnode, hend, hkey, hkind, hcontainer⟩ := h.value
    refine ⟨node, hnode, hkey, hend, hcontainer.trans (by simpa using hempty), fun _ => ?_⟩
    rw [hkind]
    cases v <;> simp [evidenceKind]

end Nodes

/-! ### Loops over children -/

variable {vs : List Value}

/-- The loop over items, without positions. -/
def itemLoop {α σ : Type} (f : α → σ → Except Bytes (σ × Bool)) :
    List α → σ → Except Bytes (σ × Bool)
  | [], s => .ok (s, false)
  | x :: xs, s => do
      let r ← f x s
      let rest ← itemLoop f xs r.1
      .ok (rest.1, r.2 || rest.2)

theorem itemLoop_cons {α σ : Type} {f : α → σ → Except Bytes (σ × Bool)} {x : α} {s : σ}
    {r : σ × Bool} (h : f x s = .ok r) (xs : List α) :
    itemLoop f (x :: xs) s = (itemLoop f xs r.1).map fun rest => (rest.1, r.2 || rest.2) := by
  rw [itemLoop, h]
  show (do let rest ← itemLoop f xs r.1; _) = _
  rcases itemLoop f xs r.1 <;> rfl

section Loops

variable {α σ : Type} {nodes : List EvidenceNode} {rowEnd index : Nat}
  {f : α → σ → Except Bytes (σ × Bool)} {step : Nat → σ → Except Bytes (Nat × σ × Bool)}
  {overlap : Bytes} {opts : Options} {depth : DepthState}

/-- **A loop over children**, whose nodes stand one after the other, is the loop over
what they were appended for, if its step handles one of them and goes on behind it. -/
theorem nodeLoop_eq {append : Nat → α → List EvidenceNode}
    (appendAll : Nat → List α → List EvidenceNode) (hnil : ∀ i, appendAll i [] = [])
    (hcons : ∀ i x xs,
      appendAll i (x :: xs) = append i x ++ appendAll (i + (append i x).length) xs)
    (hpos : ∀ i x, 0 < (append i x).length) : ∀ (xs : List α) {index : Nat} (fuel : Nat) (s : σ),
    RowSegment nodes rowEnd index (appendAll index xs) → (appendAll index xs).length ≤ fuel →
    (∀ i x s, x ∈ xs → RowSegment nodes rowEnd i (append i x) →
      (append i x).length ≤ (appendAll index xs).length →
      step i s = (f x s).map (i + (append i x).length, ·)) →
    nodeLoop step (index + (appendAll index xs).length) overlap fuel index s = itemLoop f xs s := by
  intro xs
  induction xs with
  | nil =>
    intro index fuel s _ _ _
    rw [hnil]
    cases fuel <;> simp [nodeLoop, itemLoop]
  | cons x xs ih =>
    intro index fuel s h hfuel hstep
    have hx := hpos index x
    rw [hcons] at h hfuel hstep ⊢
    rw [length_append] at hfuel hstep ⊢
    obtain ⟨fuel, rfl⟩ :=
      Nat.exists_eq_add_one.mpr (hx.trans_le ((Nat.le_add_right _ _).trans hfuel))
    rw [nodeLoop, if_pos (by omega), hstep index x s mem_cons_self h.left (Nat.le_add_right _ _),
      itemLoop]
    rcases f x s with e | r
    · rfl
    · have hrest := ih fuel r.1 h.right (by omega) fun i y s hy hseg hle =>
        hstep i y s (mem_cons_of_mem x hy) hseg (by omega)
      show (do let rest ← nodeLoop step _ overlap fuel _ r.1; _) = _
      rw [← Nat.add_assoc, hrest]
      rfl

theorem nodeLoop_elements {f : Value → σ → Except Bytes (σ × Bool)} {vs : List Value}
    (h : RowSegment nodes rowEnd index (appendElements opts index depth vs))
    (hstep : ∀ i v s, v ∈ vs →
      RowSegment nodes rowEnd i (appendValue opts i [] (enterValueDepth depth v) v) →
      (appendValue opts i [] (enterValueDepth depth v) v).length ≤
        (appendElements opts index depth vs).length →
      step i s = (f v s).map (i + (appendValue opts i [] (enterValueDepth depth v) v).length, ·))
    (s : σ) :
    nodeLoop step (index + (appendElements opts index depth vs).length) overlap
    nodes.length index s =
      itemLoop f vs s :=
  nodeLoop_eq (fun i vs => appendElements opts i depth vs) (fun _ => rfl)
    (fun _ _ _ => rfl) (fun _ _ => appendValue_length_pos) vs _ s h
    (by have := h.stands.le; omega) hstep

theorem nodeLoop_fields {f : Bytes × Value → σ → Except Bytes (σ × Bool)}
    {fs : List (Bytes × Value)}
    (h : RowSegment nodes rowEnd index (appendFields opts index depth fs))
    (hstep : ∀ i k v s, (k, v) ∈ fs →
      RowSegment nodes rowEnd i (appendNamedValue opts i depth k v) →
      (appendNamedValue opts i depth k v).length ≤ (appendFields opts index depth fs).length →
      step i s = (f (k, v) s).map (i + (appendNamedValue opts i depth k v).length, ·)) (s : σ) :
    nodeLoop step (index + (appendFields opts index depth fs).length) overlap nodes.length index s =
      itemLoop f fs s :=
  nodeLoop_eq (fun i fs => appendFields opts i depth fs) (fun _ => rfl)
    (fun _ _ _ => rfl) (fun _ _ => appendNamedValue_length_pos) fs _ s h
    (by have := h.stands.le; omega) fun i f s => hstep i f.1 f.2 s

end Loops

/-! ### Empty keys -/

mutual

/-- A field that is recorded in the evidence of a value has the empty key. -/
def valueHasEmptyKey (opts : Options) : DepthState → Value → Bool
  | depth, .array elements => elementsHaveEmptyKey opts depth elements
  | depth, .object fields => fieldsHaveEmptyKey opts depth fields
  | _, _ => false

@[inherit_doc valueHasEmptyKey]
def elementsHaveEmptyKey (opts : Options) : DepthState → List Value → Bool
  | _, [] => false
  | depth, v :: vs =>
    valueHasEmptyKey opts (enterValueDepth depth v) v || elementsHaveEmptyKey opts depth vs

@[inherit_doc valueHasEmptyKey]
def fieldsHaveEmptyKey (opts : Options) : DepthState → List (Bytes × Value) → Bool
  | _, [] => false
  | depth, (key, v) :: fs =>
    key == [] ||
      (!v.containerIsEmpty && !shouldFlattenNested opts depth v &&
        valueHasEmptyKey opts (enterValueDepth depth v) v) ||
      fieldsHaveEmptyKey opts depth fs

end

variable {index rowBegin : Nat} {key : Bytes} {v : Value} {row : Row}

/-- A field that is recorded below the value of a field has the empty key. -/
def namedHasEmptyKey (opts : Options) (depth : DepthState) (v : Value) : Bool :=
  !v.containerIsEmpty && !shouldFlattenNested opts depth v &&
    valueHasEmptyKey opts (enterValueDepth depth v) v

section ShapePass

variable {opts : Options} {nodes : List EvidenceNode} {rowEnd : Nat} {path : Path}
  {depth : DepthState}

/-- The shape pass over the evidence of a value is the serial one, or stops at
an empty key. -/
def ShapePassAgrees (opts : Options) (nodes : List EvidenceNode) (rowEnd : Nat)
    (v : Value) : Prop :=
  ∀ (fuel index : Nat) (key : Bytes) (path : Path) (depth : DepthState) (shapes : Shapes),
    RowSegment nodes rowEnd index (appendValue opts index key depth v) →
    (appendValue opts index key depth v).length ≤ fuel →
    scanShapeValue nodes rowEnd fuel index path shapes =
      if valueHasEmptyKey opts depth v then .error missingFieldKey
      else .ok (scanShapesValue opts v path depth shapes)

theorem scanShapesElements_loop (shapes : Shapes) :
    itemLoop (fun v shapes => if valueHasEmptyKey opts (enterValueDepth depth v) v then
        .error missingFieldKey
      else .ok (scanShapesValue opts v path (enterValueDepth depth v) shapes)) vs shapes =
      if elementsHaveEmptyKey opts depth vs then .error missingFieldKey
      else .ok (scanShapesElements opts vs path depth shapes) := by
  induction vs generalizing shapes with
  | nil => rfl
  | cons v vs ih =>
    simp only [itemLoop, elementsHaveEmptyKey, scanShapesElements]
    by_cases hv : valueHasEmptyKey opts (enterValueDepth depth v) v = true
    · simp only [hv, if_true, Bool.true_or]
      rfl
    · simp only [hv, Bool.false_or, ih, Bool.false_eq_true, if_false]
      split_ifs <;> rfl

/-- The shape pass of the serial scan for one field. -/
def namedShapes (opts : Options) (path : Path) (depth : DepthState) (f : Bytes × Value)
    (shapes : Shapes) : Shapes × Bool :=
  if f.2.containerIsEmpty then (shapes, false)
  else if shouldFlattenNested opts depth f.2 then (shapes, true)
  else scanShapesValue opts f.2 (f.1 :: path) (enterValueDepth depth f.2) shapes

/-- The step of the shape pass for one field: the key is checked first. -/
def fieldShapeStep (opts : Options) (missing : Bytes) (path : Path) (depth : DepthState)
    (f : Bytes × Value) (shapes : Shapes) : Except Bytes (Shapes × Bool) :=
  if f.1 = [] then .error missing
  else if namedHasEmptyKey opts depth f.2 then .error missingFieldKey
  else .ok (namedShapes opts path depth f shapes)

/-- The shape pass over a named node does what the scan of its value does. -/
theorem scanNamedShape_eq {shapes : Shapes} (hv : ShapePassAgrees opts nodes rowEnd v)
    (h : RowSegment nodes rowEnd index (appendNamedValue opts index depth key v))
    (hfuel : (appendNamedValue opts index depth key v).length ≤ fuel) :
    scanNamedShape nodes rowEnd index path key (scanShapeValue nodes rowEnd fuel index) shapes =
      if namedHasEmptyKey opts depth v then .error missingFieldKey
      else .ok (namedShapes opts path depth (key, v) shapes) := by
  obtain ⟨node, hnode, -, -, hempty, hfull⟩ := h.named
  simp only [scanNamedShape, hnode.validate, namedHasEmptyKey, namedShapes]
  show (if node.emptyContainer index = true then _ else _) = _
  rw [hempty]
  by_cases hc : v.containerIsEmpty = true
  · simp [hc]
  have hflat := hfull (by simpa using hc)
  by_cases hf : shouldFlattenNested opts depth v = true
  · simp [hflat.mpr hf, hc, hf]
  · have hkind : ¬ node.kind = .flattened := fun hk => hf (hflat.mp hk)
    simp only [appendNamedValue, hc, hf, Bool.false_eq_true, if_false] at h hfuel
    simp only [hkind, hc, hf, Bool.false_eq_true, if_false, Bool.not_false, Bool.true_and,
      hv fuel index key (key :: path) _ shapes h hfuel]

theorem scanShapesFields_loop (missing : Bytes) : ∀ (fs : List (Bytes × Value)) (shapes : Shapes),
    (fieldsHaveEmptyKey opts depth fs = false →
      itemLoop (fieldShapeStep opts missing path depth) fs shapes =
        .ok (scanShapesFields opts fs path depth shapes)) ∧
    (fieldsHaveEmptyKey opts depth fs = true →
      itemLoop (fieldShapeStep opts missing path depth) fs shapes = .error missing ∨
      itemLoop (fieldShapeStep opts missing path depth) fs shapes = .error missingFieldKey)
  | [], shapes => ⟨fun _ => rfl, fun h => by cases h⟩
  | (key, v) :: fs, shapes => by
    have hkeys : fieldsHaveEmptyKey opts depth ((key, v) :: fs) =
      (key == [] || namedHasEmptyKey opts depth v || fieldsHaveEmptyKey opts depth fs) := rfl
    rw [hkeys]
    by_cases hkey : key = []
    · refine ⟨fun h => by simp [hkey] at h, fun _ => .inl ?_⟩
      simp only [itemLoop, fieldShapeStep, hkey, if_true]
      rfl
    by_cases hv : namedHasEmptyKey opts depth v = true
    · refine ⟨fun h => by simp [hv] at h, fun _ => .inr ?_⟩
      simp only [itemLoop, fieldShapeStep, hkey, if_false, hv, if_true]
      rfl
    have ih := scanShapesFields_loop missing fs (namedShapes opts path depth (key, v) shapes).1
    have hstep : fieldShapeStep opts missing path depth (key, v) shapes =
        .ok (namedShapes opts path depth (key, v) shapes) := by
      rw [fieldShapeStep, if_neg hkey, if_neg hv]
    rw [itemLoop_cons hstep, beq_eq_false_iff_ne.mpr hkey, eq_false_of_ne_true hv]
    refine ⟨fun h => ?_, fun h => ?_⟩
    · rw [ih.1 h]
      rfl
    · rcases ih.2 h with he | he <;> rw [he]
      exacts [.inl rfl, .inr rfl]

/-- **The shape pass over the nodes of a value.** -/
theorem shapePassAgrees (v : Value) : ShapePassAgrees opts nodes rowEnd v := by
  induction v with
  | array vs ih =>
    intro fuel index key path depth shapes h hfuel
    obtain ⟨fuel, rfl⟩ := exists_fuel hfuel
    rw [scanShapeValue, (h.container (.inl rfl)).validate]
    show (do let r ← nodeLoop _ _ _ _ _ _; _) = _
    rw [nodeLoop_elements h.tail (f := fun v shapes =>
        if valueHasEmptyKey opts (enterValueDepth depth v) v then .error missingFieldKey
        else .ok (scanShapesValue opts v (listMarker :: path) (enterValueDepth depth v) shapes))]
    · rw [scanShapesElements_loop, valueHasEmptyKey, scanShapesValue]
      split_ifs <;> rfl
    · intro i v s hv hseg hle
      obtain ⟨node, hnode, hend, -⟩ := hseg.value
      rw [hnode.validate, ih v hv fuel i [] _ _ s hseg (hle.trans (Nat.le_of_succ_le_succ hfuel)),
        ← hend]
      split_ifs <;> rfl
  | object fs ih =>
    intro fuel index key path depth shapes h hfuel
    obtain ⟨fuel, rfl⟩ := exists_fuel hfuel
    rw [scanShapeValue, (h.container (.inr rfl)).validate]
    show (do let r ← nodeLoop _ _ _ _ _ _; _) = _
    rw [nodeLoop_fields h.tail (f := fieldShapeStep opts missingFieldKey path depth)]
    · have hloop := @scanShapesFields_loop opts path depth missingFieldKey fs shapes
      rw [valueHasEmptyKey, scanShapesValue]
      by_cases hbad : fieldsHaveEmptyKey opts depth fs = true
      · rw [(hloop.2 hbad).elim id id, if_pos hbad]
        rfl
      · rw [hloop.1 (by simpa using hbad), if_neg hbad]
        rfl
    · intro i k v s hv hseg hle
      obtain ⟨node, hnode, hkey, hend, -⟩ := hseg.named
      rw [hnode.validate]
      show (if node.key = [] then _ else _) = _
      rw [hkey, fieldShapeStep, scanNamedShape_eq (ih (k, v) hv) hseg
        (hle.trans (Nat.le_of_succ_le_succ hfuel)), hend]
      split_ifs <;> rfl
  | null | bool | int | float | string =>
    intro fuel index key path depth shapes h hfuel
    obtain ⟨fuel, rfl⟩ := exists_fuel hfuel
    have hnode := h.first rfl fun _ => rfl
    rw [scanShapeValue, hnode.validate]
    rfl

/-- The shape pass over a row's evidence is the scan of the row. -/
theorem reduceShapeRow_eq (shapes : Shapes)
    (h : RowSegment nodes rowEnd rowBegin (appendRow opts rowBegin row))
    (hend : rowEnd = rowBegin + (appendRow opts rowBegin row).length) :
    (fieldsHaveEmptyKey opts {} row = false →
      reduceShapeRow nodes rowBegin rowEnd shapes = .ok (scanShapesRow opts shapes row)) ∧
    (fieldsHaveEmptyKey opts {} row = true →
      ∃ message, reduceShapeRow nodes rowBegin rowEnd shapes = .error message) := by
  rw [appendRow] at h hend
  subst hend
  have hloop := @scanShapesFields_loop opts [] {}
    (bytes "parallel inference root evidence is missing a field key") row shapes
  have hreduce : reduceShapeRow nodes rowBegin
      (rowBegin + (appendFields opts rowBegin {} row).length) shapes =
        (itemLoop (fieldShapeStep opts
        (bytes "parallel inference root evidence is missing a field key") [] {}) row shapes).map
        Prod.fst := by
    rw [reduceShapeRow, nodeLoop_fields h]
    · rcases itemLoop _ row shapes <;> rfl
    · intro i k v s hv hseg hle
      obtain ⟨node, hnode, hkey, hend, hempty, -⟩ := hseg.named
      rw [hnode.validate]
      show (if node.key = [] then _ else _) = _
      rw [hkey, hempty, fieldShapeStep, hend,
        scanNamedShape_eq (shapePassAgrees v) hseg (hle.trans (by have := h.stands.le; omega))]
      by_cases hc : v.containerIsEmpty = true
      · simp only [namedHasEmptyKey, namedShapes, hc, if_true, Bool.not_true, Bool.false_and,
          Bool.false_eq_true, if_false]
        split_ifs <;> rfl
      · rw [if_neg hc]
        split_ifs <;> rfl
  rw [hreduce]
  constructor
  · intro hbad
    rw [hloop.1 hbad]
    rfl
  · intro hbad
    rcases hloop.2 hbad with he | he <;> rw [he] <;> exact ⟨_, rfl⟩

end ShapePass

/-! ### Flattening in both passes -/

/-- Where the wrapping of a value ends, and at which depth. -/
def landing (shapes : Shapes) (defaultKey : Bytes) (shape : ValueShape) :
    Nat → Path → DepthState → Path × DepthState
  | 0, path, depth => (path, depth)
  | fuel + 1, path, depth =>
    if path ∈ shapes.lists then
      if shape = .array then (path, depth)
      else landing shapes defaultKey shape fuel (listMarker :: path) depth
    else if path ∈ shapes.structs then
      if shape = .object then (path, depth)
      else landing shapes defaultKey shape fuel (defaultKey :: path) depth.enterObject
    else (path, depth)

mutual

/-- The serial scan, at the depth at which it meets the nested fields of a
value, flattens those that are flattened at their depth in the row
(`nominal`). -/
def flattenAgrees (opts : Options) (shapes : Shapes) :
    Value → Path → DepthState → DepthState → Bool
  | .array elements, path, depth, nominal =>
    let place := landing shapes opts.defaultKeyName .array shapes.height path depth
    elementsFlattenAgree opts shapes elements (listMarker :: place.1) place.2 nominal
  | .object fields, path, depth, nominal =>
    let place := landing shapes opts.defaultKeyName .object shapes.height path depth
    fieldsFlattenAgree opts shapes fields place.1 place.2 nominal
  | _, _, _, _ => true

@[inherit_doc flattenAgrees]
def elementsFlattenAgree (opts : Options) (shapes : Shapes) :
    List Value → Path → DepthState → DepthState → Bool
  | [], _, _, _ => true
  | v :: vs, path, depth, nominal =>
    flattenAgrees opts shapes v path (enterValueDepth depth v) (enterValueDepth nominal v) &&
      elementsFlattenAgree opts shapes vs path depth nominal

@[inherit_doc flattenAgrees]
def fieldsFlattenAgree (opts : Options) (shapes : Shapes) :
    List (Bytes × Value) → Path → DepthState → DepthState → Bool
  | [], _, _, _ => true
  | (key, v) :: fs, path, depth, nominal =>
    (v.containerIsEmpty ||
      (shouldFlattenNested opts depth v == shouldFlattenNested opts nominal v &&
        (shouldFlattenNested opts nominal v ||
          flattenAgrees opts shapes v (key :: path) (enterValueDepth depth v)
            (enterValueDepth nominal v)))) &&
      fieldsFlattenAgree opts shapes fs path depth nominal

end

/-- Both passes flatten the same values in the value of a field. -/
def namedFlattenAgree (opts : Options) (shapes : Shapes) (path : Path) (depth nominal : DepthState)
    (f : Bytes × Value) : Bool :=
  f.2.containerIsEmpty ||
    (shouldFlattenNested opts depth f.2 == shouldFlattenNested opts nominal f.2 &&
      (shouldFlattenNested opts nominal f.2 ||
        flattenAgrees opts shapes f.2 (f.1 :: path) (enterValueDepth depth f.2)
          (enterValueDepth nominal f.2)))

section StatsPass

variable {opts : Options} {nodes : List EvidenceNode} {rowEnd : Nat} {shapes : Shapes}
  {validate : Bool} {path : Path} {depth nominal : DepthState}

theorem updateChildM_ok {key : Bytes} {updateM : StatsNode → Except Bytes (StatsNode × Bool)}
    {update : StatsNode → StatsNode × Bool} (h : ∀ child, updateM child = .ok (update child)) :
    ∀ children, updateChildM key updateM children = .ok (updateChild key update children)
  | [] => by
    rw [updateChildM, h]
    rfl
  | (k, child) :: children => by
    rw [updateChildM, updateChild, h, updateChildM_ok h children]
    split_ifs <;> rfl

/-- The default key wraps evidence exactly as it wraps values. -/
theorem wrappedNode_ok {defaultKey : Bytes} {shape : ValueShape}
    {directM : Path → StatsNode → Except Bytes (StatsNode × Bool)}
    {direct : Path → DepthState → StatsNode → StatsNode × Bool} :
    ∀ {fuel : Nat} {path : Path} {depth : DepthState},
    (∀ stats, directM (landing shapes defaultKey shape fuel path depth).1 stats =
      .ok (direct (landing shapes defaultKey shape fuel path depth).1
        (landing shapes defaultKey shape fuel path depth).2 stats)) →
    ∀ stats, wrappedNode shapes defaultKey shape directM fuel path stats =
      .ok (wrapped shapes defaultKey shape direct fuel path depth stats) := by
  intro fuel
  induction fuel with
  | zero => intro path depth h stats; exact h stats
  | succ fuel ih =>
    intro path depth h stats
    rw [landing] at h
    rw [wrappedNode, wrapped]
    dsimp only
    split_ifs at h ⊢
    · exact h _
    · rw [ih h]
      rfl
    · exact h _
    · rw [updateChildM_ok fun child => ih h child]
      rfl
    · exact h _

theorem updateStatsElements_loop : ∀ (vs : List Value) (stats : StatsNode),
    itemLoop (fun v stats =>
      .ok (updateStatsValue opts shapes v path (enterValueDepth depth v) stats))
      vs stats = .ok (updateStatsElements opts shapes vs path depth stats)
  | [], _ => rfl
  | v :: vs, stats => by
    rw [itemLoop_cons rfl, updateStatsElements_loop vs]
    rfl

/-- The update of children by one field. -/
def fieldStatsStep (opts : Options) (shapes : Shapes) (path : Path) (depth : DepthState)
    (f : Bytes × Value) (children : List (Bytes × StatsNode)) : List (Bytes × StatsNode) × Bool :=
  if f.2.containerIsEmpty then (children, false)
  else if shouldFlattenNested opts depth f.2 then
    updateChild (f.1 ++ flattenedSuffix) markFlattened children
  else
    updateChild f.1 (updateStatsValue opts shapes f.2 (f.1 :: path)
      (enterValueDepth depth f.2)) children

theorem updateStatsFields_loop : ∀ (fs : List (Bytes × Value))
    (children : List (Bytes × StatsNode)),
    itemLoop (fun f children =>
      .ok (fieldStatsStep opts shapes path depth f children)) fs children =
      .ok (updateStatsFields opts shapes fs path depth children)
  | [], _ => rfl
  | (key, v) :: fs, children => by
    rw [itemLoop_cons rfl, updateStatsFields_loop fs]
    rfl

/-- The statistics pass over the evidence of a value is the serial one. -/
def StatsPassAgrees (opts : Options) (validate : Bool) (nodes : List EvidenceNode) (rowEnd : Nat)
    (shapes : Shapes) (v : Value) : Prop :=
  ∀ (fuel index : Nat) (key : Bytes) (path : Path) (depth nominal : DepthState) (stats : StatsNode),
    RowSegment nodes rowEnd index (appendValue opts index key nominal v) →
    (appendValue opts index key nominal v).length ≤ fuel →
    valueHasEmptyKey opts nominal v = false →
      flattenAgrees opts shapes v path depth nominal = true →
    updateStatsNode validate nodes rowEnd shapes opts.defaultKeyName fuel index path stats =
      .ok (updateStatsValue opts shapes v path depth stats)

theorem element_conditions {v : Value} : ∀ {vs : List Value},
    elementsHaveEmptyKey opts nominal vs = false →
    elementsFlattenAgree opts shapes vs path depth nominal = true → v ∈ vs →
    valueHasEmptyKey opts (enterValueDepth nominal v) v = false ∧
      flattenAgrees opts shapes v path (enterValueDepth depth v) (enterValueDepth nominal v) = true
  | [], _, _, hv => absurd hv not_mem_nil
  | w :: vs, hkeys, hagree, hv => by
    obtain ⟨hkey, hkeys⟩ := Bool.or_eq_false_iff.mp hkeys
    obtain ⟨hflat, hagree⟩ := (Bool.and_eq_true _ _).mp hagree
    rcases mem_cons.mp hv with rfl | hv
    · exact ⟨hkey, hflat⟩
    · exact element_conditions hkeys hagree hv

theorem field_conditions {f : Bytes × Value} : ∀ {fs : List (Bytes × Value)},
    fieldsHaveEmptyKey opts nominal fs = false →
    fieldsFlattenAgree opts shapes fs path depth nominal = true → f ∈ fs →
    f.1 ≠ [] ∧ namedHasEmptyKey opts nominal f.2 = false ∧
      namedFlattenAgree opts shapes path depth nominal f = true
  | [], _, _, hf => absurd hf not_mem_nil
  | g :: fs, hkeys, hagree, hf => by
    obtain ⟨hfield, hkeys⟩ := Bool.or_eq_false_iff.mp hkeys
    obtain ⟨hkey, hbelow⟩ := Bool.or_eq_false_iff.mp hfield
    obtain ⟨hflat, hagree⟩ := (Bool.and_eq_true _ _).mp hagree
    rcases mem_cons.mp hf with rfl | hf
    · exact ⟨beq_eq_false_iff_ne.mp hkey, hbelow, hflat⟩
    · exact field_conditions hkeys hagree hf

/-- The statistics pass over a named node records what its value records. -/
theorem updateNamedStats_ok (hv : StatsPassAgrees opts validate nodes rowEnd shapes v)
    (children : List (Bytes × StatsNode))
    (h : RowSegment nodes rowEnd index (appendNamedValue opts index nominal key v))
    (hfuel : (appendNamedValue opts index nominal key v).length ≤ fuel)
    (hkeys : namedHasEmptyKey opts nominal v = false)
    (hagree : namedFlattenAgree opts shapes path depth nominal (key, v) = true) :
    updateNamedStats validate nodes rowEnd index path key
      (updateStatsNode validate nodes rowEnd shapes opts.defaultKeyName fuel index) children =
      .ok (fieldStatsStep opts shapes path depth (key, v) children) := by
  obtain ⟨node, hnode, -, -, hempty, hfull⟩ := h.named
  simp only [updateNamedStats, hnode.read, fieldStatsStep]
  show (if node.emptyContainer index = true then _ else _) = _
  rw [hempty]
  by_cases hc : v.containerIsEmpty = true
  · simp [hc]
  have hflat := hfull (by simpa using hc)
  simp only [namedFlattenAgree, namedHasEmptyKey, hc, Bool.false_or, Bool.and_eq_true, beq_iff_eq,
    Bool.not_false, Bool.true_and] at hagree hkeys
  by_cases hf : shouldFlattenNested opts nominal v = true
  · simp [hflat.mpr hf, hc, hagree.1, hf]
  · have hkind : ¬ node.kind = .flattened := fun hk => hf (hflat.mp hk)
    simp only [hf, Bool.false_or, Bool.not_false, Bool.true_and] at hagree hkeys
    simp only [appendNamedValue, hc, hf, Bool.false_eq_true, if_false] at h hfuel
    simp only [hkind, hc, hagree.1, Bool.false_eq_true, if_false]
    exact updateChildM_ok (fun child => hv fuel index key (key :: path) _ _ child h hfuel hkeys
      hagree.2) children

/-- **The statistics pass over the nodes of a value.** -/
theorem statsPassAgrees (v : Value) : StatsPassAgrees opts validate nodes rowEnd shapes v := by
  induction v with
  | array vs ih =>
    intro fuel index key path depth nominal stats h hfuel hkeys hagree
    obtain ⟨fuel, rfl⟩ := exists_fuel hfuel
    rw [updateStatsNode, (h.container (.inl rfl)).read, updateStatsValue]
    refine wrappedNode_ok (fun stats => ?_) stats
    rw [updateArrayStats, nodeLoop_elements h.tail, updateStatsElements_loop]
    · rfl
    · intro i v s hv hseg hle
      obtain ⟨node, hnode, hend, -⟩ := hseg.value
      obtain ⟨hkey, hflat⟩ := element_conditions hkeys hagree hv
      rw [hnode.read, ← hend]
      show (do let r ← updateStatsNode _ _ _ _ _ _ _ _ _; _) = _
      rw [ih v hv fuel i [] _ _ _ s hseg (hle.trans (Nat.le_of_succ_le_succ hfuel)) hkey hflat]
      rfl
  | object fs ih =>
    intro fuel index key path depth nominal stats h hfuel hkeys hagree
    obtain ⟨fuel, rfl⟩ := exists_fuel hfuel
    rw [updateStatsNode, (h.container (.inr rfl)).read, updateStatsValue]
    refine wrappedNode_ok (fun stats => ?_) stats
    rw [updateObjectStats, nodeLoop_fields h.tail, updateStatsFields_loop]
    · rfl
    · intro i k v s hv hseg hle
      obtain ⟨node, hnode, hname, hend, -⟩ := hseg.named
      obtain ⟨hk, hkey, hflat⟩ := field_conditions hkeys hagree hv
      rw [hnode.read]
      show (if validate = true ∧ node.key = [] then _ else _) = _
      rw [hname, if_neg fun hbad => hk hbad.2, updateNamedStats_ok (ih (k, v) hv) s hseg
        (hle.trans (Nat.le_of_succ_le_succ hfuel)) hkey hflat, hend]
      rfl
  | null =>
    intro fuel index key path depth nominal stats h hfuel _ _
    obtain ⟨fuel, rfl⟩ := exists_fuel hfuel
    have hnode := h.first rfl fun _ => rfl
    rw [updateStatsNode, hnode.read]
    rfl
  | bool | int | float | string =>
    intro fuel index key path depth nominal stats h hfuel _ _
    obtain ⟨fuel, rfl⟩ := exists_fuel hfuel
    have hnode := h.first rfl fun _ => rfl
    rw [updateStatsNode, hnode.read]
    exact wrappedNode_ok (fun _ => rfl) stats

/-- The statistics pass over a row's evidence records the row. -/
theorem reduceStatsRow_eq (root : List (Bytes × StatsNode))
    (h : RowSegment nodes rowEnd rowBegin (appendRow opts rowBegin row))
    (hend : rowEnd = rowBegin + (appendRow opts rowBegin row).length)
    (hkeys : fieldsHaveEmptyKey opts {} row = false)
    (hagree : fieldsFlattenAgree opts shapes row [] {} {} = true) :
    reduceStatsRow validate nodes rowBegin rowEnd shapes opts.defaultKeyName root =
      .ok (updateStatsFields opts shapes row [] {} root).1 := by
  rw [appendRow] at h hend
  subst hend
  rw [reduceStatsRow, nodeLoop_fields h, updateStatsFields_loop]
  · rfl
  · intro i k v s hv hseg hle
    obtain ⟨node, hnode, hname, hend, hempty, -⟩ := hseg.named
    obtain ⟨hk, hkey, hflat⟩ := field_conditions hkeys hagree hv
    rw [hnode.read]
    show (if validate = true ∧ node.key = [] then _ else _) = _
    rw [hname, if_neg fun hbad => hk hbad.2, hempty, hend, updateNamedStats_ok (statsPassAgrees v) s
      hseg (hle.trans (by have := h.stands.le; omega)) hkey hflat]
    by_cases hc : v.containerIsEmpty = true
    · rw [if_pos hc, fieldStatsStep, if_pos hc]
      rfl
    · rw [if_neg hc]
      rfl

end StatsPass

/-! ### One row of evidence -/

/-- **Reducing the evidence of a row against scanning the row.**  The packet
holds the nodes that the evidence builder makes for the row. -/
theorem reduceInferenceEvidenceRow_eq (opts : Options) (ctx : InferenceContext)
    (packet : EvidencePacket) (rowBegin : Nat) (row : Row)
    (h : SegmentAt packet.nodes rowBegin (appendRow opts rowBegin row)) :
    (fieldsHaveEmptyKey opts {} row = true →
      ∃ message, reduceInferenceEvidenceRow opts ctx packet rowBegin
        (rowBegin + (appendRow opts rowBegin row).length) = .error message) ∧
    (fieldsHaveEmptyKey opts {} row = false →
      fieldsFlattenAgree opts (scanShapesRow opts ctx.shapes row) row [] {} {} = true →
      reduceInferenceEvidenceRow opts ctx packet rowBegin
        (rowBegin + (appendRow opts rowBegin row).length) = .ok (scanRow opts ctx row)) := by
  have hargs : ¬ (rowBegin + (appendRow opts rowBegin row).length < rowBegin ∨
      packet.nodes.length < rowBegin + (appendRow opts rowBegin row).length) := by
    have := h.le
    omega
  have hrow : RowSegment packet.nodes _ rowBegin (appendRow opts rowBegin row) := ⟨h, le_rfl, h.le⟩
  obtain ⟨hshapes, hfails⟩ := reduceShapeRow_eq ctx.shapes hrow rfl
  rw [reduceInferenceEvidenceRow, if_neg hargs]
  refine ⟨fun hbad => ?_, fun hkeys hagree => ?_⟩
  · obtain ⟨message, hmessage⟩ := hfails hbad
    rw [hmessage]
    exact ⟨message, rfl⟩
  · rw [hshapes hkeys]
    show (do let root ← reduceStatsRow _ _ _ _ _ _ _; _) = _
    rw [reduceStatsRow_eq ctx.root hrow rfl hkeys hagree]
    rfl

/-- The evidence of one row, alone in its packet. -/
def rowPacket (opts : Options) (row : Row) : EvidencePacket := ⟨appendRow opts 0 row, false⟩

/-- A row with an array of objects and a null, after a row in which the array
was a scalar. -/
theorem reduceInferenceEvidenceRow_eq_sample :
    reduceInferenceEvidenceRow (textOptions 4 4)
      (scanRow (textOptions 4 4) {} [(bytes "a", .int 5)])
      (rowPacket (textOptions 4 4)
        [(bytes "a", .array [.object [(bytes "b", .int 1)]]), (bytes "c", .null)]) 0 4 =
      .ok (scanRow (textOptions 4 4) (scanRow (textOptions 4 4) {} [(bytes "a", .int 5)])
        [(bytes "a", .array [.object [(bytes "b", .int 1)]]), (bytes "c", .null)]) :=
  (reduceInferenceEvidenceRow_eq (textOptions 4 4)
    (scanRow (textOptions 4 4) {} [(bytes "a", .int 5)]) (rowPacket (textOptions 4 4) _) 0
    [(bytes "a", .array [.object [(bytes "b", .int 1)]]), (bytes "c", .null)]
    ⟨[], [], rfl, rfl⟩).2 (by decide) (by decide +kernel)

/-- A field with the empty key: the serial scan infers a column from it, the
reduction of its evidence fails. -/
theorem reduce_empty_key :
    reduceInferenceEvidenceRow (textOptions 4 4) {}
    (rowPacket (textOptions 4 4) [([], .int 1)]) 0 1 =
      .error (bytes "parallel inference root evidence is missing a field key") ∧
    (inferRows (textOptions 4 4) [[([], .int 1)]]).fields.length = 1 :=
  ⟨rfl, by decide +kernel⟩

end SchemaSanitizer
