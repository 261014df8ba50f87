/-
SchemaSanitizer/ParquetReader.lean

The reader of a Parquet file finds the columns that the writer has announced.

The writer computes the levels of its leaf columns along the tree of nodes
(`analyzeSchema`).  The reader has the schema elements of the footer only, the tree in
preorder with the number of children of each group, and goes over them with an explicit
stack (`schema_leaf_levels`, `footer_reader_schema.cc.inc`).

`Walks es n place keys` says what the loop does with the elements `es` of `n` subtrees,
whatever comes after them.  Its rules put subtrees together, so that the proof for the
elements of a node follows the node.  Only maps need care: the struct of their entries has
no element of its own, so it must not have a level of its own either, and
`map_node_from_field` sees to that.
-/
import SchemaSanitizer.ParquetNames

namespace SchemaSanitizer.Parquet

open List Lib

/-! ### The reader -/

/-- One entry of `path`, `path_definition_levels` and `path_repetition_levels`, which grow
and shrink together. -/
structure PathStep where
  name : Bytes
  definitionLevel : Nat
  repetitionLevel : Nat
  deriving DecidableEq, Repr

/-- `LeafLevelInfo`. -/
structure LeafLevelInfo where
  path : List PathStep
  maxDefinitionLevel : Nat
  maxRepetitionLevel : Nat
  topLevelRequired : Bool
  fixedTypeLength : Int
  nativeArrowFormat : Bytes
  deriving DecidableEq, Repr

/-- `SchemaTraversalFrame`. -/
structure SchemaTraversalFrame where
  remainingChildren : Nat
  pathSize : Nat := 0
  definitionLevel : Nat := 0
  repetitionLevel : Nat := 0
  topLevelRequired : Bool := true

/-- `Status::Invalid` of the reader of levels. -/
def levelsError {α : Type} (message : String) : Result α :=
  .error ⟨.invalid, bytes "Parquet schema levels: " ++ bytes message⟩

/-- The lambda `child_count`. -/
def SchemaElement.childCount (element : SchemaElement) : Nat := element.numChildren.getD 0

/-- The local `repetition`; the root has none. -/
def SchemaElement.repetition (element : SchemaElement) : Nat :=
  match element.repetitionType with
  | some .optional => 1
  | some .repeated => 2
  | _ => 0

/-- The frame of an element below `parent`, and its path. -/
def SchemaTraversalFrame.enter (parent : SchemaTraversalFrame) (element : SchemaElement)
    (path : List PathStep) : SchemaTraversalFrame × List PathStep :=
  let definition := parent.definitionLevel +
    if element.repetition = 1 ∨ element.repetition = 2 then 1 else 0
  let repetition := parent.repetitionLevel + if element.repetition = 2 then 1 else 0
  let path := path ++ [⟨element.name, definition, repetition⟩]
  ({ remainingChildren := element.childCount
     pathSize := path.length
     definitionLevel := definition
     repetitionLevel := repetition
     topLevelRequired :=
       if path.length = 1 then element.repetition == 0 else parent.topLevelRequired }, path)

/-- The inner loop: frames without remaining children are popped, and the path goes back
to that of the frame below. -/
def popFinished : List SchemaTraversalFrame → List PathStep →
    List SchemaTraversalFrame × List PathStep
  | [], path => ([], path)
  | frame :: pending, path =>
    if frame.remainingChildren = 0 then
      popFinished pending
        (path.take ((pending.head?.map SchemaTraversalFrame.pathSize).getD path.length))
    else (frame :: pending, path)

section Reader

variable (format : SchemaElement → Bytes)

/-- The lambda `append_leaf`: what it appends.  `format` is `arrow_format_for_leaf`. -/
def appendLeaf (element : SchemaElement) (entered : SchemaTraversalFrame × List PathStep) :
    List LeafLevelInfo :=
  if element.physicalType = none then []
  else
    [{ path := entered.2
       maxDefinitionLevel := entered.1.definitionLevel
       maxRepetitionLevel := entered.1.repetitionLevel
       topLevelRequired := entered.1.topLevelRequired
       fixedTypeLength := element.typeLength.getD 0
       nativeArrowFormat := format element }]

/-- The loop of `schema_leaf_levels`: what it appends from a state on. -/
def levelsLoop : List SchemaElement → List SchemaTraversalFrame → List PathStep →
    Result (List LeafLevelInfo)
  | [], pending, path =>
    if (popFinished pending path).1 = [] then .ok [] else levelsError "truncated schema tree"
  | element :: elements, pending, path =>
    match popFinished pending path with
    | ([], _) => levelsError "trailing schema elements"
    | (parent :: pending, path) =>
      let parent := { parent with remainingChildren := parent.remainingChildren - 1 }
      let entered := parent.enter element path
      if element.childCount = 0 then do
        let leaves ← levelsLoop elements (parent :: pending) (entered.2.take parent.pathSize)
        .ok (appendLeaf format element entered ++ leaves)
      else levelsLoop elements (entered.1 :: parent :: pending) entered.2

/-- `schema_leaf_levels`. -/
def schemaLeafLevels : List SchemaElement → Result (List LeafLevelInfo)
  | [] => .ok []
  | root :: elements =>
    let frame : SchemaTraversalFrame := { remainingChildren := root.childCount }
    if root.childCount = 0 then
      if elements = [] then .ok (appendLeaf format root (frame, []))
      else levelsError "trailing schema elements"
    else levelsLoop format elements [frame] []

end Reader

/-! ### What the loop does with a subtree -/

/-- The path and the levels of a column. -/
abbrev ColumnKey := List Bytes × Nat × Nat

/-- The key of a column that the reader has found. -/
def LeafLevelInfo.key (leaf : LeafLevelInfo) : ColumnKey :=
  (leaf.path.map PathStep.name, leaf.maxDefinitionLevel, leaf.maxRepetitionLevel)

/-- The key of a column that the writer announces. -/
def LeafColumn.key (column : LeafColumn) : ColumnKey :=
  (column.path, column.maxDefinitionLevel, column.maxRepetitionLevel)

/-- The frame when it waits for `n` children. -/
def SchemaTraversalFrame.awaiting (frame : SchemaTraversalFrame) (n : Nat) : SchemaTraversalFrame :=
  { frame with remainingChildren := n }

/-- A frame and its path. -/
abbrev Place := SchemaTraversalFrame × List PathStep

variable (format : SchemaElement → Bytes) {frame : SchemaTraversalFrame} {path : List PathStep}

/-- The elements `es` are `n` subtrees below a frame and its path, with the columns `keys`. -/
def Walks (es : List SchemaElement) (n : Nat) (place : Place) (keys : List ColumnKey) : Prop :=
  ∃ leaves : List LeafLevelInfo, leaves.map LeafLevelInfo.key = keys ∧ ∀ k rest pending,
    levelsLoop format (es ++ rest) (place.1.awaiting (n + k) :: pending) place.2 =
      levelsLoop format rest (place.1.awaiting k :: pending) place.2 >>= fun more =>
        .ok (leaves ++ more)

variable {format} {place : Place}

/-- The loop only looks at what is left after popping. -/
theorem levelsLoop_congr {pending pending' : List SchemaTraversalFrame} {path' : List PathStep}
    (h : popFinished pending path = popFinished pending' path') (es : List SchemaElement) :
    levelsLoop format es pending path = levelsLoop format es pending' path' := by
  cases es with
  | nil => rw [levelsLoop, levelsLoop, h]
  | cons e es => rw [levelsLoop, levelsLoop, h]

/-- One round, with a frame that waits for a child. -/
theorem levelsLoop_cons (e : SchemaElement) (es : List SchemaElement) (k : Nat)
    (pending : List SchemaTraversalFrame) :
    levelsLoop format (e :: es) (frame.awaiting (1 + k) :: pending) path =
      if e.childCount = 0 then
        levelsLoop format es (frame.awaiting k :: pending)
          ((frame.enter e path).2.take frame.pathSize) >>= fun leaves =>
            .ok (appendLeaf format e (frame.enter e path) ++ leaves)
      else
        levelsLoop format es ((frame.enter e path).1 :: frame.awaiting k :: pending)
          (frame.enter e path).2 := by
  have hpop : popFinished (frame.awaiting (1 + k) :: pending) path
      = (frame.awaiting (1 + k) :: pending, path) :=
    if_neg (show ¬ 1 + k = 0 by omega)
  have hrest : 1 + k - 1 = k := Nat.add_sub_cancel_left 1 k
  rw [levelsLoop, hpop]
  dsimp only [SchemaTraversalFrame.awaiting]
  rw [hrest]
  rfl

theorem Walks.nil : Walks format [] 0 place [] := by
  refine ⟨[], rfl, fun k rest pending => ?_⟩
  rw [Nat.zero_add]
  exact (bind_pure _).symm

theorem Walks.append {es es' : List SchemaElement} {n n' : Nat} {keys keys' : List ColumnKey}
    (h : Walks format es n place keys) (h' : Walks format es' n' place keys') :
    Walks format (es ++ es') (n + n') place (keys ++ keys') := by
  obtain ⟨leaves, rfl, hloop⟩ := h
  obtain ⟨leaves', rfl, hloop'⟩ := h'
  refine ⟨leaves ++ leaves', map_append, fun k rest pending => ?_⟩
  rw [append_assoc, Nat.add_assoc, hloop, hloop', bind_assoc]
  simp only [ok_bind, append_assoc]

section Element

variable {e : SchemaElement} (hpath : place.2.length = place.1.pathSize)

include hpath

/-- After an element the path goes back to that of its frame. -/
theorem take_enter : (place.1.enter e place.2).2.take place.1.pathSize = place.2 := by
  rw [← hpath]
  exact take_left

theorem Walks.leaf (he : e.childCount = 0) :
    Walks format [e] 1 place
      ((appendLeaf format e (place.1.enter e place.2)).map LeafLevelInfo.key) := by
  refine ⟨_, rfl, fun k rest pending => ?_⟩
  rw [singleton_append, levelsLoop_cons, if_pos he, take_enter hpath]

/-- A group and the subtrees below it.  Without children it is passed over like a leaf. -/
theorem Walks.group {es : List SchemaElement} {keys : List ColumnKey}
    (he : e.physicalType = none) (hempty : e.childCount = 0 → es = [])
    (h : Walks format es e.childCount (place.1.enter e place.2) keys) :
    Walks format (e :: es) 1 place keys := by
  obtain ⟨leaves, rfl, hloop⟩ := h
  by_cases hcount : e.childCount = 0
  · obtain rfl := hempty hcount
    have hnone := hloop 0 [] []
    rw [hcount] at hnone
    obtain rfl : [] = leaves := (Except.ok.inj hnone).trans (append_nil leaves)
    have hleaf := @Walks.leaf format _ _ hpath hcount
    rwa [appendLeaf, if_pos he] at hleaf
  · refine ⟨leaves, rfl, fun k rest pending => ?_⟩
    rw [cons_append, levelsLoop_cons, if_neg hcount]
    refine (hloop 0 rest (place.1.awaiting k :: pending)).trans ?_
    -- the frame of the group is finished, and the next round pops it
    have hpop : popFinished ((place.1.enter e place.2).1.awaiting 0 ::
      place.1.awaiting k :: pending)
        (place.1.enter e place.2).2 = popFinished (place.1.awaiting k :: pending) place.2 :=
      (if_pos rfl).trans (congrArg _ (take_enter hpath))
    rw [levelsLoop_congr hpop]

end Element

/-! ### The elements of the writer -/

variable {names : List Bytes} {d r : Nat}

/-- A frame and its path stand at these names and levels. -/
structure StandsAt (place : Place) (names : List Bytes) (d r : Nat) : Prop where
  size : place.2.length = place.1.pathSize
  names : place.2.map PathStep.name = names
  definition : place.1.definitionLevel = d
  repetition : place.1.repetitionLevel = r

theorem StandsAt.enter (h : StandsAt place names d r) (e : SchemaElement) {d' r' : Nat}
    (hd : (d + if e.repetition = 1 ∨ e.repetition = 2 then 1 else 0) = d')
    (hr : (r + if e.repetition = 2 then 1 else 0) = r') :
    StandsAt (place.1.enter e place.2) (names ++ [e.name]) d' r' where
  size := rfl
  names := by
    rw [← h.names]
    exact map_append
  definition := by rw [← hd, ← h.definition]; rfl
  repetition := by rw [← hr, ← h.repetition]; rfl

/-- An element that is required or optional. -/
theorem StandsAt.enter_own (h : StandsAt place names d r) {required : Bool} {e : SchemaElement}
    (he : e.repetitionType = some (repetitionOf required)) :
    StandsAt (place.1.enter e place.2) (names ++ [e.name]) (d + optionalLevel required) r := by
  refine h.enter e (congrArg _ ?_) ?_
  all_goals
    rw [SchemaElement.repetition, he]
    cases required <;> rfl

/-- The elements of a node are read as its columns, wherever the node stands. -/
def ReadBack (format : SchemaElement → Bytes) (node : ParquetNode) : Prop :=
  ∀ place names d r first, StandsAt place names d r →
    let visit := analyzeNode node (names ++ [node.info.name]) d r first
    Walks format (writeSchemaElements visit.1) 1 place (visit.2.map LeafColumn.key)

theorem readBack_children {nodes : List ParquetNode} (hnodes : ∀ node ∈ nodes, ReadBack format node)
    (h : StandsAt place names d r) (first : Nat) :
    let visits := analyzeChildren nodes names d r first
    Walks format (schemaElementsOfAll visits.1) visits.1.length place
      (visits.2.map LeafColumn.key) := by
  induction nodes generalizing first with
  | nil => exact .nil
  | cons node nodes ih =>
    rw [forall_mem_cons] at hnodes
    have hall := (hnodes.1 _ _ _ _ first h).append (ih hnodes.2 (first +
      (analyzeNode node (names ++ [node.info.name]) d r first).2.length))
    rw [Nat.add_comm 1, ← map_append] at hall
    exact hall

theorem schemaElementsOfAll_of_length {nodes : List ParquetNode} (h : nodes.length = 0) :
    schemaElementsOfAll nodes = [] := by
  rw [length_eq_zero_iff.mp h]
  rfl

theorem ReadBack.primitive (info : NodeInfo) (leaf : LeafInfo) :
    ReadBack format (.primitive info leaf) := by
  intro place names d r first h
  have hat : StandsAt _ (names ++ [info.name]) _ _ :=
    h.enter_own (show (primitiveSchemaElement info leaf).repetitionType = _ from rfl)
  obtain ⟨leaves, hkeys, hloop⟩ :=
    @Walks.leaf format _ (primitiveSchemaElement info leaf) h.size rfl
  have hkey : (_, _, _) = (_, _, _) := congr (congrArg Prod.mk hat.names)
    (congr (congrArg Prod.mk hat.definition) hat.repetition)
  exact ⟨leaves, hkeys.trans (congrArg (fun key => [key]) hkey), hloop⟩

theorem ReadBack.group (isRoot : Bool) (info : NodeInfo) {children : List ParquetNode}
    (hchildren : ∀ child ∈ children, ReadBack format child) :
    ReadBack format (.group isRoot info children) := by
  intro place names d r first h
  have hat : StandsAt _ (names ++ [info.name]) (d + groupLevel isRoot info) r :=
    h.enter (ownSchemaElement (analyzeNode (.group isRoot info children)
      (names ++ [info.name]) d r first).1)
      (by obtain ⟨_, required⟩ := info; cases isRoot <;> cases required <;> rfl)
      (by obtain ⟨_, required⟩ := info; cases isRoot <;> cases required <;> rfl)
  exact .group h.size rfl schemaElementsOfAll_of_length (readBack_children hchildren hat first)

theorem ReadBack.list (info : NodeInfo) (kind : JsonlKind) (size : Int) (level : Nat)
    {element : ParquetNode} (helement : ReadBack format element) :
    ReadBack format (.list info kind size level element) := by
  intro place names d r first h
  have hat : StandsAt _ (names ++ [info.name]) _ _ := h.enter_own
    (show (ownSchemaElement (.list info kind size level element)).repetitionType = _ from rfl)
  have hwalks := helement _ _ _ _ first (hat.enter (repeatedSchemaElement "list" 1) rfl rfl)
  rw [append_assoc] at hwalks
  exact .group h.size rfl (fun hcount => absurd hcount Nat.one_ne_zero)
    (.group hat.size rfl (fun hcount => absurd hcount Nat.one_ne_zero) hwalks)

/-- A map whose entries have no level of their own. -/
theorem ReadBack.map (info : NodeInfo) (level : Nat) {isRoot : Bool} {entry : NodeInfo}
    {children : List ParquetNode} (hentry : groupLevel isRoot entry = 0)
    (hchildren : ∀ child ∈ children, ReadBack format child) :
    ReadBack format (.map info level (.group isRoot entry children)) := by
  intro place names d r first h
  have hat : StandsAt _ (names ++ [info.name]) _ _ := h.enter_own
    (show (ownSchemaElement (.map info level (.group isRoot entry children))).repetitionType = _
      from rfl)
  have hentries : StandsAt _ (names ++ [info.name] ++ [bytes "key_value"])
      (d + optionalLevel info.required + 1 + groupLevel isRoot entry) (r + 1) :=
    hat.enter (repeatedSchemaElement "key_value"
      (analyzeNode (.group isRoot entry children) (names ++ [info.name] ++ [bytes "key_value"])
        (d + optionalLevel info.required + 1) (r + 1) first).1.children.length)
      (by rw [hentry]; rfl) rfl
  exact .group h.size rfl (fun hcount => absurd hcount Nat.one_ne_zero)
    (.group hat.size rfl schemaElementsOfAll_of_length (readBack_children hchildren hentries first))

/-! ### Every accepted schema -/

theorem ReadBack.of_isLeaf {node : ParquetNode} (h : node.isLeaf = true) :
    ReadBack format node := by
  cases node with
  | primitive => exact .primitive _ _
  | group | list | map => cases h

mutual

/-- **The elements of every node that `node_from_field` builds are read as its columns.** -/
theorem readBack_nodeFromField : ∀ (f : JsonlField) (name : Bytes) {node : ParquetNode},
    nodeFromField f name = .ok node → ReadBack format node
  | .mk field children, name, node, h => by
    have hleaf := nodeFromField_isLeaf h
    rw [nodeFromField.eq_def] at h
    unfold JsonlKind.isNested JsonlField.info at hleaf
    dsimp only at h hleaf
    cases hshape : field.kind.shape with
    | dictionary | primitive =>
      rw [hshape] at hleaf
      exact .of_isLeaf hleaf
    | struct =>
      simp only [hshape] at h
      obtain ⟨nodes, hnodes, hnode⟩ := bind_eq_ok_iff.mp h
      cases hnode
      exact .group _ _ (readBack_nodesFromFields children hnodes)
    | list =>
      simp only [hshape] at h
      split at h
      · obtain ⟨element, helement, hnode⟩ := bind_eq_ok_iff.mp h
        cases hnode
        exact .list _ _ _ _ (readBack_nodeFromField _ _ helement)
      · cases h
    | map =>
      simp only [hshape] at h
      split at h
      · split at h
        · cases h
        split at h
        · cases h
        rename_i hkind
        obtain ⟨keyNode, hkey, h⟩ := bind_eq_ok_iff.mp h
        obtain ⟨valueNode, hvalue, hnode⟩ := bind_eq_ok_iff.mp h
        cases hnode
        -- a key is a leaf, and stays one when it is made required
        have hkeyLeaf : keyNode.setRequired.isLeaf = true := by
          have hleaf := nodeFromField_isLeaf hkey
          rw [eq_false_of_ne_true hkind] at hleaf
          cases keyNode with
          | primitive => rfl
          | group | list | map => cases hleaf
        exact .map _ _ rfl (forall_mem_cons.mpr ⟨.of_isLeaf hkeyLeaf,
          forall_mem_singleton.mpr (readBack_nodeFromField _ _ hvalue)⟩)
      · cases h

theorem readBack_nodesFromFields : ∀ (fs : List JsonlField) {nodes : List ParquetNode},
    nodesFromFields fs = .ok nodes → ∀ node ∈ nodes, ReadBack format node
  | [], _, h => by
    cases h
    exact forall_mem_nil _
  | f :: fs, _, h => by
    obtain ⟨node, hnode, h⟩ := bind_eq_ok_iff.mp h
    obtain ⟨nodes, hnodes, h⟩ := bind_eq_ok_iff.mp h
    cases h
    exact forall_mem_cons.mpr
      ⟨readBack_nodeFromField f _ hnode, readBack_nodesFromFields fs hnodes⟩

end

/-- The elements of a footer: that of the root, and the subtrees below it. -/
theorem Walks.schemaLeafLevels {e : SchemaElement} {es : List SchemaElement} {keys : List ColumnKey}
    (he : e.physicalType = none) (hempty : e.childCount = 0 → es = [])
    (h : Walks format es e.childCount ({ remainingChildren := e.childCount }, []) keys) :
    ∃ leaves, schemaLeafLevels format (e :: es) = .ok leaves ∧
      leaves.map LeafLevelInfo.key = keys := by
  obtain ⟨leaves, hkeys, hloop⟩ := h
  refine ⟨leaves, ?_, hkeys⟩
  have hrun := hloop 0 [] []
  rw [append_nil] at hrun
  replace hrun := hrun.trans (congrArg Except.ok (append_nil leaves))
  by_cases hcount : e.childCount = 0
  · obtain rfl := hempty hcount
    rw [hcount] at hrun
    rw [Parquet.schemaLeafLevels, if_pos hcount, if_pos rfl, appendLeaf, if_pos he]
    exact hrun
  · rw [Parquet.schemaLeafLevels, if_neg hcount]
    exact hrun

/-- **The reader finds the columns of the writer.**  From the schema elements of every schema
that the writer accepts, `schema_leaf_levels` computes the leaf columns of `analyze_schema`, in
their order, with their paths and their levels. -/
theorem schemaLeafLevels_analyzeSchema (format : SchemaElement → Bytes) {f : JsonlField}
    {root : ParquetNode} (h : parseSupportedRootSchema f = .ok root) :
    ∃ leaves, schemaLeafLevels format (writeSchemaElements (analyzeSchema root).1) = .ok leaves ∧
      leaves.map LeafLevelInfo.key = (analyzeSchema root).2.map LeafColumn.key := by
  obtain ⟨field, children⟩ := f
  unfold parseSupportedRootSchema at h
  split at h
  case isFalse => cases h
  rename_i hkind
  have hshape : field.kind.shape = .struct := congrArg JsonlKind.shape hkind
  rw [nodeFromField.eq_def] at h
  simp only [hshape] at h
  obtain ⟨nodes, hnodes, hroot⟩ := bind_eq_ok_iff.mp h
  cases hroot
  have hat (n : Nat) : StandsAt ({ remainingChildren := n }, []) [] 0 0 := ⟨rfl, rfl, rfl, rfl⟩
  exact Walks.schemaLeafLevels rfl schemaElementsOfAll_of_length
    (readBack_children (readBack_nodesFromFields children hnodes) (hat _) 0)

theorem schemaLeafLevels_analyzeSchema_struct :
    ∃ root, parseSupportedRootSchema (structFieldSchema (bytes "x")) = .ok root ∧
      ∃ leaves, schemaLeafLevels (fun _ => []) (writeSchemaElements (analyzeSchema root).1)
          = .ok leaves ∧
        leaves.map LeafLevelInfo.key = (analyzeSchema root).2.map LeafColumn.key :=
  ⟨_, rfl, schemaLeafLevels_analyzeSchema (f := structFieldSchema (bytes "x")) _ rfl⟩

end SchemaSanitizer.Parquet
