/-
SchemaSanitizer/ParquetNames.lean

What the names of the fields decide in the native Parquet writer.

Two schemas that differ in their names only (`f.unnamed = g.unnamed`) are
accepted together.  Everything the writer derives from the nodes is a function
of the nodes without their names: the levels (`analyzeNode_unnamed`), the schema
elements (`schemaElementsBelow_unnamed`) and the pages (`collectNodeForLeaf_unnamed`).
So the names can only matter where the nodes are built, and there they do: a
struct below the root that is called `schema` becomes a second root.
-/
import SchemaSanitizer.ParquetCollect

namespace SchemaSanitizer.Parquet

open List

open SchemaSanitizer.Lib (Together Fails)

/-! ### Fields and nodes without names -/

/-- The members of a field without its name. -/
def FieldInfo.unnamed (info : FieldInfo) : FieldInfo := { info with name := [] }

mutual

/-- A field without any name. -/
def JsonlField.unnamed : JsonlField → JsonlField
  | .mk info children => .mk info.unnamed (unnamedFields children)

/-- Fields without any name. -/
def unnamedFields : List JsonlField → List JsonlField
  | [] => []
  | field :: fields => field.unnamed :: unnamedFields fields

end

/-- The members of a node without its name. -/
def NodeInfo.unnamed (info : NodeInfo) : NodeInfo := { info with name := [] }

mutual

/-- A node without any name. -/
def ParquetNode.unnamed : ParquetNode → ParquetNode
  | .group isRoot info children => .group isRoot info.unnamed (unnamedNodes children)
  | .list info kind size level element => .list info.unnamed kind size level element.unnamed
  | .map info level element => .map info.unnamed level element.unnamed
  | .primitive info leaf => .primitive info.unnamed leaf

/-- Nodes without any name. -/
def unnamedNodes : List ParquetNode → List ParquetNode
  | [] => []
  | node :: nodes => node.unnamed :: unnamedNodes nodes

end

/-- A column without its names. -/
def LeafColumn.unnamed (column : LeafColumn) : LeafColumn :=
  { column with info := column.info.unnamed, path := [] }

/-- A schema element without its name. -/
def SchemaElement.unnamed (element : SchemaElement) : SchemaElement := { element with name := [] }

variable (node : ParquetNode)

@[simp] theorem ParquetNode.info_unnamed : node.unnamed.info = node.info.unnamed := by
  cases node <;> rfl

theorem unnamedNodes_eq_map : ∀ nodes : List ParquetNode,
    unnamedNodes nodes = nodes.map ParquetNode.unnamed
  | [] => rfl
  | node :: nodes => by rw [unnamedNodes, unnamedNodes_eq_map nodes, map_cons]

@[simp] theorem length_unnamedNodes (nodes : List ParquetNode) :
    (unnamedNodes nodes).length = nodes.length := by
  rw [unnamedNodes_eq_map, length_map]

/-! ### Levels -/

theorem NodeInfo.analyzed_unnamed (info : NodeInfo) (first elements : Nat)
    {columns columns' : List LeafColumn}
    (h : columns'.map LeafColumn.unnamed = columns.map LeafColumn.unnamed) :
    info.unnamed.analyzed first columns' elements
      = (info.analyzed first columns elements).unnamed := by
  have hlength : columns'.length = columns.length := by
    simpa using congrArg length h
  simp only [NodeInfo.analyzed, NodeInfo.unnamed, hlength]

mutual

/-- Levels and leaf order depend on no name. -/
theorem analyzeNode_unnamed : ∀ (node : ParquetNode) (path path' : List Bytes)
    (definition repetition first : Nat),
    (analyzeNode node.unnamed path' definition repetition first).1
        = (analyzeNode node path definition repetition first).1.unnamed ∧
      (analyzeNode node.unnamed path' definition repetition first).2.map LeafColumn.unnamed
        = (analyzeNode node path definition repetition first).2.map LeafColumn.unnamed
  | .primitive info leaf, path, path', definition, repetition, first => ⟨rfl, rfl⟩
  | .group isRoot info children, path, path', definition, repetition, first => by
    obtain ⟨hnodes, hcolumns⟩ := analyzeChildren_unnamed children path path'
      (definition + groupLevel isRoot info) repetition first
    refine ⟨?_, hcolumns⟩
    simp only [ParquetNode.unnamed, analyzeNode]
    rw [show groupLevel isRoot info.unnamed = groupLevel isRoot info from rfl, hnodes,
      NodeInfo.analyzed_unnamed info _ _ hcolumns, unnamedNodes_eq_map, map_map]
    simp only [Function.comp_def, ParquetNode.info_unnamed, NodeInfo.unnamed]
  | .list info kind size level element, path, path', definition, repetition, first => by
    obtain ⟨hnode, hcolumns⟩ := analyzeNode_unnamed element
      (path ++ [bytes "list", element.info.name])
      (path' ++ [bytes "list", element.unnamed.info.name])
      (definition + optionalLevel info.required + 1) (repetition + 1) first
    refine ⟨?_, hcolumns⟩
    simp only [ParquetNode.unnamed, analyzeNode]
    rw [show optionalLevel info.unnamed.required = optionalLevel info.required from rfl, hnode,
      NodeInfo.analyzed_unnamed info _ _ hcolumns, ParquetNode.info_unnamed]
    rfl
  | .map info level element, path, path', definition, repetition, first => by
    obtain ⟨hnode, hcolumns⟩ := analyzeNode_unnamed element
      (path ++ [bytes "key_value"]) (path' ++ [bytes "key_value"])
      (definition + optionalLevel info.required + 1) (repetition + 1) first
    refine ⟨?_, hcolumns⟩
    simp only [ParquetNode.unnamed, analyzeNode]
    rw [show optionalLevel info.unnamed.required = optionalLevel info.required from rfl, hnode,
      NodeInfo.analyzed_unnamed info _ _ hcolumns, ParquetNode.info_unnamed]
    rfl

theorem analyzeChildren_unnamed : ∀ (nodes : List ParquetNode) (path path' : List Bytes)
    (definition repetition first : Nat),
    (analyzeChildren (unnamedNodes nodes) path' definition repetition first).1
        = unnamedNodes (analyzeChildren nodes path definition repetition first).1 ∧
      (analyzeChildren (unnamedNodes nodes) path' definition repetition first).2.map
      LeafColumn.unnamed
        = (analyzeChildren nodes path definition repetition first).2.map LeafColumn.unnamed
  | [], path, path', definition, repetition, first => ⟨rfl, rfl⟩
  | node :: nodes, path, path', definition, repetition, first => by
    obtain ⟨hnode, hcolumns⟩ := analyzeNode_unnamed node (path ++ [node.info.name])
      (path' ++ [node.unnamed.info.name]) definition repetition first
    have hlength : (analyzeNode node.unnamed (path' ++ [node.unnamed.info.name]) definition
        repetition first).2.length
          = (analyzeNode node (path ++ [node.info.name]) definition repetition first).2.length := by
      simpa using congrArg length hcolumns
    obtain ⟨hnodes, hrest⟩ := analyzeChildren_unnamed nodes path path' definition repetition
      (first + (analyzeNode node (path ++ [node.info.name]) definition repetition first).2.length)
    simp only [unnamedNodes, analyzeChildren, hlength, hnode, hnodes, map_append, hcolumns,
      hrest, and_self]

end

/-! ### Schema elements -/

theorem ownSchemaElement_unnamed :
    (ownSchemaElement node.unnamed).unnamed = (ownSchemaElement node).unnamed := by
  cases node with
  | group isRoot info children =>
    simp only [ParquetNode.unnamed, ownSchemaElement, length_unnamedNodes, NodeInfo.unnamed,
      SchemaElement.unnamed]
  | list | map | primitive => rfl

theorem ParquetNode.length_children_unnamed :
    node.unnamed.children.length = node.children.length := by
  cases node with
  | group isRoot info children => exact length_unnamedNodes children
  | list | map | primitive => rfl

mutual

theorem schemaElementsBelow_unnamed : ∀ node : ParquetNode,
    (schemaElementsBelow node.unnamed).map SchemaElement.unnamed
      = (schemaElementsBelow node).map SchemaElement.unnamed
  | .primitive info leaf => rfl
  | .group isRoot info children => schemaElementsOfAll_unnamed children
  | .list info kind size level element => by
    simp only [ParquetNode.unnamed, schemaElementsBelow, map_cons,
      ownSchemaElement_unnamed element, schemaElementsBelow_unnamed element]
  | .map info level element => by
    simp only [ParquetNode.unnamed, schemaElementsBelow, map_cons,
      ParquetNode.length_children_unnamed, schemaElementsBelow_unnamed element]

theorem schemaElementsOfAll_unnamed : ∀ nodes : List ParquetNode,
    (schemaElementsOfAll (unnamedNodes nodes)).map SchemaElement.unnamed
      = (schemaElementsOfAll nodes).map SchemaElement.unnamed
  | [] => rfl
  | node :: nodes => by
    simp only [unnamedNodes, schemaElementsOfAll, map_cons, map_append,
      ownSchemaElement_unnamed node, schemaElementsBelow_unnamed node,
      schemaElementsOfAll_unnamed nodes]

end

theorem writeSchemaElements_unnamed :
    (writeSchemaElements node.unnamed).map SchemaElement.unnamed
      = (writeSchemaElements node).map SchemaElement.unnamed := by
  simp only [writeSchemaElements, map_cons, ownSchemaElement_unnamed,
    schemaElementsBelow_unnamed]

/-! ### Pages -/

mutual

theorem collectNodeForLeaf_unnamed : ∀ node : ParquetNode,
    collectNodeForLeaf node.unnamed = collectNodeForLeaf node
  | .primitive info leaf => rfl
  | .group isRoot info children => by
    funext array row targetLeaf definition repetition
    simp only [ParquetNode.unnamed, collectNodeForLeaf, collectChild_unnamed children]
    rfl
  | .list info kind size level element => by
    funext array row targetLeaf definition repetition
    simp only [ParquetNode.unnamed, collectNodeForLeaf, collectNodeForLeaf_unnamed element]
    rfl
  | .map info level element => by
    funext array row targetLeaf definition repetition
    simp only [ParquetNode.unnamed, collectNodeForLeaf, collectNodeForLeaf_unnamed element]
    rfl

theorem collectChild_unnamed : ∀ nodes : List ParquetNode,
    collectChild (unnamedNodes nodes) = collectChild nodes
  | [] => rfl
  | node :: nodes => by
    funext isRoot arrays row targetLeaf definition repetition
    simp only [unnamedNodes, collectChild, collectChild_unnamed nodes,
      collectNodeForLeaf_unnamed node, ParquetNode.info_unnamed]
    rfl

end

theorem collectColumnPageData_unnamed (root : ParquetNode) :
    collectColumnPageData root.unnamed = collectColumnPageData root := by
  funext leaf array rowOffset rowCount leafIndex
  simp only [collectColumnPageData, collectNodeForLeaf_unnamed]

/-! ### Building the nodes -/

mutual

/-- Every struct whose name the writer reads is called `schema` on both sides or on
neither.  The writer names the parts of a map itself, and a dictionary has no struct
below it. -/
def SameSchemaNames : JsonlField → Bytes → JsonlField → Bytes → Prop
  | .mk field children, name, .mk _ children', name' =>
    match field.kind.shape with
    | .struct => (name = rootName ↔ name' = rootName) ∧ SameSchemaNamesAll children children'
    | .list =>
      match children, children' with
      | [value], [value'] => SameSchemaNames value value.info.name value' value'.info.name
      | _, _ => True
    | .map =>
      match children, children' with
      | [.mk _ [_, value]], [.mk _ [_, value']] =>
        SameSchemaNames value (bytes "value") value' (bytes "value")
      | _, _ => True
    | .dictionary => True
    | .primitive => True

/-- The same for the children of a struct, which are read under their own names. -/
def SameSchemaNamesAll : List JsonlField → List JsonlField → Prop
  | field :: fields, field' :: fields' =>
    SameSchemaNames field field.info.name field' field'.info.name ∧
      SameSchemaNamesAll fields fields'
  | _, _ => True

end

theorem FieldInfo.eq_of_unnamed {i j : FieldInfo} (h : i.unnamed = j.unnamed) :
    j = { i with name := j.name } := by
  cases i
  cases j
  simp only [FieldInfo.unnamed, FieldInfo.mk.injEq] at h ⊢
  tauto

variable (field : FieldInfo)

variable {a b : ParquetNode} {f : JsonlField}

theorem leafFromField_rename (name : Bytes) :
    Together (· = ·) (leafFromField field) (leafFromField { field with name := name }) := by
  unfold leafFromField
  dsimp only
  cases field.kind with
  | fixedSizeBinary | decimal =>
    dsimp only
    split
    · exact .error
    · exact .ok rfl
  | _ => first | exact .ok rfl | exact .error

theorem primitiveNodeFromField_rename (fieldName name name' : Bytes) :
    Together (fun a b => a.unnamed = b.unnamed) (primitiveNodeFromField field name)
      (primitiveNodeFromField { field with name := fieldName } name') := by
  refine (leafFromField_rename field fieldName).bind ?_
  rintro leaf _ rfl
  exact .ok rfl

theorem dictionaryNodeFromField_rename (field value value' : FieldInfo) (fieldName : Bytes)
    (h : a.unnamed = b.unnamed) :
    Together (fun a b => a.unnamed = b.unnamed) (dictionaryNodeFromField field value a)
      (dictionaryNodeFromField { field with name := fieldName } value' b) := by
  cases a <;> cases b <;> first
    | exact .error
    | (simp only [ParquetNode.unnamed, reduceCtorEq] at h; done)
    | skip
  -- two leaves are left, which agree but for the name
  case primitive.primitive info leaf info' leaf' =>
    simp only [ParquetNode.unnamed, ParquetNode.primitive.injEq] at h
    obtain ⟨hinfo, rfl⟩ := h
    unfold dictionaryNodeFromField
    dsimp only
    split
    · exact .error
    · refine .ok ?_
      simp only [ParquetNode.unnamed, hinfo]

theorem sameSchemaNames_of_not_nested (h : f.info.kind.isNested = false)
    (name : Bytes) (g : JsonlField) (name' : Bytes) : SameSchemaNames f name g name' := by
  obtain ⟨field, children⟩ := f
  obtain ⟨field', children'⟩ := g
  rw [SameSchemaNames.eq_def]
  unfold JsonlKind.isNested JsonlField.info at h
  dsimp only at h ⊢
  cases hshape : field.kind.shape with
  | dictionary => trivial
  | primitive => trivial
  | struct | list | map => simp [hshape] at h

/-- Whether the kind is `kPrimitive`. -/
def ParquetNode.isLeaf : ParquetNode → Bool
  | .primitive _ _ => true
  | _ => false

theorem dictionaryNodeFromField_isLeaf {field value : FieldInfo}
    (h : dictionaryNodeFromField field value a = .ok b) : b.isLeaf = true := by
  cases a with
  | primitive info leaf =>
    unfold dictionaryNodeFromField at h
    dsimp only at h
    split at h
    · cases h
    · cases h
      rfl
  | group | list | map => cases h

theorem nodeFromField_isLeaf {name : Bytes}
    (h : nodeFromField f name = .ok a) : a.isLeaf = !f.info.kind.isNested := by
  obtain ⟨field, children⟩ := f
  rw [nodeFromField.eq_def] at h
  unfold JsonlKind.isNested JsonlField.info
  dsimp only at h ⊢
  cases hshape : field.kind.shape with
  | primitive =>
    simp only [hshape] at h
    obtain ⟨leaf, -, hnode⟩ := Lib.bind_eq_ok_iff.mp h
    cases hnode
    rfl
  | struct =>
    simp only [hshape] at h
    obtain ⟨nodes, -, hnode⟩ := Lib.bind_eq_ok_iff.mp h
    cases hnode
    rfl
  | dictionary =>
    simp only [hshape] at h
    split at h
    · obtain ⟨valueNode, -, hnode⟩ := Lib.bind_eq_ok_iff.mp h
      exact dictionaryNodeFromField_isLeaf hnode
    · cases h
  | list =>
    simp only [hshape] at h
    split at h
    · obtain ⟨element, -, hnode⟩ := Lib.bind_eq_ok_iff.mp h
      cases hnode
      rfl
    · cases h
  | map =>
    simp only [hshape] at h
    split at h
    · split at h
      · cases h
      · split at h
        · cases h
        · obtain ⟨keyNode, -, h⟩ := Lib.bind_eq_ok_iff.mp h
          obtain ⟨valueNode, -, hnode⟩ := Lib.bind_eq_ok_iff.mp h
          cases hnode
          rfl
    · cases h

theorem dictionaryNodeFromField_of_not_isLeaf (field value : FieldInfo)
    (h : a.isLeaf = false) : Fails (dictionaryNodeFromField field value a) := by
  cases a with
  | primitive => cases h
  | group | list | map => exact ⟨_, rfl⟩

theorem FieldInfo.kind_eq_of_unnamed {i j : FieldInfo} (h : i.unnamed = j.unnamed) :
    i.kind = j.kind :=
  (congrArg FieldInfo.kind h : _)

theorem JsonlField.kind_eq_of_unnamed {g : JsonlField} (h : f.unnamed = g.unnamed) :
    f.info.kind = g.info.kind := by
  obtain ⟨field, children⟩ := f
  obtain ⟨field', children'⟩ := g
  simp only [JsonlField.unnamed, JsonlField.mk.injEq] at h
  exact FieldInfo.kind_eq_of_unnamed h.1

theorem dictionaryNodeFromField_together (fieldName : Bytes) {value value' : JsonlField}
    {name name' : Bytes} (hvalue : value.unnamed = value'.unnamed)
    (ha : nodeFromField value name = .ok a) (hb : nodeFromField value' name' = .ok b)
    (hab : a.unnamed = b.unnamed ↔ SameSchemaNames value name value' name') :
    Together (fun a b => a.unnamed = b.unnamed ↔ True) (dictionaryNodeFromField field value.info a)
      (dictionaryNodeFromField { field with name := fieldName } value'.info b) := by
  have hkind := JsonlField.kind_eq_of_unnamed hvalue
  have haleaf := nodeFromField_isLeaf ha
  have hbleaf := nodeFromField_isLeaf hb
  rw [← hkind] at hbleaf
  cases hnested : value.info.kind.isNested with
  | true =>
    rw [hnested] at haleaf hbleaf
    exact .of_fails (dictionaryNodeFromField_of_not_isLeaf _ _ haleaf)
      (dictionaryNodeFromField_of_not_isLeaf _ _ hbleaf)
  | false =>
    have heq := hab.mpr (sameSchemaNames_of_not_nested hnested name value' name')
    exact (dictionaryNodeFromField_rename field value.info value'.info fieldName heq).mono
      fun _ _ h => iff_true_intro h

theorem structNodeFromField_unnamed (fieldName name name' : Bytes) (as bs : List ParquetNode) :
    (structNodeFromField field name as).unnamed
        = (structNodeFromField { field with name := fieldName } name' bs).unnamed ↔
      (name = rootName ↔ name' = rootName) ∧ unnamedNodes as = unnamedNodes bs := by
  simp only [structNodeFromField, ParquetNode.unnamed, ParquetNode.group.injEq, decide_eq_decide]
  refine and_congr_right fun hname => and_iff_right ?_
  simp only [NodeInfo.unnamed, hname]

theorem ParquetNode.unnamed_setRequired : node.setRequired.unnamed = node.unnamed.setRequired := by
  cases node <;> rfl

theorem mapNodeFromField_unnamed (fieldName name name' : Bytes) {key key' : ParquetNode}
    (hkey : key.unnamed = key'.unnamed) (value value' : ParquetNode) :
    (mapNodeFromField field name key value).unnamed
        = (mapNodeFromField { field with name := fieldName } name' key' value').unnamed ↔
      value.unnamed = value'.unnamed := by
  simp only [mapNodeFromField, ParquetNode.unnamed, unnamedNodes, ParquetNode.unnamed_setRequired,
    hkey, NodeInfo.unnamed, ParquetNode.map.injEq, ParquetNode.group.injEq, cons.injEq,
    true_and, and_true]

mutual

/-- Two schemas that differ in their names only are accepted together, and give the
same nodes exactly if the same structs are called `schema`. -/
theorem nodeFromField_together : ∀ (f g : JsonlField) (name name' : Bytes), f.unnamed = g.unnamed →
    Together (fun a b => a.unnamed = b.unnamed ↔ SameSchemaNames f name g name')
      (nodeFromField f name) (nodeFromField g name')
  | .mk field children, .mk field' children', name, name', h => by
    simp only [JsonlField.unnamed, JsonlField.mk.injEq] at h
    obtain ⟨hfield, hchildren⟩ := h
    obtain ⟨fieldName, rfl⟩ : ∃ n, field' = { field with name := n } :=
      ⟨_, FieldInfo.eq_of_unnamed hfield⟩
    rw [nodeFromField.eq_def, nodeFromField.eq_def, SameSchemaNames.eq_def]
    dsimp only
    cases hshape : field.kind.shape with
    | primitive =>
      exact (primitiveNodeFromField_rename field fieldName name name').mono
        fun a b hab => iff_true_intro hab
    | struct =>
      refine (nodesFromFields_together children children' hchildren).bind fun as bs h => .ok ?_
      rw [structNodeFromField_unnamed, h]
    | dictionary =>
      rcases children with _ | ⟨value, _ | ⟨second, rest⟩⟩ <;>
        rcases children' with _ | ⟨value', _ | ⟨second', rest'⟩⟩ <;>
        simp only [unnamedFields, cons.injEq, reduceCtorEq, and_true, and_false,
          nil_eq] at hchildren
      · exact .error
      · refine (nodeFromField_together value value' name name' hchildren).bind_of_ok
          fun a b ha hb hab => ?_
        exact dictionaryNodeFromField_together field fieldName hchildren ha hb hab
      · exact .error
    | list =>
      rcases children with _ | ⟨value, _ | ⟨second, rest⟩⟩ <;>
        rcases children' with _ | ⟨value', _ | ⟨second', rest'⟩⟩ <;>
        simp only [unnamedFields, cons.injEq, reduceCtorEq, and_true, and_false,
          nil_eq] at hchildren
      · exact .error
      · refine (nodeFromField_together value value' _ _ hchildren).bind fun a b hab => .ok ?_
        simp only [listNodeFromField, ParquetNode.unnamed, NodeInfo.unnamed,
          ParquetNode.list.injEq, true_and, hab]
      · exact .error
    | map =>
      rcases children with _ | ⟨⟨entry, _ | ⟨key, _ | ⟨value, _ | ⟨third, more⟩⟩⟩⟩,
        _ | ⟨second, rest⟩⟩ <;>
        rcases children' with
          _ | ⟨⟨entry', _ | ⟨key', _ | ⟨value', _ | ⟨third', more'⟩⟩⟩⟩, _ | ⟨second', rest'⟩⟩ <;>
        simp only [unnamedFields, JsonlField.unnamed, JsonlField.mk.injEq, cons.injEq,
          reduceCtorEq, and_true, and_false, false_and, nil_eq] at hchildren <;>
        try exact .error
      obtain ⟨hentry, hkey, hvalue⟩ := hchildren
      dsimp only
      rw [FieldInfo.kind_eq_of_unnamed hentry, JsonlField.kind_eq_of_unnamed hkey]
      split
      · exact .error
      · split
        · exact .error
        · rename_i hnested
          rw [Bool.not_eq_true] at hnested
          have hnested' : key.info.kind.isNested = false := by
            rw [JsonlField.kind_eq_of_unnamed hkey, hnested]
          refine (nodeFromField_together key key' _ _ hkey).bind fun a b hab => ?_
          have heq := hab.mpr (sameSchemaNames_of_not_nested hnested' _ _ _)
          refine (nodeFromField_together value value' _ _ hvalue).bind fun c d hcd => .ok ?_
          rw [mapNodeFromField_unnamed field fieldName name name' heq, hcd]

theorem nodesFromFields_together : ∀ fs gs : List JsonlField, unnamedFields fs = unnamedFields gs →
    Together (fun as bs => unnamedNodes as = unnamedNodes bs ↔ SameSchemaNamesAll fs gs)
      (nodesFromFields fs) (nodesFromFields gs)
  | [], [], _ => .ok (by simp [SameSchemaNamesAll])
  | [], _ :: _, h => by cases h
  | _ :: _, [], h => by cases h
  | f :: fs, g :: gs, h => by
    simp only [unnamedFields, cons.injEq] at h
    refine (nodeFromField_together f g f.info.name g.info.name h.1).bind fun a b hab => ?_
    refine (nodesFromFields_together fs gs h.2).bind fun as bs habs => .ok ?_
    simp only [unnamedNodes, cons.injEq, hab, habs, SameSchemaNamesAll]

end

/-! ### Names and structure -/

/-- What the writer makes of two accepted schemas is the same but for the names: the
nodes, the levels of the columns, the schema elements with their repetition types, and
the levels and values collected from any batch. -/
structure SameStructure (root root' : ParquetNode) : Prop where
  nodes : root.unnamed = root'.unnamed
  columns : (analyzeSchema root).2.map LeafColumn.unnamed
    = (analyzeSchema root').2.map LeafColumn.unnamed
  elements : (writeSchemaElements (analyzeSchema root).1).map SchemaElement.unnamed
    = (writeSchemaElements (analyzeSchema root').1).map SchemaElement.unnamed
  pages : ∀ (leaf : LeafInfo) (array : ArrowArray) (rowOffset : Int) (rowCount leafIndex : Nat),
    collectColumnPageData (analyzeSchema root).1 leaf array rowOffset rowCount leafIndex
      = collectColumnPageData (analyzeSchema root').1 leaf array rowOffset rowCount leafIndex

theorem SameStructure.of_nodes {root root' : ParquetNode} (h : root.unnamed = root'.unnamed) :
    SameStructure root root' := by
  obtain ⟨hnodes, hcolumns⟩ := analyzeNode_unnamed root [] [] 0 0 0
  obtain ⟨hnodes', hcolumns'⟩ := analyzeNode_unnamed root' [] [] 0 0 0
  have hanalyzed : (analyzeSchema root).1.unnamed = (analyzeSchema root').1.unnamed := by
    show (analyzeNode root [] 0 0 0).1.unnamed = (analyzeNode root' [] 0 0 0).1.unnamed
    rw [← hnodes, h, hnodes']
  refine ⟨h, ?_, ?_, ?_⟩
  · show (analyzeNode root [] 0 0 0).2.map _ = (analyzeNode root' [] 0 0 0).2.map _
    rw [← hcolumns, h, hcolumns']
  · rw [← writeSchemaElements_unnamed, hanalyzed, writeSchemaElements_unnamed]
  · intro leaf array rowOffset rowCount leafIndex
    rw [← collectColumnPageData_unnamed, hanalyzed, collectColumnPageData_unnamed]

/-- **Names and structure.**  Schemas that differ in names only are accepted together,
and what the writer makes of them is the same exactly if every struct field below the
root is called `schema` in both or in neither. -/
theorem sameStructure_iff_sameSchemaNames {f g : JsonlField} (h : f.unnamed = g.unnamed) :
    (Fails (parseSupportedRootSchema f) ↔ Fails (parseSupportedRootSchema g)) ∧
      ∀ root root', parseSupportedRootSchema f = .ok root →
        parseSupportedRootSchema g = .ok root' →
        (SameStructure root root' ↔ SameSchemaNames f rootName g rootName) := by
  have htogether := nodeFromField_together f g rootName rootName h
  have hkind := JsonlField.kind_eq_of_unnamed h
  unfold parseSupportedRootSchema
  rw [← hkind]
  split
  · refine ⟨htogether.fails_iff, fun root root' hroot hroot' => ?_⟩
    rw [← htogether.rel hroot hroot']
    exact ⟨SameStructure.nodes, SameStructure.of_nodes⟩
  · refine ⟨by simp [unsupported], fun root root' hroot => ?_⟩
    cases hroot

/-- A schema with one optional struct field of one optional integer. -/
def structFieldSchema (name : Bytes) : JsonlField :=
  .mk { kind := .struct, name := [], format := bytes "+s" }
    [.mk { kind := .struct, name := name, format := bytes "+s" }
      [.mk { kind := .int64, name := bytes "y", format := bytes "l" } []]]

theorem sameStructure_iff_sameSchemaNames_struct :
    (Fails (parseSupportedRootSchema (structFieldSchema (bytes "a"))) ↔
        Fails (parseSupportedRootSchema (structFieldSchema (bytes "b")))) ∧
      ∀ root root', parseSupportedRootSchema (structFieldSchema (bytes "a")) = .ok root →
        parseSupportedRootSchema (structFieldSchema (bytes "b")) = .ok root' →
        (SameStructure root root' ↔
          SameSchemaNames (structFieldSchema (bytes "a")) rootName
            (structFieldSchema (bytes "b")) rootName) :=
  sameStructure_iff_sameSchemaNames rfl

/-- Renaming a struct field to `schema` takes away one definition level of its leaf. -/
theorem schema_field_loses_level :
    (structFieldSchema (bytes "x")).unnamed = (structFieldSchema (bytes "schema")).unnamed ∧
      (parseSupportedRootSchema (structFieldSchema (bytes "x"))).map
          (fun root => (analyzeSchema root).2.map LeafColumn.maxDefinitionLevel) = .ok [2] ∧
      (parseSupportedRootSchema (structFieldSchema (bytes "schema"))).map
          (fun root => (analyzeSchema root).2.map LeafColumn.maxDefinitionLevel) = .ok [1] :=
  ⟨rfl, rfl, rfl⟩

end SchemaSanitizer.Parquet
